import IdmtRelay.Lib.Trace

/-!
# Variants of labelled transition systems

Some steps of a run count and the others are free. `Variant step I G w counts`: until the goal `G`
is reached, every step that counts decreases `w` and no step increases it. Then every run in which
`w s` steps count has reached the goal (`Variant.settled`), whatever free steps are taken in
between.
-/

namespace Lib

variable {σ α : Type _}

structure Variant (step : σ → α → σ → Prop) (I G : σ → Prop) (w : σ → Nat) (counts : α → Bool) :
    Prop where
  inv {s s' : σ} {l : α} : I s → step s l s' → I s'
  stable {s s' : σ} {l : α} : I s → G s → step s l s' → G s'
  pays {s s' : σ} {l : α} : I s → ¬ G s → step s l s' → w s' + (counts l).toNat ≤ w s
  goal {s : σ} : w s = 0 → G s

namespace Variant

variable {step : σ → α → σ → Prop} {I G : σ → Prop} {w : σ → Nat} {counts : α → Bool} {s s' : σ}
  {tr : List (α × σ)}

theorem le_or_goal (hv : Variant step I G w counts) (h0 : I s) (h : Trace step s tr s') :
    G s' ∨ tr.countP (fun p => counts p.1) + w s' ≤ w s := by
  induction h with
  | nil => exact .inr (Nat.le_of_eq (Nat.zero_add _))
  | @snoc s₁ s₂ tr l h hst ih =>
    have hi := h.inv I h0 fun _ _ _ => hv.inv
    by_cases hg : G s₁
    · exact .inl (hv.stable hi hg hst)
    · have hle := ih.resolve_left hg
      have hpay := hv.pays hi hg hst
      refine .inr ?_
      rw [List.countP_append, List.countP_singleton]
      cases hc : counts l with
      | true =>
        simp only [hc, Bool.toNat_true, if_true] at hpay ⊢
        omega
      | false =>
        simp only [hc, Bool.toNat_false] at hpay ⊢
        simp only [Bool.false_eq_true, if_false]
        omega

/-- **The goal is reached when enough steps have been taken.** -/
theorem settled (hv : Variant step I G w counts) (h0 : I s) (h : Trace step s tr s')
    (hw : w s ≤ tr.countP fun p => counts p.1) : G s' := by
  rcases hv.le_or_goal h0 h with hg | hle
  · exact hg
  · exact hv.goal (by omega)

end Variant

end Lib
