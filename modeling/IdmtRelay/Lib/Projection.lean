import IdmtRelay.Lib.Trace

/-!
# A system and its parts

A part of a system takes some of its steps and sits out the others. `Projects` says so of one step:
`view` is the part's state, `proj` the label of the part's step, if it takes one. Then every trace
of the system is a trace of the part (`Trace.project`), with the labels and states of the steps it
takes, so that what holds of every trace of a part holds in every system it is put into.
-/

namespace Lib

variable {σ α τ β : Type _}

/-- On the states with `I`, every step of the system is one of the part or leaves it alone. -/
def Projects (step : σ → α → σ → Prop) (part : τ → β → τ → Prop) (I : σ → Prop) (view : σ → τ)
    (proj : α → Option β) : Prop :=
  ∀ s l s', I s → step s l s' →
    match proj l with
    | some l' => part (view s) l' (view s')
    | none => view s' = view s

/-- The part's share of a trace. -/
def share (view : σ → τ) (proj : α → Option β) (tr : List (α × σ)) : List (β × τ) :=
  tr.filterMap fun p => (proj p.1).map fun l => (l, view p.2)

section
variable {view : σ → τ} {proj : α → Option β} {tr : List (α × σ)} {l : α} {l' : β} {s : σ}

@[simp] theorem share_nil : share view proj [] = [] := rfl

theorem share_snoc_some (h : proj l = some l') :
    share view proj (tr ++ [(l, s)]) = share view proj tr ++ [(l', view s)] := by
  simp [share, List.filterMap_append, h]

theorem share_snoc_none (h : proj l = none) :
    share view proj (tr ++ [(l, s)]) = share view proj tr := by
  simp [share, List.filterMap_append, h]

theorem mem_share {p : β × τ} : p ∈ share view proj tr ↔
    ∃ q ∈ tr, proj q.1 = some p.1 ∧ view q.2 = p.2 := by
  unfold share
  rw [List.mem_filterMap]
  constructor
  · intro ⟨q, hq, hp⟩
    obtain ⟨l, hl, rfl⟩ := Option.map_eq_some_iff.1 hp
    exact ⟨q, hq, hl, rfl⟩
  · intro ⟨q, hq, hl, hv⟩
    refine ⟨q, hq, ?_⟩
    rw [hl, Option.map_some, hv]

end

/-- **Every trace of the system is a trace of the part.** -/
theorem Trace.project {step : σ → α → σ → Prop} {part : τ → β → τ → Prop} {I : σ → Prop}
    {view : σ → τ} {proj : α → Option β} (hp : Projects step part I view proj)
    (hi : ∀ s l s', I s → step s l s' → I s') {s s' : σ} {tr : List (α × σ)} (h0 : I s)
    (h : Trace step s tr s') : Trace part (view s) (share view proj tr) (view s') := by
  induction h with
  | nil => exact .nil _
  | @snoc s₁ s₂ tr l h hst ih =>
    have hstep := hp s₁ l s₂ (h.inv I h0 hi) hst
    split at hstep
    · rename_i l' hl
      rw [share_snoc_some hl]
      exact .snoc ih hstep
    · rename_i hl
      rw [share_snoc_none hl, hstep]
      exact ih

end Lib
