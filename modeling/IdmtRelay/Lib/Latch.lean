import Mathlib.Data.List.Basic

/-!
# Latches

A latch is set by some steps of a run and cleared by others, and a step that does both clears it. It
is set after a run exactly if a step of the run set it and no step from that one on cleared it:
`latched_snoc` follows the run step by step.
-/

namespace Lib

variable {β : Type _} {Sets Clears : β → Prop} {tr : List β} {x : β}

/-- Some step sets the latch, and no step from that one on clears it. -/
def Latched (Sets Clears : β → Prop) (tr : List β) : Prop :=
  ∃ pre p post, tr = pre ++ p :: post ∧ Sets p ∧ ∀ q ∈ p :: post, ¬ Clears q

theorem not_latched_nil : ¬ Latched Sets Clears [] := by
  intro ⟨pre, p, post, htr, _⟩
  exact absurd htr (by simp)

theorem latched_snoc : Latched Sets Clears (tr ++ [x]) ↔
    ¬ Clears x ∧ (Sets x ∨ Latched Sets Clears tr) := by
  constructor
  · intro ⟨pre, p, post, htr, hset, hkept⟩
    rcases List.eq_nil_or_concat' post with rfl | ⟨post, y, rfl⟩
    · obtain ⟨rfl, hx⟩ := List.append_inj' htr rfl
      obtain rfl : x = p := by simpa using hx
      exact ⟨hkept x (List.mem_cons_self ..), .inl hset⟩
    · rw [← List.cons_append, ← List.append_assoc] at htr
      obtain ⟨rfl, hx⟩ := List.append_inj' htr rfl
      obtain rfl : x = y := by simpa using hx
      rw [← List.cons_append, List.forall_mem_append] at hkept
      exact ⟨hkept.2 x (List.mem_singleton_self x), .inr ⟨pre, p, post, rfl, hset, hkept.1⟩⟩
  · intro ⟨hkeep, h⟩
    rcases h with hset | ⟨pre, p, post, rfl, hset, hkept⟩
    · exact ⟨tr, x, [], rfl, hset, List.forall_mem_singleton.2 hkeep⟩
    · refine ⟨pre, p, post ++ [x], by simp, hset, ?_⟩
      rw [← List.cons_append, List.forall_mem_append]
      exact ⟨hkept, List.forall_mem_singleton.2 hkeep⟩

end Lib
