import IdmtRelay.Lib.Machine

/-!
# Bounded queues

A queue of at most `cap` elements as a machine: a call is refused when there is no room or nothing
to take, and then it changes neither the queue nor the caller's variable. What has been accepted is
what has been delivered followed by what is queued (`accepted_eq`): in order, nothing lost and
nothing twice.
-/

namespace Lib

/-- A queue of at most `cap` elements, oldest first. -/
structure Queue (α : Type _) (cap : Nat) where
  items : List α
  le : items.length ≤ cap

namespace Queue

variable {α : Type _} {cap : Nat}

/-- A call, with the caller's variable: the element to append, or the place for the one taken. -/
inductive Call (α : Type _)
  | put (var : α)
  | get (var : α)
  deriving DecidableEq, Repr

def Call.var : Call α → α
  | .put a | .get a => a

def empty (α : Type _) (cap : Nat) : Queue α cap := ⟨[], Nat.zero_le cap⟩

/-- A call on the queue: whether it was accepted, and the caller's variable afterwards. -/
def call : Call α → Queue α cap → (Bool × α) × Queue α cap
  | .put a, q =>
    if h : q.items.length < cap then
      ((true, a), ⟨q.items ++ [a], by simpa [Nat.succ_le_iff] using h⟩)
    else ((false, a), q)
  | .get a, ⟨[], h⟩ => ((false, a), ⟨[], h⟩)
  | .get _, ⟨b :: bs, h⟩ => ((true, b), ⟨bs, Nat.le_of_succ_le h⟩)

/-! ## What was appended and what was taken -/

/-- The elements appended by a sequence of calls with the given results. -/
def accepted : List (Call α) → List (Bool × α) → List α
  | .put a :: cs, (true, _) :: rs => a :: accepted cs rs
  | _ :: cs, _ :: rs => accepted cs rs
  | _, _ => []

/-- The elements taken. -/
def delivered : List (Call α) → List (Bool × α) → List α
  | .get _ :: cs, (true, b) :: rs => b :: delivered cs rs
  | _ :: cs, _ :: rs => delivered cs rs
  | _, _ => []

/-- **What a queue held and accepts is what it delivers and holds then.** -/
theorem accepted_eq (cs : List (Call α)) (q : Queue α cap) :
    q.items ++ accepted cs (Machine.answers call q cs) =
      delivered cs (Machine.answers call q cs) ++ (Machine.final call q cs).items := by
  induction cs generalizing q with
  | nil => simp [accepted, delivered]
  | cons c cs ih =>
    rw [Machine.answers_cons, Machine.final_cons]
    specialize ih (call c q).2
    cases c with
    | put a =>
      by_cases h : q.items.length < cap
      · simp only [call, dif_pos h, accepted, delivered] at ih ⊢
        rw [← ih, List.append_assoc, List.singleton_append]
      · simp only [call, dif_neg h, accepted, delivered] at ih ⊢
        exact ih
    | get a =>
      rcases q with ⟨items, hle⟩
      cases items with
      | nil => exact ih
      | cons b bs =>
        simp only [call, accepted, delivered] at ih ⊢
        rw [List.cons_append, ih, List.cons_append]

end Queue

end Lib
