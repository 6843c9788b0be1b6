import Mathlib.Data.List.Basic

/-!
# Machines that answer calls

A machine `f` takes a call in a state and gives a result and the next state; `answers f s cs` are
its results for the calls `cs`, `final f s cs` is the state it is then in. Two machines that step in
lockstep under a relation of their states (`Lockstep`) give the same results for every sequence of
calls (`Lockstep.answers_eq`) and stay related (`Lockstep.final`).
-/

namespace Lib.Machine

variable {ι ω σ τ : Type _}

/-- The results of a sequence of calls. -/
def answers (f : ι → σ → ω × σ) : σ → List ι → List ω
  | _, [] => []
  | s, c :: cs => (f c s).1 :: answers f (f c s).2 cs

/-- The state after a sequence of calls. -/
def final (f : ι → σ → ω × σ) : σ → List ι → σ
  | s, [] => s
  | s, c :: cs => final f (f c s).2 cs

variable {f : ι → σ → ω × σ} {g : ι → τ → ω × τ} {R : σ → τ → Prop}

@[simp] theorem answers_nil (s : σ) : answers f s [] = [] := rfl

@[simp] theorem final_nil (s : σ) : final f s [] = s := rfl

@[simp] theorem answers_cons (s : σ) (c : ι) (cs : List ι) :
    answers f s (c :: cs) = (f c s).1 :: answers f (f c s).2 cs := rfl

@[simp] theorem final_cons (s : σ) (c : ι) (cs : List ι) :
    final f s (c :: cs) = final f (f c s).2 cs := rfl

theorem answers_snoc (s : σ) (cs : List ι) (c : ι) :
    answers f s (cs ++ [c]) = answers f s cs ++ [(f c (final f s cs)).1] := by
  induction cs generalizing s with
  | nil => rfl
  | cons d cs ih =>
    rw [List.cons_append, answers_cons, ih, answers_cons, final_cons, List.cons_append]

theorem final_snoc (s : σ) (cs : List ι) (c : ι) :
    final f s (cs ++ [c]) = (f c (final f s cs)).2 := by
  induction cs generalizing s with
  | nil => rfl
  | cons d cs ih => rw [List.cons_append, final_cons, ih, final_cons]

/-- Related states give the same result for a call and are related after it. -/
def Lockstep (f : ι → σ → ω × σ) (g : ι → τ → ω × τ) (R : σ → τ → Prop) : Prop :=
  ∀ c s t, R s t → (f c s).1 = (g c t).1 ∧ R (f c s).2 (g c t).2

theorem Lockstep.answers_eq (h : Lockstep f g R) {s : σ} {t : τ} (hr : R s t) (cs : List ι) :
    answers f s cs = answers g t cs := by
  induction cs generalizing s t with
  | nil => rfl
  | cons c cs ih =>
    obtain ⟨ho, hr'⟩ := h c s t hr
    rw [answers_cons, answers_cons, ho, ih hr']

theorem Lockstep.final (h : Lockstep f g R) {s : σ} {t : τ} (hr : R s t) (cs : List ι) :
    R (final f s cs) (final g t cs) := by
  induction cs generalizing s t with
  | nil => exact hr
  | cons c cs ih => exact ih (h c s t hr).2

end Lib.Machine
