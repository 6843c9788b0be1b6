import Mathlib.Data.List.Induction

/-!
# Traces of labelled transition systems

`Trace step s tr s'`: from `s` the system takes the steps `tr` (each label with the state it leads
to) and is then in `s'`. Safety properties are proved with `Trace.history` (an invariant of the
state and the steps so far) or `Trace.inv` (of the state alone), and facts about the past with
`Trace.since`; `Guarded C step` restricts a system to the steps that meet the condition `C`, and
`Trace.forall_post_iff` and `Trace.forall_step_iff` say when such a condition is exact.

`run` executes a machine given as a function; `trace_of_run` turns a run into a trace of it, so
that a single behaviour can be exhibited by evaluation, and `exists_run_of_inv` shows that every run
goes through.
-/

namespace Lib

variable {σ : Type _} {α : Type _}

inductive Trace (step : σ → α → σ → Prop) : σ → List (α × σ) → σ → Prop
  | nil (s : σ) : Trace step s [] s
  | snoc {s s' s'' : σ} {tr : List (α × σ)} {l : α} :
      Trace step s tr s' → step s' l s'' → Trace step s (tr ++ [(l, s'')]) s''

/-- The steps of `step` that meet the condition `C` (on the state before and the label). -/
def Guarded (C : σ → α → Prop) (step : σ → α → σ → Prop) (s : σ) (l : α) (s' : σ) : Prop :=
  C s l ∧ step s l s'

namespace Trace

variable {step step' : σ → α → σ → Prop}

/-- An invariant of the steps so far and the state, kept by every step. -/
theorem history {s s' : σ} {tr : List (α × σ)} (h : Trace step s tr s')
    (I : List (α × σ) → σ → Prop) (h0 : I [] s)
    (hs : ∀ tr s l s', I tr s → step s l s' → I (tr ++ [(l, s')]) s') : I tr s' := by
  induction h with
  | nil => exact h0
  | snoc _ hst ih => exact hs _ _ _ _ ih hst

/-- An invariant of the state, kept by every step. -/
theorem inv {s s' : σ} {tr : List (α × σ)} (h : Trace step s tr s') (I : σ → Prop) (h0 : I s)
    (hs : ∀ s l s', I s → step s l s' → I s') : I s' :=
  h.history (fun _ s => I s) h0 fun _ s l s' => hs s l s'

theorem mono {s s' : σ} {tr : List (α × σ)} (h : Trace step s tr s')
    (hm : ∀ s l s', step s l s' → step' s l s') : Trace step' s tr s' := by
  induction h with
  | nil => exact .nil _
  | snoc _ hst ih => exact .snoc ih (hm _ _ _ hst)

theorem cons {s s' s'' : σ} {l : α} {tr : List (α × σ)} (hst : step s l s')
    (h : Trace step s' tr s'') : Trace step s ((l, s') :: tr) s'' := by
  induction h with
  | nil => exact .snoc (.nil s) hst
  | snoc _ hst' ih => exact .snoc ih hst'

theorem snoc_iff {s s'' : σ} {tr : List (α × σ)} {p : α × σ} :
    Trace step s (tr ++ [p]) s'' ↔ ∃ s', Trace step s tr s' ∧ step s' p.1 s'' ∧ p.2 = s'' := by
  constructor
  · intro h
    generalize he : tr ++ [p] = tr' at h
    cases h with
    | nil => simp at he
    | snoc h hst =>
      obtain ⟨rfl, he⟩ := List.append_inj' he rfl
      obtain rfl : p = _ := by simpa using he
      exact ⟨_, h, hst, rfl⟩
  · rintro ⟨s', h, hst, rfl⟩
    exact .snoc h hst

/-- A trace is cut at any point: the first part leads to a state the second part starts from. -/
theorem split {s s'' : σ} {tr₁ tr₂ : List (α × σ)} (h : Trace step s (tr₁ ++ tr₂) s'') :
    ∃ s', Trace step s tr₁ s' ∧ Trace step s' tr₂ s'' := by
  induction tr₂ using List.reverseRecOn generalizing s'' with
  | nil => exact ⟨s'', by simpa using h, .nil _⟩
  | append_singleton tr₂ p ih =>
    rw [← List.append_assoc, snoc_iff] at h
    obtain ⟨s₁, h, hst, rfl⟩ := h
    obtain ⟨s', h₁, h₂⟩ := ih h
    exact ⟨s', h₁, snoc_iff.2 ⟨s₁, h₂, hst, rfl⟩⟩

theorem nil_iff {s s' : σ} : Trace step s [] s' ↔ s = s' := by
  constructor
  · intro h
    generalize he : ([] : List (α × σ)) = tr at h
    cases h with
    | nil => rfl
    | snoc => simp at he
  · rintro rfl
    exact .nil s

theorem of_cons {s s'' : σ} {p : α × σ} {tr : List (α × σ)} (h : Trace step s (p :: tr) s'') :
    step s p.1 p.2 ∧ Trace step p.2 tr s'' := by
  obtain ⟨s', hp, htr⟩ := Trace.split (show Trace step s ([p] ++ tr) s'' from h)
  obtain ⟨s₁, h1, hst, rfl⟩ := snoc_iff.1 (show Trace step s ([] ++ [p]) s' from hp)
  obtain rfl := nil_iff.1 h1
  exact ⟨hst, htr⟩

/-- Every step of a trace is a step of the system. -/
theorem step_of_mem {s s' : σ} {tr : List (α × σ)} (h : Trace step s tr s') {p : α × σ}
    (hp : p ∈ tr) : ∃ s₀, step s₀ p.1 p.2 := by
  induction h with
  | nil => cases hp
  | snoc _ hst ih =>
    rcases List.mem_append.1 hp with hp | hp
    · exact ih hp
    · obtain rfl := List.mem_singleton.1 hp
      exact ⟨_, hst⟩

/-- A property that every step from a state of the invariant has. -/
theorem forall_steps {s s' : σ} {tr : List (α × σ)} (h : Trace step s tr s') (I : σ → Prop)
    {Q : α × σ → Prop} (h0 : I s) (hs : ∀ s l s', I s → step s l s' → I s' ∧ Q (l, s')) :
    ∀ p ∈ tr, Q p := by
  have key : I s' ∧ ∀ p ∈ tr, Q p := by
    refine h.history (fun tr s => I s ∧ ∀ p ∈ tr, Q p) ⟨h0, List.forall_mem_nil _⟩ ?_
    intro tr s l s' ⟨hi, hall⟩ hst
    obtain ⟨hi', hq⟩ := hs s l s' hi hst
    exact ⟨hi', List.forall_mem_append.2 ⟨hall, List.forall_mem_singleton.2 hq⟩⟩
  exact key.2

/-- A property of the state after a step that every state satisfying the invariant has. -/
theorem forall_post {s s' : σ} {tr : List (α × σ)} (h : Trace step s tr s') (I : σ → Prop)
    (h0 : I s) (hs : ∀ s l s', I s → step s l s' → I s') : ∀ p ∈ tr, I p.2 :=
  h.forall_steps I (Q := fun p => I p.2) h0 fun s l s' hi hst =>
    ⟨hs s l s' hi hst, hs s l s' hi hst⟩

/-- A condition that holds only since a step `B` started it, and only while `K` holds after every
step: in every state in which it holds there is such a step, with `K` since then. -/
theorem since {A K : σ → Prop} {B : σ → α → σ → Prop} {s s' : σ} {tr : List (α × σ)}
    (h : Trace step s tr s') (h0 : ¬ A s)
    (hs : ∀ s l s', step s l s' → A s' → K s' ∧ (A s ∨ B s l s')) (ha : A s') :
    ∃ pre p mid s₀, tr = pre ++ p :: mid ∧ Trace step s pre s₀ ∧ B s₀ p.1 p.2 ∧
      ∀ q ∈ p :: mid, K q.2 := by
  induction h with
  | nil => exact absurd ha h0
  | @snoc s₁ s₂ tr l h hst ih =>
    obtain ⟨hk, ha' | hb⟩ := hs _ _ _ hst ha
    · obtain ⟨pre, p, mid, s₀, rfl, hpre, hb, hall⟩ := ih ha'
      refine ⟨pre, p, mid ++ [(l, s₂)], s₀, by simp, hpre, hb, ?_⟩
      rw [← List.cons_append]
      exact List.forall_mem_append.2 ⟨hall, List.forall_mem_singleton.2 hk⟩
    · exact ⟨tr, (l, s₂), [], s₁, rfl, h, hb, List.forall_mem_singleton.2 hk⟩

/-- A property of the states of a trace holds throughout exactly when every step meets the
condition that is exact for one step. -/
theorem forall_post_iff {I P : σ → Prop} {C : σ → α → Prop} {s s' : σ} {tr : List (α × σ)}
    (h : Trace step s tr s') (hi0 : I s) (hi : ∀ s l s', I s → step s l s' → I s') (h0 : P s)
    (hs : ∀ s l s', I s → P s → step s l s' → (P s' ↔ C s l)) :
    (∀ p ∈ tr, P p.2) ↔ Trace (Guarded C step) s tr s' := by
  have key : (∀ p ∈ tr, P p.2) → P s' ∧ Trace (Guarded C step) s tr s' := by
    induction h with
    | nil => exact fun _ => ⟨h0, .nil s⟩
    | @snoc s₁ s₂ tr l h hst ih =>
      intro hall
      obtain ⟨hpre, hlast⟩ := List.forall_mem_append.1 hall
      obtain ⟨hp, ht⟩ := ih hpre
      have hp₂ : P s₂ := hlast (l, s₂) (List.mem_singleton_self _)
      exact ⟨hp₂, .snoc ht ⟨(hs _ _ _ (h.inv I hi0 hi) hp hst).1 hp₂, hst⟩⟩
  constructor
  · exact fun hall => (key hall).2
  · intro hg
    refine hg.forall_steps (fun s => I s ∧ P s) (Q := fun p => P p.2) ⟨hi0, h0⟩ ?_
    intro s l s' ⟨hI, hP⟩ ⟨hc, hst⟩
    have hp := (hs s l s' hI hP hst).2 hc
    exact ⟨⟨hi s l s' hI hst, hp⟩, hp⟩

/-- A property of the steps of a trace, where an invariant of the states makes it a condition on
the state before the step. -/
theorem forall_step_iff {I : σ → Prop} {Q : α × σ → Prop} {C : σ → α → Prop} {s s' : σ}
    {tr : List (α × σ)} (h : Trace step s tr s') (h0 : I s)
    (hi : ∀ s l s', I s → step s l s' → I s')
    (hs : ∀ s l s', I s → step s l s' → (Q (l, s') ↔ C s l)) :
    (∀ p ∈ tr, Q p) ↔ Trace (Guarded C step) s tr s' := by
  constructor
  · induction h with
    | nil => exact fun _ => .nil s
    | snoc h hst ih =>
      intro hall
      obtain ⟨hpre, hlast⟩ := List.forall_mem_append.1 hall
      have hq := hlast _ (List.mem_singleton_self _)
      exact .snoc (ih hpre) ⟨(hs _ _ _ (h.inv I h0 hi) hst).1 hq, hst⟩
  · intro hg
    refine hg.forall_steps I h0 ?_
    intro s l s' hI ⟨hc, hst⟩
    exact ⟨hi s l s' hI hst, (hs s l s' hI hst).2 hc⟩

/-- The same for a property of the labels. -/
theorem forall_label_iff {I : σ → Prop} {Q : α → Prop} {C : σ → α → Prop} {s s' : σ}
    {tr : List (α × σ)} (h : Trace step s tr s') (h0 : I s)
    (hi : ∀ s l s', I s → step s l s' → I s')
    (hs : ∀ s l s', I s → step s l s' → (Q l ↔ C s l)) :
    (∀ p ∈ tr, Q p.1) ↔ Trace (Guarded C step) s tr s' :=
  h.forall_step_iff (Q := fun p => Q p.1) h0 hi hs

end Trace

/-! ## Executable machines -/

section
variable {ι ω ε : Type _}

/-- The transition relation of a machine given as a function; a label is an input with its
output. -/
def StepOf (f : ι → σ → Except ε (ω × σ)) (s : σ) (l : ι × ω) (s' : σ) : Prop :=
  f l.1 s = .ok (l.2, s')

/-- Run a machine on a list of inputs. -/
def run (f : ι → σ → Except ε (ω × σ)) : σ → List ι → Except ε (List ((ι × ω) × σ) × σ)
  | s, [] => .ok ([], s)
  | s, i :: is =>
    match f i s with
    | .error e => .error e
    | .ok (o, s') =>
      match run f s' is with
      | .error e => .error e
      | .ok (tr, s'') => .ok (((i, o), s') :: tr, s'')

theorem run_cons {f : ι → σ → Except ε (ω × σ)} {i : ι} {is : List ι} {s s' s'' : σ} {o : ω}
    {tr : List ((ι × ω) × σ)} (h : f i s = .ok (o, s')) (hr : run f s' is = .ok (tr, s'')) :
    run f s (i :: is) = .ok (((i, o), s') :: tr, s'') := by
  simp only [run, h, hr]

/-- A run that goes through begins with a step that does. -/
theorem of_run_cons {f : ι → σ → Except ε (ω × σ)} {i : ι} {is : List ι} {s s'' : σ}
    {tr : List ((ι × ω) × σ)} (h : run f s (i :: is) = .ok (tr, s'')) : ∃ o s' tr',
      f i s = .ok (o, s') ∧ run f s' is = .ok (tr', s'') ∧ tr = ((i, o), s') :: tr' := by
  simp only [run] at h
  split at h
  · cases h
  · rename_i o s' hst
    split at h
    · cases h
    · rename_i tr' s₂ hr
      cases h
      exact ⟨o, s', tr', hst, hr, rfl⟩

theorem run_append {f : ι → σ → Except ε (ω × σ)} {is is' : List ι} {s s' s'' : σ}
    {tr tr' : List ((ι × ω) × σ)} (h : run f s is = .ok (tr, s'))
    (h' : run f s' is' = .ok (tr', s'')) : run f s (is ++ is') = .ok (tr ++ tr', s'') := by
  induction is generalizing s tr with
  | nil =>
    cases h
    exact h'
  | cons i is ih =>
    obtain ⟨o, s₁, tr₁, hst, hr, rfl⟩ := of_run_cons h
    exact run_cons hst (ih hr)

theorem trace_of_run {f : ι → σ → Except ε (ω × σ)} {is : List ι} {s s' : σ}
    {tr : List ((ι × ω) × σ)} (h : run f s is = .ok (tr, s')) : Trace (StepOf f) s tr s' := by
  induction is generalizing s tr with
  | nil =>
    cases h
    exact .nil _
  | cons i is ih =>
    obtain ⟨o, s₁, tr₁, hst, hr, rfl⟩ := of_run_cons h
    exact .cons hst (ih hr)

/-- A run consumes its inputs in order. -/
theorem inputs_of_run {f : ι → σ → Except ε (ω × σ)} {is : List ι} {s s' : σ}
    {tr : List ((ι × ω) × σ)} (h : run f s is = .ok (tr, s')) : tr.map (·.1.1) = is := by
  induction is generalizing s tr with
  | nil =>
    cases h
    rfl
  | cons i is ih =>
    obtain ⟨o, s₁, tr₁, hst, hr, rfl⟩ := of_run_cons h
    rw [List.map_cons, ih hr]

/-- A machine that goes on from every state of an invariant runs on every list of inputs. -/
theorem exists_run_of_inv {f : ι → σ → Except ε (ω × σ)} {Inv : σ → Prop}
    (hstep : ∀ i s, Inv s → ∃ o s', f i s = .ok (o, s') ∧ Inv s') {s : σ} (h : Inv s)
    (is : List ι) : ∃ tr s', run f s is = .ok (tr, s') ∧ Inv s' := by
  induction is generalizing s with
  | nil => exact ⟨[], s, rfl, h⟩
  | cons i is ih =>
    obtain ⟨o, s₁, hst, h₁⟩ := hstep i s h
    obtain ⟨tr, s', hr, h'⟩ := ih h₁
    exact ⟨_, s', run_cons hst hr, h'⟩

/-- A run that passes a test, found by evaluation. -/
theorem exists_run (f : ι → σ → Except ε (ω × σ)) (s : σ) (is : List ι)
    (p : List ((ι × ω) × σ) → σ → Bool)
    (h : (match run f s is with | .ok (tr, s') => p tr s' | .error _ => false) = true) :
    ∃ tr s', run f s is = .ok (tr, s') ∧ p tr s' = true := by
  split at h
  · rename_i tr s' hr
    exact ⟨tr, s', hr, h⟩
  · cases h

/-- A run whose trace and last state pass a test is a trace that does. -/
theorem exists_trace_of_run (f : ι → σ → Except ε (ω × σ)) (s : σ) (is : List ι)
    (p : List ((ι × ω) × σ) → σ → Bool)
    (h : (match run f s is with | .ok (tr, s') => p tr s' | .error _ => false) = true) :
    ∃ tr s', Trace (StepOf f) s tr s' ∧ p tr s' = true := by
  obtain ⟨tr, s', hr, hp⟩ := exists_run f s is p h
  exact ⟨tr, s', trace_of_run hr, hp⟩

/-- The machine that stops with `e` where a step does not meet the condition `C`. -/
def guard (C : σ → ι × ω → Prop) [∀ s l, Decidable (C s l)] (e : ε)
    (f : ι → σ → Except ε (ω × σ)) (i : ι) (s : σ) : Except ε (ω × σ) :=
  match f i s with
  | .error e => .error e
  | .ok (o, s') => if C s (i, o) then .ok (o, s') else .error e

theorem guarded_of_guard {C : σ → ι × ω → Prop} [∀ s l, Decidable (C s l)] {e : ε}
    {f : ι → σ → Except ε (ω × σ)} {s s' : σ} {l : ι × ω} (h : StepOf (guard C e f) s l s') :
    Guarded C (StepOf f) s l s' := by
  unfold StepOf guard at h
  split at h
  · cases h
  · rename_i o s₁ hf
    split at h
    · rename_i hc
      cases h
      exact ⟨hc, hf⟩
    · cases h

/-- A run that passes a test and whose steps meet the condition is a guarded trace that does. -/
theorem exists_guarded_of_run (C : σ → ι × ω → Prop) [∀ s l, Decidable (C s l)] (e : ε)
    (f : ι → σ → Except ε (ω × σ)) (s : σ) (is : List ι) (p : List ((ι × ω) × σ) → σ → Bool)
    (h : (match run (guard C e f) s is with | .ok (tr, s') => p tr s' | .error _ => false) = true) :
    ∃ tr s', Trace (Guarded C (StepOf f)) s tr s' ∧ p tr s' = true := by
  obtain ⟨tr, s', ht, hp⟩ := exists_trace_of_run (guard C e f) s is p h
  exact ⟨tr, s', ht.mono fun _ _ _ => guarded_of_guard, hp⟩

end

end Lib
