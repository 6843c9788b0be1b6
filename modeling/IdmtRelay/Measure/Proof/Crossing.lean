import IdmtRelay.Lib.Machine
import IdmtRelay.Measure.Analog
import Mathlib.Tactic.Linarith

/-!
# What the detector counts as a zero crossing

`ZeroCrossDetector` keeps its reference sample at a crossing, so that it reports every further
reading on the other side too, and takes a reading of 0 for no reference at all. Its count is the
number of sign changes after every reading exactly where neither shows (`crossings_iff`): a sign
change is followed by a reading of 0 or the end (`Separated.after`), and there is none across
readings of 0 (`Separated.across`).
-/

namespace Measure

open Lib.Machine

/-! ## Crossings and sign changes -/

/-- `ZeroCrossDetector` is called after a reading. -/
def Analog.detect (x : int16_t) (a : Analog) : Bool × Analog :=
  { a with adcReading := x }.zeroCrossDetector

/-- How often it returns true. -/
def crossings (a : Analog) (xs : List int16_t) : Nat := (answers Analog.detect a xs).count true

/-- The two readings are on different sides. -/
def Opposite (x y : int16_t) : Prop := x.toInt * y.toInt < 0

instance (x y : int16_t) : Decidable (Opposite x y) := inferInstanceAs (Decidable (_ < _))

/-- The pairs of neighbours on different sides. -/
def changes : List int16_t → Nat
  | x :: y :: l => (if Opposite x y then 1 else 0) + changes (y :: l)
  | _ => 0

/-- The sign changes between consecutive readings other than 0. -/
def signChanges (xs : List int16_t) : Nat := changes (xs.filter (· ≠ 0#16))

/-- The latest reading other than 0. -/
def latest (xs : List int16_t) : Option int16_t := (xs.filter (· ≠ 0#16)).getLast?

/-- The readings that the detector counts as it should. -/
structure Separated (xs : List int16_t) : Prop where
  after : ∀ x y z, [x, y, z] <:+: xs → Opposite x y → z = 0#16
  across : ∀ x n y, x :: List.replicate (n + 1) 0#16 ++ [y] <:+: xs → ¬ Opposite x y

theorem opposite_zero (x : int16_t) : ¬ Opposite x 0#16 := by
  unfold Opposite
  simp

theorem zero_opposite (x : int16_t) : ¬ Opposite 0#16 x := by
  unfold Opposite
  simp

theorem opposite_iff (x y : int16_t) :
    Opposite x y ↔ 0 < x.toInt ∧ y.toInt < 0 ∨ x.toInt < 0 ∧ 0 < y.toInt := mul_neg_iff

/-- A sample other than 0 is opposite to exactly one of two opposite ones. -/
theorem opposite_iff_not {x y z : int16_t} (h : Opposite x y) (hz : z ≠ 0#16) :
    Opposite x z ↔ ¬ Opposite y z := by
  have hz : z.toInt ≠ 0 := fun h0 => hz (BitVec.eq_of_toInt_eq h0)
  rw [opposite_iff] at h ⊢
  rw [opposite_iff]
  omega

theorem changes_snoc (l : List int16_t) (x : int16_t) :
    changes (l ++ [x]) = changes l + if ∃ y ∈ l.getLast?, Opposite y x then 1 else 0 := by
  induction l with
  | nil => simp [changes]
  | cons y l ih =>
    cases l with
    | nil => simp [changes]
    | cons z l =>
      rw [List.cons_append, List.cons_append, changes, ← List.cons_append, ih, changes,
        List.getLast?_cons_cons]
      omega

theorem signChanges_snoc (xs : List int16_t) (x : int16_t) : signChanges (xs ++ [x]) =
    signChanges xs + if ∃ y ∈ latest xs, Opposite y x then 1 else 0 := by
  unfold signChanges latest
  rw [List.filter_append]
  by_cases hx : x = 0#16
  · subst hx
    simp [opposite_zero]
  · have hfilter : [x].filter (· ≠ 0#16) = [x] := by simp [hx]
    rw [hfilter, changes_snoc]

/-- **What the detector does**: at a crossing it keeps the reference sample. -/
theorem detect_eq (x : int16_t) (a : Analog) : a.detect x =
    if Opposite a.prevSample x then (true, { a with adcReading := x })
    else (false, { a with adcReading := x, prevSample := x }) := by
  unfold Analog.detect Analog.zeroCrossDetector
  by_cases h0 : a.prevSample = 0#16
  · rw [if_pos h0, h0, if_neg (zero_opposite x)]
  · rw [if_neg h0]
    rfl

theorem crossings_snoc (a : Analog) (xs : List int16_t) (x : int16_t) :
    crossings a (xs ++ [x]) =
      crossings a xs + if Opposite (final Analog.detect a xs).prevSample x then 1 else 0 := by
  unfold crossings
  rw [answers_snoc, List.count_append, detect_eq]
  split <;> rfl

theorem prevSample_snoc (a : Analog) (xs : List int16_t) (x : int16_t) :
    (final Analog.detect a (xs ++ [x])).prevSample =
      if Opposite (final Analog.detect a xs).prevSample x then
        (final Analog.detect a xs).prevSample else x := by
  rw [final_snoc, detect_eq]
  split <;> rfl

/-! ## One reading -/

/-- The reference sample after readings that the detector counts as it should. -/
inductive Tracks : List int16_t → int16_t → Prop
  | quiet (n : Nat) : Tracks (List.replicate n 0#16) 0#16
  | same (xs : List int16_t) (x : int16_t) (h : x ≠ 0#16)
      (hne : ∀ y ∈ xs.getLast?, ¬ Opposite y x) : Tracks (xs ++ [x]) x
  | crossed (xs : List int16_t) (x y : int16_t) (h : Opposite x y) : Tracks (xs ++ [x, y]) x
  | zero (xs : List int16_t) (x : int16_t) (h : x ≠ 0#16) (n : Nat) :
      Tracks (xs ++ x :: List.replicate (n + 1) 0#16) 0#16

/-- What the next reading has to be. -/
def Fits (xs : List int16_t) (z : int16_t) : Prop :=
  (∀ x y, [x, y] <:+ xs → Opposite x y → z = 0#16) ∧
    ∀ x n, x :: List.replicate (n + 1) 0#16 <:+ xs → ¬ Opposite x z

theorem snoc_suffix_iff {l xs : List int16_t} {w z : int16_t} :
    l ++ [w] <:+ xs ++ [z] ↔ l <:+ xs ∧ w = z := by
  rw [List.suffix_concat_iff]
  constructor
  · rintro (h | ⟨t, h, ht⟩)
    · simp at h
    · obtain ⟨rfl, hw⟩ := List.append_inj' h rfl
      exact ⟨ht, List.singleton_inj.1 hw⟩
  · rintro ⟨h, rfl⟩
    exact .inr ⟨l, rfl, h⟩

theorem separated_nil : Separated [] :=
  ⟨fun _ _ _ h => by simp at h, fun _ _ _ h => by simp at h⟩

theorem separated_snoc (xs : List int16_t) (z : int16_t) :
    Separated (xs ++ [z]) ↔ Separated xs ∧ Fits xs z := by
  constructor
  · intro ⟨h1, h2⟩
    have hin : ∀ l : List int16_t, l <:+: xs → l <:+: xs ++ [z] :=
      fun l h => List.infix_concat_iff.2 (.inr h)
    refine ⟨⟨fun x y w h => h1 x y w (hin _ h), fun x n y h => h2 x n y (hin _ h)⟩, ?_, ?_⟩
    · intro x y h
      exact h1 x y z ((snoc_suffix_iff (l := [x, y])).2 ⟨h, rfl⟩).isInfix
    · intro x n h
      exact h2 x n z (snoc_suffix_iff.2 ⟨h, rfl⟩).isInfix
  · intro ⟨⟨h1, h2⟩, hf1, hf2⟩
    refine ⟨fun x y w h => ?_, fun x n y h => ?_⟩
    · rcases List.infix_concat_iff.1 h with h | h
      · obtain ⟨hs, rfl⟩ := (snoc_suffix_iff (l := [x, y])).1 h
        exact hf1 x y hs
      · exact h1 x y w h
    · rcases List.infix_concat_iff.1 h with h | h
      · obtain ⟨hs, rfl⟩ := snoc_suffix_iff.1 h
        exact hf2 x n hs
      · exact h2 x n y h

theorem latest_zeros {x : int16_t} (h : x ≠ 0#16) (xs : List int16_t) (n : Nat) :
    latest (xs ++ x :: List.replicate n 0#16) = some x := by
  have hzero : (List.replicate n 0#16).filter (· ≠ (0#16 : int16_t)) = [] := by simp
  unfold latest
  rw [List.filter_append, List.filter_cons_of_pos (by simpa using h), hzero,
    List.getLast?_append_of_ne_nil _ (List.cons_ne_nil _ _)]
  rfl

theorem Opposite.ne_zero {x y : int16_t} (h : Opposite x y) : x ≠ 0#16 ∧ y ≠ 0#16 := by
  refine ⟨?_, ?_⟩
  · rintro rfl
    exact zero_opposite y h
  · rintro rfl
    exact opposite_zero x h

/-- A suffix of two readings ends in the last two. -/
theorem pair_suffix {xs : List int16_t} {x y z : int16_t} (h : [x, y] <:+ xs ++ [z]) :
    x ∈ xs.getLast? ∧ y = z := by
  obtain ⟨⟨t, rfl⟩, rfl⟩ := (snoc_suffix_iff (l := [x])).1 h
  simp

theorem fits_of_opposite {xs : List int16_t} {z : int16_t}
    (h1 : ∀ x y, [x, y] <:+ xs → ¬ Opposite x y)
    (h2 : ∀ x n, x ≠ 0#16 → x :: List.replicate (n + 1) 0#16 <:+ xs → ¬ Opposite x z) :
    Fits xs z :=
  ⟨fun x y h ho => absurd ho (h1 x y h), fun x n h ho => h2 x n ho.ne_zero.1 h ho⟩

/-- **One reading**: the detector answers as it should exactly if the reading fits. -/
theorem Tracks.fits_iff {xs : List int16_t} {p : int16_t} (h : Tracks xs p) (z : int16_t) :
    (Opposite p z ↔ ∃ y ∈ latest xs, Opposite y z) ↔ Fits xs z := by
  cases h with
  | quiet n =>
    have hlatest : latest (List.replicate n 0#16) = none := by simp [latest]
    refine iff_of_true ?_ (fits_of_opposite ?_ ?_)
    · simp [hlatest, zero_opposite]
    · intro x y h
      have hx : x = 0#16 := List.eq_of_mem_replicate (h.subset (by simp))
      exact hx ▸ zero_opposite y
    · intro x m hx h
      exact absurd (List.eq_of_mem_replicate (h.subset (by simp))) hx
  | same xs _ hp hne =>
    have hlatest : latest (xs ++ [p]) = some p := latest_zeros hp xs 0
    refine iff_of_true ?_ (fits_of_opposite ?_ ?_)
    · simp [hlatest]
    · intro y w h
      obtain ⟨hy, rfl⟩ := pair_suffix h
      exact hne y hy
    · intro y m hy h
      rw [List.replicate_succ', ← List.cons_append] at h
      exact absurd (snoc_suffix_iff.1 h).2.symm hp
  | crossed xs _ y ho =>
    have hlatest : latest (xs ++ [p, y]) = some y := by
      have hl := latest_zeros ho.ne_zero.2 (xs ++ [p]) 0
      rwa [List.append_assoc] at hl
    simp only [hlatest, Option.mem_some_iff, exists_eq_left']
    by_cases hz : z = 0#16
    · subst hz
      exact iff_of_true (iff_of_false (opposite_zero p) (opposite_zero y))
        ⟨fun _ _ _ _ => rfl, fun _ _ _ => opposite_zero _⟩
    · refine iff_of_false ?_ fun hf => hz (hf.1 p y (List.suffix_append xs [p, y]) ho)
      rw [opposite_iff_not ho hz]
      exact not_iff_self
  | zero xs x hx n =>
    rw [latest_zeros hx]
    simp only [Option.mem_some_iff, exists_eq_left', zero_opposite, false_iff]
    constructor
    · intro ho
      refine fits_of_opposite ?_ ?_
      · intro y w h
        rw [List.replicate_succ', ← List.cons_append, ← List.append_assoc] at h
        obtain ⟨-, rfl⟩ := pair_suffix h
        exact opposite_zero y
      · intro y m hy ⟨t, ht⟩
        have hl := latest_zeros hy t (m + 1)
        rw [ht, latest_zeros hx] at hl
        cases hl
        exact ho
    · intro hf
      exact hf.2 x n (List.suffix_append xs _)

/-- The reference sample after a reading that fits. -/
theorem Tracks.snoc {xs : List int16_t} {p z : int16_t} (h : Tracks xs p) (hf : Fits xs z) :
    Tracks (xs ++ [z]) (if Opposite p z then p else z) := by
  cases h with
  | quiet n =>
    rw [if_neg (zero_opposite z)]
    by_cases hz : z = 0#16
    · subst hz
      rw [← List.replicate_succ']
      exact .quiet (n + 1)
    · apply Tracks.same _ z hz
      intro y hy
      rw [List.eq_of_mem_replicate (List.mem_of_mem_getLast? hy)]
      exact zero_opposite z
  | same xs _ hp hne =>
    by_cases ho : Opposite p z
    · rw [if_pos ho, List.append_assoc]
      exact .crossed xs p z ho
    · rw [if_neg ho]
      by_cases hz : z = 0#16
      · subst hz
        rw [List.append_assoc]
        exact .zero xs p hp 0
      · apply Tracks.same _ z hz
        intro y hy
        obtain rfl : p = y := by simpa using hy
        exact ho
  | crossed xs _ y ho =>
    obtain rfl : z = 0#16 := hf.1 p y (List.suffix_append xs [p, y]) ho
    have hzero := Tracks.zero (xs ++ [p]) y ho.ne_zero.2 0
    rw [if_neg (opposite_zero p), List.append_assoc]
    rwa [List.append_assoc] at hzero
  | zero xs x hx n =>
    rw [if_neg (zero_opposite z)]
    by_cases hz : z = 0#16
    · subst hz
      rw [List.append_assoc, List.cons_append, ← List.replicate_succ']
      exact .zero xs x hx (n + 1)
    · apply Tracks.same _ z hz
      intro y hy
      rw [List.replicate_succ', ← List.cons_append, ← List.append_assoc, List.getLast?_concat] at hy
      cases hy
      exact zero_opposite z

/-! ## All readings -/

theorem tracks_of_separated {a : Analog} (ha : a.prevSample = 0#16) {xs : List int16_t}
    (h : Separated xs) : Tracks xs (final Analog.detect a xs).prevSample := by
  induction xs using List.reverseRecOn with
  | nil =>
    rw [final_nil, ha]
    exact .quiet 0
  | append_singleton xs z ih =>
    obtain ⟨hs, hf⟩ := (separated_snoc xs z).1 h
    rw [prevSample_snoc]
    exact (ih hs).snoc hf

/-- **Zero crossings are counted once each**, after every reading, exactly if a sign change is
followed by a reading of 0 or the end and there is none across readings of 0. -/
theorem crossings_iff (a : Analog) (ha : a.prevSample = 0#16) (xs : List int16_t) :
    (∀ ys, ys <+: xs → crossings a ys = signChanges ys) ↔ Separated xs := by
  induction xs using List.reverseRecOn with
  | nil =>
    refine iff_of_true (fun ys h => ?_) separated_nil
    rw [List.prefix_nil.1 h]
    rfl
  | append_singleton xs z ih =>
    have hcount : (∀ ys, ys <+: xs ++ [z] → crossings a ys = signChanges ys) ↔
        (∀ ys, ys <+: xs → crossings a ys = signChanges ys) ∧
          crossings a (xs ++ [z]) = signChanges (xs ++ [z]) := by
      simp only [List.prefix_concat_iff, or_imp, forall_and, forall_eq, and_comm]
    rw [hcount, ih, separated_snoc]
    apply and_congr_right
    intro hs
    have heq : crossings a xs = signChanges xs := ih.2 hs xs (List.prefix_refl xs)
    rw [← (tracks_of_separated ha hs).fits_iff, crossings_snoc, signChanges_snoc, heq,
      Nat.add_left_cancel_iff]
    split <;> split <;> simp_all

theorem fits_short {xs : List int16_t} (h : xs.length ≤ 1) (z : int16_t) : Fits xs z := by
  refine ⟨fun x y hs => ?_, fun x n hs => ?_⟩
  · have := hs.length_le
    simp only [List.length_cons, List.length_nil] at this
    omega
  · have := hs.length_le
    simp only [List.length_cons, List.length_replicate] at this
    omega

theorem fits_zero (xs : List int16_t) : Fits xs 0#16 :=
  ⟨fun _ _ _ _ => rfl, fun x _ _ => opposite_zero x⟩

/-- A crossing, and then a reading of 0. -/
theorem crossings_iff_zero :
    crossings .init [5#16, -5#16, 0#16] = signChanges [5#16, -5#16, 0#16] := by
  have h1 : Separated [5#16] := (separated_snoc [] 5#16).2
    ⟨separated_nil, fits_short (by decide) _⟩
  have h2 : Separated [5#16, -5#16] := (separated_snoc [5#16] (-5#16)).2
    ⟨h1, fits_short (by decide) _⟩
  exact (crossings_iff .init rfl [5#16, -5#16, 0#16]).2
    ((separated_snoc [5#16, -5#16] 0#16).2 ⟨h2, fits_zero _⟩) _ (List.prefix_refl _)

/-- One sign change, counted twice. -/
theorem crossings_twice : crossings .init [5#16, -5#16, -5#16] = 2 ∧
    signChanges [5#16, -5#16, -5#16] = 1 := by
  decide

end Measure
