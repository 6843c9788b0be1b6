import IdmtRelay.Lib.FixedRoot
import IdmtRelay.Trip.Proof.Characteristic
import Mathlib.Data.Nat.Prime.Basic
import Mathlib.Data.Nat.Size

/-!
# Which root Exp computes

`Exp(base, exp)` takes one square root for every binary digit of `exp`, `k` of them, and so computes
the root of index `2 ^ k` and not that of index `exp`. It never exceeds the latter by more than the
rounding (`sub_pow_le`), but it can fall below: `Reaches` says when it does not by more than 8, with
the `k` roots turned into `k` squares. That is exact (`exp_approximates_iff`) although the computed
root can be the successor of the integer root: the few radicands below a square (`root_anomaly`) do
not matter. The root that the inverse curve takes is below for every overload current
(`inverse_below`).
-/

namespace Trip

open Lib Lib.FixedRoot Measure

/-! ## The specification -/

/-- `r` is the root of index `e` of `b`, up to 8, in Q16. -/
def Approximates (b e r : ℕ) : Prop :=
  ((r : ℤ) - 8) ^ e ≤ b * 65536 ^ (e - 1) ∧ (b : ℤ) * 65536 ^ (e - 1) ≤ ((r : ℤ) + 8) ^ e

/-- Some `q` that is at most 8 below the root of index `e` of `b` is taken to no more than `b` by as
many squares as `e` has binary digits. -/
def Reaches (b e : ℕ) : Prop :=
  ∃ q, b * 65536 ^ (e - 1) ≤ (q + 8) ^ e ∧ (squareUp 65536)^[e.size] q ≤ b

theorem exp_size {base : uint32_t} {e : uint8_t} (h : 2 ≤ base.toNat)
    (hle : base.toNat ≤ 2097152) (he : 1 ≤ e.toNat) :
    exp base e = .ok (BitVec.ofNat 32 (root^[e.toNat.size] base.toNat)) := by
  obtain ⟨n, hn⟩ := Nat.exists_eq_add_of_le' (Nat.size_pos.2 he)
  have hlo : 2 ^ n ≤ e.toNat := Nat.lt_size.1 (by omega)
  have hhi : e.toNat < 2 ^ (n + 1) := hn ▸ Nat.lt_size_self e.toNat
  have hroots := exp_roots hlo hhi h hle
  rw [BitVec.ofNat_toNat, BitVec.setWidth_eq] at hroots
  rw [hroots, hn]

/-! ## Bounds of the roots in a row -/

section
variable {b e k : ℕ}

/-- A root exceeds the exact one by less than 1. -/
theorem sub_sq_le (hlo : 65536 ≤ b) (hhi : b ≤ 2097152) :
    (root b - 8) ^ 2 ≤ (b - 8) * 65536 := by
  have hs := Nat.sqrt_le' (b * 65536)
  obtain ⟨-, hle⟩ := root_near (by omega) hhi
  obtain ⟨hone, -⟩ := root_bounds hlo hhi
  obtain ⟨y, hy⟩ := Nat.exists_eq_add_of_le hone
  have hsq : (65535 + y) ^ 2 ≤ b * 65536 :=
    (Nat.pow_le_pow_left (by omega) 2).trans hs
  rw [hy, show 65536 + y - 8 = 65528 + y by omega]
  have hb : (b - 8) * 65536 = b * 65536 - 524288 := by omega
  have hdiff : (65535 + y) ^ 2 = (65528 + y) ^ 2 + 14 * y + 917441 := by ring
  omega

/-- A root falls below the exact one by less than 1. -/
theorem le_add_sq (hlo : 65536 ≤ b) (hhi : b ≤ 2097152) :
    (b + 2) * 65536 ≤ (root b + 2) ^ 2 := by
  have hs := Nat.lt_succ_sqrt' (b * 65536)
  obtain ⟨hge, -⟩ := root_near (by omega) hhi
  obtain ⟨hone, -⟩ := root_bounds hlo hhi
  have hsq : b * 65536 < (root b + 1) ^ 2 :=
    hs.trans_le (Nat.pow_le_pow_left (Nat.succ_le_succ hge) 2)
  have hnext : (root b + 2) ^ 2 = (root b + 1) ^ 2 + 2 * root b + 3 := by ring
  omega

theorem range_root (b : ℕ) (h : 65536 ≤ b ∧ b ≤ 2097152) :
    65536 ≤ root b ∧ root b ≤ 2097152 := root_bounds h.1 h.2

/-- **The roots of `Exp` do not exceed the exact root** by more than 8, whatever the exponent. -/
theorem sub_pow_le (hlo : 65536 ≤ b) (hhi : b ≤ 2097152) (he : e ≤ 2 ^ k) :
    (root^[k] b - 8) ^ e * 65536 ≤ b * 65536 ^ e := by
  have hpow := iterate_pow_le (S := fun x => 65536 ≤ x ∧ x ≤ 2097152) (v := fun x => x - 8)
    (u := 65536) range_root (fun x hx => sub_sq_le hx.1 hx.2) ⟨hlo, hhi⟩ k
  exact pow_le_of_pow_le (by decide) hlo he
    (hpow.trans (Nat.mul_le_mul_right _ (Nat.sub_le b 8)))

/-- A result of 1.0 and one unit comes from a base so small that every root of at least half the
index is within 8 of 1.0. -/
theorem le_pow_of_roots (hlo : 65536 ≤ b) (hhi : b ≤ 2097152) (h : root^[k + 1] b = 65537)
    (he : 2 ^ k ≤ e) : b * 65536 ^ e ≤ (65536 + 8) ^ e * 65536 := by
  have hpow := le_iterate_pow (S := fun x => 65536 ≤ x ∧ x ≤ 2097152) (v := fun x => x + 2)
    (u := 65536) range_root (fun x hx => le_add_sq hx.1 hx.2) ⟨hlo, hhi⟩ (k + 1)
  simp only [h] at hpow
  refine le_pow_of_le_pow (by decide) he (Nat.le_of_mul_le_mul_right (c := 65536 ^ 2 ^ k) ?_
    (Nat.pow_pos (by decide)))
  calc b * 65536 ^ 2 ^ k * 65536 ^ 2 ^ k
    _ = b * 65536 ^ 2 ^ (k + 1) := by ring
    _ ≤ (b + 2) * 65536 ^ 2 ^ (k + 1) := Nat.mul_le_mul_right _ (Nat.le_add_right b 2)
    _ ≤ (65537 + 2) ^ 2 ^ (k + 1) * 65536 := hpow
    _ = ((65537 + 2) ^ 2) ^ 2 ^ k * 65536 := by rw [← Nat.pow_mul, ← Nat.pow_succ']
    _ ≤ ((65536 + 8) * 65536) ^ 2 ^ k * 65536 :=
      Nat.mul_le_mul_right _ (Nat.pow_le_pow_left (by decide) _)
    _ = (65536 + 8) ^ 2 ^ k * 65536 * 65536 ^ 2 ^ k := by rw [Nat.mul_pow]; ring


/-! ## The roots that are not integer roots -/

/-- A radicand one below a square. -/
theorem mod_of_sq {x t : ℕ} (h : x * 65536 + 1 = t ^ 2) :
    t % 32768 = 1 ∨ t % 32768 = 32767 := by
  have hodd : t % 2 = 1 := by
    rcases Nat.mod_two_eq_zero_or_one t with h0 | h1
    · obtain ⟨m, rfl⟩ : 2 ∣ t := Nat.dvd_of_mod_eq_zero h0
      have : (2 * m) ^ 2 = 2 * (2 * m ^ 2) := by ring
      omega
    · exact h1
  obtain ⟨m, rfl⟩ : ∃ m, t = 2 * m + 1 := ⟨t / 2, by omega⟩
  have hdvd : 2 ^ 14 ∣ m * (m + 1) := by
    have hsq : (2 * m + 1) ^ 2 = 4 * (m * (m + 1)) + 1 := by ring
    exact ⟨x, by omega⟩
  -- only one of two consecutive numbers is even
  rcases Nat.mod_two_eq_zero_or_one m with h0 | h1
  · have hcop : Nat.Coprime (2 ^ 14) (m + 1) :=
      Nat.Coprime.pow_left 14 ((Nat.coprime_two_left).2 (Nat.odd_iff.2 (by omega)))
    obtain ⟨n, rfl⟩ := hcop.dvd_of_dvd_mul_right hdvd
    exact .inl (by omega)
  · have hcop : Nat.Coprime (2 ^ 14) m :=
      Nat.Coprime.pow_left 14 ((Nat.coprime_two_left).2 (Nat.odd_iff.2 h1))
    obtain ⟨n, hn⟩ := hcop.dvd_of_dvd_mul_left hdvd
    exact .inr (by omega)

/-- What is checked one by one: where the root `t` of `x` is not the integer root, `x` is no root
itself, and the roots in a row from `t` are more than 8 below every root of at most their index,
until they are the roots from `t - 1`. -/
theorem roots_below_squares : (List.range 9).all (fun j =>
    [32768 * (j + 3) - 1, 32768 * (j + 3) + 1].all fun t =>
      let x := (t * t - 1) / 65536
      !(root x == t) || Nat.blt 370728 x && root^[6] t == root^[6] (t - 1) &&
        (List.range 6).all fun k =>
          Nat.blt ((root^[k] t + 8) ^ (2 ^ (k + 1) - 1) * 65536) (x * 65536 ^ (2 ^ (k + 1) - 1))) =
    true := by
  decide +kernel

/-- The computed roots that are not the integer root. -/
theorem root_anomaly {x : ℕ} (hlo : 65536 ≤ x) (hhi : x ≤ 2097152) :
    root x = floorRoot 65536 x ∨ x = 65538 ∨
      370728 < x ∧ root x = floorRoot 65536 x + 1 ∧
        root^[6] (root x) = root^[6] (floorRoot 65536 x) ∧
        ∀ k < 6, (root^[k] (root x) + 8) ^ (2 ^ (k + 1) - 1) * 65536 <
          x * 65536 ^ (2 ^ (k + 1) - 1) := by
  rcases root_of_one_le hlo hhi with h | ⟨h, hsq⟩
  · exact .inl h
  · have hlt := sqrt_lt hhi
    have hfloor : floorRoot 65536 x = root x - 1 := by
      unfold floorRoot
      omega
    rw [← h] at hsq
    rw [hfloor]
    generalize ht : root x = t at *
    have hmod := mod_of_sq hsq
    by_cases hx : x = 65538
    · exact .inr (.inl hx)
    · have hge : 98303 ≤ t := by
        by_contra hle
        have hgt : 65536 < t := lt_of_pow_lt_pow_left₀ 2 (Nat.zero_le t) (by omega)
        obtain rfl : t = 65537 := by omega
        omega
      have hmem : t ∈ [32768 * ((t + 1) / 32768 - 3 + 3) - 1,
          32768 * ((t + 1) / 32768 - 3 + 3) + 1] := by
        simp only [List.mem_cons, List.not_mem_nil, or_false]
        omega
      have hx' : (t * t - 1) / 65536 = x := by
        rw [← sq, ← hsq]
        omega
      have hall := List.all_eq_true.1 roots_below_squares ((t + 1) / 32768 - 3)
        (List.mem_range.2 (by omega))
      have hchk := List.all_eq_true.1 hall t hmem
      simp only [hx', ht, beq_self_eq_true, Bool.not_true, Bool.false_or, Bool.and_eq_true,
        beq_iff_eq, List.all_eq_true, List.mem_range, Nat.blt_eq] at hchk
      obtain ⟨⟨hxgt, hsix⟩, hfar⟩ := hchk
      exact .inr (.inr ⟨hxgt, by omega, hsix, hfar⟩)

theorem root_65537 : root 65537 = 65536 := by decide

theorem root_65538 : root 65538 = 65537 := by decide

theorem floorRoot_one : floorRoot 65536 65536 = 65536 := Nat.sqrt_eq 65536

theorem floorRoot_65538 : floorRoot 65536 65538 = 65536 := (Nat.eq_sqrt.2 (by decide)).symm

/-- Where a root comes after another one, the only computed root that is not the integer root is
that of 65538. -/
theorem roots_small {x : ℕ} (hlo : 65536 ≤ x) (hhi : x ≤ 370728) (k : ℕ) :
    root^[k] x = (floorRoot 65536)^[k] x ∨
      root^[k] x = 65537 ∧ (floorRoot 65536)^[k] x = 65536 := by
  have hrange : ∀ k, 65536 ≤ root^[k] x ∧ root^[k] x ≤ 370728 := by
    intro k
    induction k with
    | zero => exact ⟨hlo, hhi⟩
    | succ k ih =>
      have hle : root^[k] x ≤ 2097152 := by omega
      have hroot := (root_near (by omega) hle).2
      have hlt := sqrt_lt hle
      rw [Function.iterate_succ_apply']
      exact ⟨(root_bounds ih.1 (by omega)).1, by omega⟩
  induction k with
  | zero =>
    rw [Function.iterate_zero_apply, Function.iterate_zero_apply]
    exact .inl rfl
  | succ k ih =>
    rw [Function.iterate_succ_apply', Function.iterate_succ_apply']
    obtain ⟨hk, hk'⟩ := hrange k
    rcases ih with h | ⟨h, hf⟩
    · rw [← h]
      rcases root_anomaly hk (by omega) with h' | h' | ⟨h', -⟩
      · exact .inl h'
      · rw [h']
        exact .inr ⟨root_65538, floorRoot_65538⟩
      · omega
    · rw [h, hf, root_65537, floorRoot_one]
      exact .inl rfl

/-- **The roots in a row are the integer roots**, but for a result of 65537 and for results that are
more than 8 below every root of at most their index. -/
theorem roots_floor (hlo : 65536 ≤ b) (hhi : b ≤ 2097152) (k : ℕ) :
    root^[k + 1] b = (floorRoot 65536)^[k + 1] b ∨ root^[k + 1] b = 65537 ∨
      (root^[k + 1] b + 8) ^ (2 ^ (k + 1) - 1) * 65536 < b * 65536 ^ (2 ^ (k + 1) - 1) := by
  have hlt := sqrt_lt hhi
  have hnear := (root_near (by omega) hhi).2
  have hone := (root_bounds hlo hhi).1
  rw [Function.iterate_succ_apply, Function.iterate_succ_apply]
  rcases root_anomaly hlo hhi with h | h | ⟨hgt, h, hsix, hfar⟩
  · rw [← h]
    rcases roots_small hone (by omega) k with h' | ⟨h', -⟩
    · exact .inl h'
    · exact .inr (.inl h')
  · rw [h, root_65538, floorRoot_65538]
    cases k with
    | zero => exact .inr (.inl rfl)
    | succ k =>
      rw [Function.iterate_succ_apply, root_65537, Function.iterate_fixed root_one,
        Function.iterate_fixed floorRoot_one]
      exact .inl rfl
  · rcases Nat.lt_or_ge k 6 with hk | hk
    · exact .inr (.inr (hfar k hk))
    · obtain ⟨j, rfl⟩ := Nat.exists_eq_add_of_le' hk
      have hfloor : 65536 ≤ floorRoot 65536 b := by
        unfold floorRoot
        rw [Nat.le_sqrt]
        omega
      have hsmall := roots_small (x := floorRoot 65536 b) hfloor
        (by unfold floorRoot; omega) (j + 6)
      rw [Function.iterate_add_apply root, hsix, ← Function.iterate_add_apply root]
      rcases hsmall with h' | ⟨h', -⟩
      · exact .inl h'
      · exact .inr (.inl h')

/-! ## When the root is the one the exponent asks for -/

theorem floor_le_roots (hlo : 65536 ≤ b) (hhi : b ≤ 2097152) :
    65536 ≤ (floorRoot 65536)^[k] b ∧ (floorRoot 65536)^[k] b ≤ root^[k] b := by
  induction k with
  | zero => exact ⟨hlo, Nat.le_refl b⟩
  | succ k ih =>
    rw [Function.iterate_succ_apply', Function.iterate_succ_apply']
    have hroots := (roots_bounds (n := k) hlo hhi).2
    refine ⟨?_, ?_⟩
    · exact floorRoot_one.ge.trans (floorRoot_mono ih.1)
    · exact (sqrt_le_root (by omega)).trans (root_mono ih.1 ih.2 hroots)

/-- The bounds of `Approximates` in ℕ. -/
theorem approximates_iff_nat {r : ℕ} (he : 1 ≤ e) (hr : 8 ≤ r) : Approximates b e r ↔
    (r - 8) ^ e * 65536 ≤ b * 65536 ^ e ∧ b * 65536 ^ e ≤ (r + 8) ^ e * 65536 := by
  obtain ⟨n, rfl⟩ := Nat.exists_eq_add_of_le' he
  have hcast : ((r : ℤ) - 8) = ((r - 8 : ℕ) : ℤ) := by omega
  unfold Approximates
  rw [hcast, Nat.add_sub_cancel, Nat.pow_succ 65536, ← Nat.mul_assoc,
    Nat.mul_le_mul_right_iff (by decide), Nat.mul_le_mul_right_iff (by decide)]
  norm_cast

/-- **When the roots in a row are a root of index `e`.** -/
theorem approximates_iff (hlo : 65536 ≤ b) (hhi : b ≤ 2097152) (he : 1 ≤ e) :
    Approximates b e (root^[e.size] b) ↔ Reaches b e := by
  obtain ⟨k, hk⟩ := Nat.exists_eq_add_of_le' (Nat.size_pos.2 he)
  have hlow : 2 ^ k ≤ e := Nat.lt_size.1 (by omega)
  have hup : e < 2 ^ (k + 1) := hk ▸ Nat.lt_size_self e
  have hr := (roots_bounds (n := e.size) hlo hhi).1
  have hexp : e ≤ 2 ^ (k + 1) - 1 := by omega
  have hmul : ∀ q, b * 65536 ^ (e - 1) ≤ (q + 8) ^ e ↔ b * 65536 ^ e ≤ (q + 8) ^ e * 65536 := by
    intro q
    obtain ⟨n, rfl⟩ := Nat.exists_eq_add_of_le' he
    rw [Nat.add_sub_cancel, Nat.pow_succ 65536, ← Nat.mul_assoc,
      Nat.mul_le_mul_right_iff (by decide)]
  unfold Reaches
  simp only [hmul, squareUp_iterate_le (u := 65536) (by decide)]
  rw [approximates_iff_nat he (by omega)]
  constructor
  · intro ⟨_, hle⟩
    rw [hk] at hle ⊢
    rcases roots_floor hlo hhi k with h | h | h
    · exact ⟨_, hle, h.le⟩
    · exact ⟨65536, le_pow_of_roots hlo hhi h hlow, (floor_le_roots hlo hhi).1⟩
    · -- a result that far below is also too far below for the index `e`
      rw [hk] at hr
      exact absurd (le_pow_of_le_pow (by omega) hexp hle) (Nat.not_le_of_lt h)
  · intro ⟨q, hq, hqf⟩
    refine ⟨sub_pow_le hlo hhi (hk ▸ hup.le), hq.trans ?_⟩
    have hqr := hqf.trans (floor_le_roots hlo hhi).2
    exact Nat.mul_le_mul_right _ (Nat.pow_le_pow_left (Nat.add_le_add_right hqr 8) e)

/-- **`Exp` computes the root its exponent asks for** exactly where the roots it takes, one for each
binary digit of the exponent, reach it. -/
theorem exp_approximates_iff (base : uint32_t) (e : uint8_t) (hlo : 65536 ≤ base.toNat)
    (hhi : base.toNat ≤ 2097152) (he : 1 ≤ e.toNat) :
    (∃ r, exp base e = .ok r ∧ Approximates base.toNat e.toNat r.toNat) ↔
      Reaches base.toNat e.toNat := by
  obtain ⟨h1, h2⟩ := roots_bounds (n := e.toNat.size) hlo hhi
  have hr : (BitVec.ofNat 32 (root^[e.toNat.size] base.toNat)).toNat =
      root^[e.toNat.size] base.toNat := Base.toNat_ofNat_of_lt (by omega)
  rw [← approximates_iff hlo hhi he, exp_size (by omega) hhi he]
  constructor
  · intro ⟨r, hok, h⟩
    cases hok
    rwa [hr] at h
  · intro h
    exact ⟨_, rfl, by rwa [hr]⟩

/-- Exponent 255 takes the root of index 256, close enough even for 32.0. -/
theorem exp_approximates_255 :
    ∃ r, exp 2097152#32 255#8 = .ok r ∧ Approximates 2097152 255 r.toNat :=
  (exp_approximates_iff 2097152#32 255#8 (by decide) (by decide) (by decide)).2
    ⟨66428, by decide +kernel, by decide +kernel⟩

/-- The lowest overload current on the inverse curve. -/
theorem exp_below : ∃ r, exp 67520#32 50#8 = .ok r ∧ ¬ Approximates 67520 50 r.toNat := by
  refine ⟨65565#32, by decide +kernel, fun h => ?_⟩
  have hle : (67520 : ℤ) * 65536 ^ 49 ≤ (65565 + 8) ^ 50 := h.2
  norm_num at hle

/-- A root of index 64 at most `d` below one of index 50. -/
theorem pow_le_of_near {q u d : ℕ} (hu : 0 < u) (hq : q ^ 64 * u ≤ b * u ^ 64)
    (hd : b * u ^ 49 ≤ (q + d) ^ 50) : q ^ 64 ≤ (q + d) ^ 50 * u ^ 14 := by
  refine Nat.le_of_mul_le_mul_right (c := u) (hq.trans ?_) hu
  calc b * u ^ 64 = b * u ^ 49 * u ^ 15 := by ring
    _ ≤ (q + d) ^ 50 * u ^ 15 := Nat.mul_le_mul_right _ hd
    _ = (q + d) ^ 50 * u ^ 14 * u := by ring

/-- The ratio of `q + d` and `q` shrinks as `q` grows, so only small `q` are so close. -/
theorem lt_of_pow_le {q a u d : ℕ} (hq : q ^ 64 ≤ (q + d) ^ 50 * u ^ 14)
    (ha : (a + d) ^ 50 * u ^ 14 < a ^ 64) : q < a := by
  by_contra hlt
  have hge : a ≤ q := Nat.le_of_not_lt hlt
  have hpos : 0 < q := by
    rcases Nat.eq_zero_or_pos q with rfl | h
    · obtain rfl : a = 0 := by omega
      simp at ha
    · exact h
  have hcross : (q + d) * a ≤ q * (a + d) := by
    rw [Nat.add_mul, Nat.mul_add, Nat.mul_comm q d]
    exact Nat.add_le_add_left (Nat.mul_le_mul_left d hge) _
  have hratio : ((q + d) * a) ^ 50 ≤ (q * (a + d)) ^ 50 := Nat.pow_le_pow_left hcross 50
  have hcontra := calc q ^ 64 * a ^ 50
    _ ≤ (q + d) ^ 50 * u ^ 14 * a ^ 50 := Nat.mul_le_mul_right _ hq
    _ = ((q + d) * a) ^ 50 * u ^ 14 := by rw [Nat.mul_pow, Nat.mul_right_comm]
    _ ≤ (q * (a + d)) ^ 50 * u ^ 14 := Nat.mul_le_mul_right _ hratio
    _ = q ^ 50 * ((a + d) ^ 50 * u ^ 14) := by rw [Nat.mul_pow, Nat.mul_assoc]
    _ < q ^ 50 * a ^ 64 := Nat.mul_lt_mul_of_pos_left ha (Nat.pow_pos hpos)
    _ = q ^ 50 * (a ^ 14 * a ^ 50) := by rw [← Nat.pow_add]
    _ ≤ q ^ 50 * (q ^ 14 * a ^ 50) :=
      Nat.mul_le_mul_left _ (Nat.mul_le_mul_right _ (Nat.pow_le_pow_left hge 14))
    _ = q ^ 64 * a ^ 50 := by rw [← Nat.mul_assoc, ← Nat.pow_add]
  exact absurd hcontra (Nat.lt_irrefl _)

/-- Only a small `b` has six roots in a row at most `d` below its root of index 50. -/
theorem lt_of_roots_near {q a c u d : ℕ} (hu : 0 < u) (hq : q ≤ (floorRoot u)^[6] b)
    (hd : b * u ^ 49 ≤ (q + d) ^ 50) (ha : (a + d) ^ 50 * u ^ 14 < a ^ 64)
    (hc : (a + d) ^ 50 < c * u ^ 49) : b < c := by
  have hfloor := iterate_pow_le (S := fun _ => True) (f := floorRoot u) (v := id)
    (fun _ _ => trivial) (fun x _ => Nat.sqrt_le' (x * u)) (x := b) trivial 6
  have hq64 : q ^ 64 * u ≤ b * u ^ 64 :=
    (Nat.mul_le_mul_right u (Nat.pow_le_pow_left hq 64)).trans hfloor
  have hlt : q < a := lt_of_pow_le (pow_le_of_near hu hq64 hd) ha
  have hpow : b * u ^ 49 < c * u ^ 49 :=
    (hd.trans (Nat.pow_le_pow_left (Nat.add_le_add_right hlt.le d) 50)).trans_lt hc
  exact Nat.lt_of_mul_lt_mul_right hpow

theorem not_reaches_50 (hlo : 67520 ≤ b) : ¬ Reaches b 50 := by
  intro ⟨q, hq, hsq⟩
  have hsize : Nat.size 50 = 6 := by decide
  rw [hsize, squareUp_iterate_le (by decide)] at hsq
  have hlt : b < 67520 := lt_of_roots_near (a := 65566) (by decide) hsq hq (by decide +kernel)
    (by decide +kernel)
  omega

/-- **The inverse curve takes too low a root for every overload current**: `Exp` falls more than 8
below the power 0.02 of the current. -/
theorem inverse_below {c : uint16_t} (hc : OVERLOAD < c) :
    (root^[6] (c.toNat * 32) + 8) ^ 50 * 65536 < c.toNat * 32 * 65536 ^ 50 := by
  obtain ⟨hlo, hhi⟩ := rms_range hc
  have hone := (roots_bounds (n := 6) (show 65536 ≤ c.toNat * 32 by omega) hhi).1
  have hnot := (approximates_iff (e := 50) (by omega) hhi (by decide)).not.2 (not_reaches_50 hlo)
  have hsize : Nat.size 50 = 6 := by decide
  rw [hsize, approximates_iff_nat (by decide) (by omega)] at hnot
  have hsub := sub_pow_le (k := 6) (e := 50) (show 65536 ≤ c.toNat * 32 by omega) hhi (by decide)
  exact Nat.lt_of_not_le fun hle => hnot ⟨hsub, hle⟩

end

end Trip
