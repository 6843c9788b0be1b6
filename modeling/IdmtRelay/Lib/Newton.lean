import Mathlib.Data.Nat.Sqrt
import Mathlib.Tactic.Linarith
import Mathlib.Tactic.Ring

/-!
# The integer Newton iteration for square roots

`step N r` averages `r` and `N / r`, both divisions rounded down. Whatever `r` was, the result is
never below `⌊√N⌋` (`sqrt_le_step`, the integer form of the inequality of the two means); from a
value not below `⌊√N⌋` it never exceeds the larger of that value and `⌊√N⌋ + 1` (`step_le`). The
bounds of `iter N n r`, `n` steps from `r`, follow by induction.

The excess over `⌊√N⌋ + 1` shrinks quadratically (`step_within`), so after few steps only `⌊√N⌋` and
its successor are left (`iter_le_succ`), and `step_of_near` says which of them a further step gives.
-/

namespace Lib.Newton

/-- One step of the iteration. -/
def step (N r : Nat) : Nat := (N / r + r) / 2

/-- `n` steps from `r`. -/
def iter (N : Nat) : Nat → Nat → Nat
  | 0, r => r
  | n + 1, r => iter N n (step N r)

@[simp] theorem iter_zero (N r : Nat) : iter N 0 r = r := rfl

@[simp] theorem iter_succ (N n r : Nat) : iter N (n + 1) r = iter N n (step N r) := rfl

theorem iter_succ' (N n r : Nat) : iter N (n + 1) r = step N (iter N n r) := by
  induction n generalizing r with
  | zero => rfl
  | succ n ih => exact ih (step N r)

/-- **The step never falls below the root.** -/
theorem sqrt_le_step {N r : Nat} (hr : 0 < r) : N.sqrt ≤ step N r := by
  have key : 2 * N.sqrt ≤ N / r + r := by
    rcases Nat.le_total (2 * N.sqrt) r with h | h
    · exact h.trans (Nat.le_add_left _ _)
    · obtain ⟨d, hd⟩ := Nat.exists_eq_add_of_le h
      have hdr : d * r ≤ N := by
        have hs := Nat.sqrt_le' N
        nlinarith [sq_nonneg ((N.sqrt : ℤ) - r), sq_nonneg ((d : ℤ) - r)]
      have := (Nat.le_div_iff_mul_le hr).2 hdr
      omega
  unfold step
  omega

theorem div_le_sqrt_add_two {N r : Nat} (hr : 0 < r) (h : N.sqrt ≤ r) : N / r ≤ N.sqrt + 2 := by
  rw [Nat.div_le_iff_le_mul_add_pred hr]
  have hs := Nat.lt_succ_sqrt N
  nlinarith

/-- **Above the root the step exceeds neither its start nor the root's successor.** -/
theorem step_le {N r : Nat} (hr : 0 < r) (h : N.sqrt ≤ r) : step N r ≤ max r (N.sqrt + 1) := by
  have := div_le_sqrt_add_two hr h
  unfold step
  omega

theorem sqrt_le_iter {N n r : Nat} (hN : 0 < N) (h : N.sqrt ≤ r) : N.sqrt ≤ iter N n r := by
  induction n generalizing r with
  | zero => exact h
  | succ n ih => exact ih (sqrt_le_step (Nat.lt_of_lt_of_le (Nat.sqrt_pos.2 hN) h))

theorem iter_le {N n r : Nat} (hN : 0 < N) (h : N.sqrt ≤ r) :
    iter N n r ≤ max r (N.sqrt + 1) := by
  induction n generalizing r with
  | zero => exact Nat.le_max_left _ _
  | succ n ih =>
    have hr := Nat.lt_of_lt_of_le (Nat.sqrt_pos.2 hN) h
    have h1 := step_le hr h
    have h2 := ih (sqrt_le_step hr)
    rw [iter_succ]
    omega

/-! ## Convergence -/

/-- What a step makes of the precision `k` in `step_within`. -/
def gain (k : Nat) : Nat := k * (k + 2)

/-- **The convergence is quadratic**: a value that exceeds the root's successor by at most 2 parts
in `k` of it is taken to one that exceeds it by at most 2 parts in `k * (k + 2)`. -/
theorem step_within {N k r : Nat} (hr : 0 < r) (h : N.sqrt ≤ r)
    (hk : k * (r - (N.sqrt + 1)) ≤ 2 * (N.sqrt + 1)) :
    gain k * (step N r - (N.sqrt + 1)) ≤ 2 * (N.sqrt + 1) := by
  have hle := step_le hr h
  have hN := Nat.lt_succ_sqrt' N
  generalize hs : N.sqrt + 1 = t at hk hle ⊢
  have hN : N < t ^ 2 := hs ▸ hN
  rcases Nat.le_total r t with hrt | hrt
  · rw [Nat.sub_eq_zero_of_le (by omega)]
    exact Nat.zero_le _
  · obtain ⟨d, rfl⟩ := Nat.exists_eq_add_of_le hrt
    rw [Nat.add_sub_cancel_left] at hk
    -- the arithmetic mean exceeds the geometric one by the square of the distance over `2 * r`
    have hmean : 2 * (t + d) * (step N (t + d) - t) ≤ d * d := by
      have hdiv := Nat.div_mul_le_self N (t + d)
      have hstep : 2 * step N (t + d) ≤ N / (t + d) + (t + d) := by
        unfold step
        omega
      rcases Nat.le_total (step N (t + d)) t with hx | hx
      · rw [Nat.sub_eq_zero_of_le hx]
        exact Nat.zero_le _
      · obtain ⟨x, hx⟩ := Nat.exists_eq_add_of_le hx
        rw [hx, Nat.add_sub_cancel_left]
        rw [hx] at hstep
        nlinarith
    generalize step N (t + d) - t = x at hmean ⊢
    have hgain : gain k * (d * d) ≤ 2 * t * (2 * (t + d)) := calc
      gain k * (d * d) = k * d * (k * d + 2 * d) := by unfold gain; ring
      _ ≤ 2 * t * (2 * t + 2 * d) := Nat.mul_le_mul hk (by omega)
      _ = 2 * t * (2 * (t + d)) := by ring
    have key : gain k * x * (2 * (t + d)) ≤ 2 * t * (2 * (t + d)) := calc
      gain k * x * (2 * (t + d)) = gain k * (2 * (t + d) * x) := by ring
      _ ≤ gain k * (d * d) := Nat.mul_le_mul_left _ hmean
      _ ≤ 2 * t * (2 * (t + d)) := hgain
    exact Nat.le_of_mul_le_mul_right key (by omega)

theorem iter_within {N n k r : Nat} (hN : 0 < N) (h : N.sqrt ≤ r)
    (hk : k * (r - (N.sqrt + 1)) ≤ 2 * (N.sqrt + 1)) :
    gain^[n] k * (iter N n r - (N.sqrt + 1)) ≤ 2 * (N.sqrt + 1) := by
  induction n generalizing k r with
  | zero => exact hk
  | succ n ih =>
    have hr := Nat.lt_of_lt_of_le (Nat.sqrt_pos.2 hN) h
    exact ih (sqrt_le_step hr) (step_within hr h hk)

/-- Once the precision exceeds the root, only the root and its successor are left. -/
theorem iter_le_succ {N n k r : Nat} (hN : 0 < N) (h : N.sqrt ≤ r)
    (hk : k * (r - (N.sqrt + 1)) ≤ 2 * (N.sqrt + 1)) (hlt : 2 * (N.sqrt + 1) < gain^[n] k) :
    iter N n r ≤ N.sqrt + 1 := by
  by_contra hgt
  have hw := iter_within (n := n) hN h hk
  have hone : 1 ≤ iter N n r - (N.sqrt + 1) := by omega
  have := Nat.mul_le_mul_left (gain^[n] k) hone
  omega

/-- **Where the iteration ends**: from the root or its successor a step gives the root, except that
below a square the root and its successor alternate. -/
theorem step_of_near {N r : Nat} (hr : 0 < r) (h : N.sqrt ≤ r) (hle : r ≤ N.sqrt + 1) :
    step N r = N.sqrt ∨ step N r = N.sqrt + 1 ∧ N + 1 = (N.sqrt + 1) ^ 2 := by
  have hhi : N < (N.sqrt + 1) ^ 2 := Nat.lt_succ_sqrt' N
  have hlo := sqrt_le_step (N := N) hr
  have hup := step_le hr h
  rcases Nat.lt_or_ge N.sqrt (step N r) with hlt | hge
  · have hstep : step N r = N.sqrt + 1 := by omega
    have hdiv := Nat.div_mul_le_self N r
    have hq : 2 * (N.sqrt + 1) ≤ N / r + r := by
      unfold step at hstep
      omega
    refine .inr ⟨hstep, ?_⟩
    generalize N.sqrt = s at *
    -- the quotient exceeds the root, which leaves only the number below the next square
    have hN : (s + 1) ^ 2 ≤ N + 1 := by
      rcases Nat.eq_or_lt_of_le h with rfl | hsr
      · have := Nat.mul_le_mul_right s (show s + 2 ≤ N / s by omega)
        nlinarith
      · obtain rfl : r = s + 1 := by omega
        have := Nat.mul_le_mul_right (s + 1) (show s + 1 ≤ N / (s + 1) by omega)
        nlinarith
    omega
  · exact .inl (by omega)

end Lib.Newton
