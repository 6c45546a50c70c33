import Mathlib.Algebra.BigOperators.Intervals
import Mathlib.Algebra.BigOperators.Ring.Finset
import Mathlib.Algebra.Field.GeomSum
import Mathlib.Tactic.LinearCombination
import Mathlib.Tactic.Ring

/-! The radix-two transform over a commutative ring: bit reversal, the
butterfly stages of a decimation in time, and inversion over a domain. -/

namespace Dft

def bitRev : ℕ → ℕ → ℕ
  | 0, _ => 0
  | k + 1, i => (i % 2) * 2 ^ k + bitRev k (i / 2)

theorem bitRev_lt (k i : ℕ) : bitRev k i < 2 ^ k := by
  induction k generalizing i with
  | zero => simp [bitRev]
  | succ k ih =>
    have hh := ih (i / 2)
    have hp : 2 ^ (k + 1) = 2 * 2 ^ k := pow_succ' 2 k
    rcases Nat.mod_two_eq_zero_or_one i with h | h <;> simp only [bitRev, h] <;> omega

@[simp] theorem bitRev_zero (k : ℕ) : bitRev k 0 = 0 := by
  induction k with
  | zero => rfl
  | succ k ih => simpa [bitRev] using ih

theorem bitRev_high (k b x : ℕ) (hx : x < 2 ^ k) (hb : b < 2) :
    bitRev (k + 1) (b * 2 ^ k + x) = 2 * bitRev k x + b := by
  induction k generalizing x with
  | zero =>
    have hx0 : x = 0 := by simpa using hx
    simp [bitRev, hx0, Nat.mod_eq_of_lt hb]
  | succ k ih =>
    have hp : 2 ^ (k + 1) = 2 * 2 ^ k := pow_succ' 2 k
    have hmul : b * 2 ^ (k + 1) = 2 * (b * 2 ^ k) := by rw [hp]; ring
    have hmod : (b * 2 ^ (k + 1) + x) % 2 = x % 2 := by omega
    have hdiv : (b * 2 ^ (k + 1) + x) / 2 = b * 2 ^ k + x / 2 := by omega
    rw [bitRev, hmod, hdiv, ih (x / 2) (by omega), bitRev, hp]
    ring

theorem bitRev_bitRev (k i : ℕ) (hi : i < 2 ^ k) : bitRev k (bitRev k i) = i := by
  induction k generalizing i with
  | zero => simp at hi; simp [hi]
  | succ k ih =>
    have hp : 2 ^ (k + 1) = 2 * 2 ^ k := pow_succ' 2 k
    conv_lhs => arg 2; rw [bitRev]
    rw [bitRev_high k _ _ (bitRev_lt k _) (Nat.mod_lt _ two_pos), ih (i / 2) (by omega)]
    omega

variable {R : Type*} [CommRing R]

/-- One butterfly stage with blocks of `2 * half` entries and root `w`. -/
def stage (half : ℕ) (w : R) (f : ℕ → R) (x : ℕ) : R :=
  if x % (2 * half) < half then f x + w ^ (x % (2 * half)) * f (x + half)
  else f (x - half) - w ^ (x % (2 * half) - half) * f x

/-- The stages of block sizes `2, 4, …, 2 ^ s` on bit-reversed input. -/
def stages (k : ℕ) (w : ℕ → R) (c : ℕ → R) : ℕ → ℕ → R
  | 0 => fun x => c (bitRev k x)
  | s + 1 => stage (2 ^ s) (w (s + 1)) (stages k w c s)

theorem sum_range_two_mul (n : ℕ) (g : ℕ → R) :
    ∑ t ∈ Finset.range (2 * n), g t = ∑ t ∈ Finset.range n, (g (2 * t) + g (2 * t + 1)) := by
  induction n with
  | zero => simp
  | succ n ih =>
    rw [Nat.mul_succ, Finset.sum_range_succ, Finset.sum_range_succ, ih, Finset.sum_range_succ,
      add_assoc]

/-- A transform of twice the size from the transforms of the even and the odd
entries; `r` and `p` agree up to the sign `e` of the half period. -/
theorem sum_even_odd {n r p : ℕ} {u v e : R} (g : ℕ → R) (hsq : u ^ 2 = v)
    (hv : v ^ r = v ^ p) (hu : u ^ r = e * u ^ p) :
    ∑ t ∈ Finset.range (2 * n), g t * u ^ (r * t) =
      (∑ t ∈ Finset.range n, g (2 * t) * v ^ (p * t)) +
        e * (u ^ p * ∑ t ∈ Finset.range n, g (2 * t + 1) * v ^ (p * t)) := by
  rw [sum_range_two_mul, Finset.mul_sum, Finset.mul_sum, ← Finset.sum_add_distrib]
  refine Finset.sum_congr rfl fun t _ => ?_
  have he : u ^ (r * (2 * t)) = v ^ (p * t) := by
    rw [show r * (2 * t) = 2 * (r * t) by ring, pow_mul, hsq, pow_mul, hv, ← pow_mul]
  have ho : u ^ (r * (2 * t + 1)) = v ^ (p * t) * (e * u ^ p) := by
    rw [show r * (2 * t + 1) = r * (2 * t) + r by ring, pow_add, he, hu]
  rw [he, ho]
  ring

theorem div_mod_of_eq {n y b r : ℕ} (hr : r < n) (hy : y = b * n + r) :
    y / n = b ∧ y % n = r := by
  have hh := (Nat.div_mod_unique (by omega : 0 < n)).mpr ⟨(by rw [hy]; ring : r + n * b = y), hr⟩
  exact hh

/-- After the stage of block size `2 ^ s` each block holds the transform of a
residue class of the input. -/
theorem stages_eq {k : ℕ} {w : ℕ → R} (c : ℕ → R)
    (hsq : ∀ s < k, w (s + 1) ^ 2 = w s) (hneg : ∀ s < k, w (s + 1) ^ 2 ^ s = -1)
    (s : ℕ) (hs : s ≤ k) (x : ℕ) :
    stages k w c s x = ∑ t ∈ Finset.range (2 ^ s),
      c (t * 2 ^ (k - s) + bitRev (k - s) (x / 2 ^ s)) * w s ^ ((x % 2 ^ s) * t) := by
  induction s generalizing x with
  | zero => simp [stages, Nat.mod_one]
  | succ s ih =>
    obtain ⟨m, hm⟩ : ∃ m, k - s = m + 1 := ⟨k - s - 1, by omega⟩
    have hm' : k - (s + 1) = m := by omega
    have hp : 2 ^ (s + 1) = 2 * 2 ^ s := pow_succ' 2 s
    have hper : w s ^ 2 ^ s = 1 := by
      rw [← hsq s (by omega), ← pow_mul, mul_comm, pow_mul, hneg s (by omega)]
      ring
    obtain ⟨b, r, hr, rfl⟩ : ∃ b r, r < 2 * 2 ^ s ∧ x = b * (2 * 2 ^ s) + r :=
      ⟨x / (2 * 2 ^ s), x % (2 * 2 ^ s), Nat.mod_lt _ (by have := Nat.two_pow_pos s; omega),
        (Nat.div_add_mod' _ _).symm⟩
    have hblock := div_mod_of_eq hr rfl (b := b)
    -- the two half-size blocks inside the block of `x`
    have hEven : ∀ t, c (t * 2 ^ (m + 1) + bitRev (m + 1) (2 * b)) =
        c (2 * t * 2 ^ m + bitRev m b) := by
      intro t
      rw [bitRev, Nat.mul_mod_right, Nat.mul_div_cancel_left _ two_pos, pow_succ]
      congr 1
      ring
    have hOdd : ∀ t, c (t * 2 ^ (m + 1) + bitRev (m + 1) (2 * b + 1)) =
        c ((2 * t + 1) * 2 ^ m + bitRev m b) := by
      intro t
      rw [bitRev, Nat.mul_add_mod, show (2 * b + 1) / 2 = b by omega, pow_succ]
      congr 1
      ring
    rw [stages, stage, hm', hp, hblock.1, hblock.2]
    split
    · next hlt =>
      have h0 := div_mod_of_eq (y := b * (2 * 2 ^ s) + r) hlt (b := 2 * b) (by ring)
      have h1 := div_mod_of_eq (y := b * (2 * 2 ^ s) + r + 2 ^ s) hlt (b := 2 * b + 1) (by ring)
      rw [ih (by omega), ih (by omega), h0.1, h0.2, h1.1, h1.2, hm,
        sum_even_odd (e := 1) _ (hsq s (by omega)) rfl (one_mul _).symm]
      simp only [hEven, hOdd, one_mul]
    · next hge =>
      obtain ⟨r', rfl⟩ : ∃ r', r = 2 ^ s + r' := ⟨r - 2 ^ s, by omega⟩
      have hlt : r' < 2 ^ s := by omega
      have h0 := div_mod_of_eq (y := b * (2 * 2 ^ s) + (2 ^ s + r') - 2 ^ s) hlt (b := 2 * b)
        (by rw [← add_assoc, add_right_comm, Nat.add_sub_cancel]; ring)
      have h1 := div_mod_of_eq (y := b * (2 * 2 ^ s) + (2 ^ s + r')) hlt (b := 2 * b + 1) (by ring)
      rw [ih (by omega), ih (by omega), h0.1, h0.2, h1.1, h1.2, hm,
        sum_even_odd (e := -1) (p := r') _ (hsq s (by omega))
          (by rw [pow_add, hper, one_mul]) (by rw [pow_add, hneg s (by omega)])]
      simp only [hEven, hOdd, Nat.add_sub_cancel_left]
      ring

theorem stages_dft {k : ℕ} {w : ℕ → R} (c : ℕ → R)
    (hsq : ∀ s < k, w (s + 1) ^ 2 = w s) (hneg : ∀ s < k, w (s + 1) ^ 2 ^ s = -1)
    (x : ℕ) (hx : x < 2 ^ k) :
    stages k w c k x = ∑ t ∈ Finset.range (2 ^ k), c t * w k ^ (x * t) := by
  rw [stages_eq c hsq hneg k le_rfl]
  refine Finset.sum_congr rfl fun t _ => ?_
  simp [bitRev, Nat.mod_eq_of_lt hx]

theorem sum_pow_eq_zero [IsDomain R] {z : R} {n : ℕ} (hz : z ^ n = 1) (hne : z ≠ 1) :
    ∑ t ∈ Finset.range n, z ^ t = 0 := by
  have hh := mul_geom_sum z n
  rw [hz, sub_self] at hh
  exact (mul_eq_zero.mp hh).resolve_left (sub_ne_zero.mpr hne)

theorem dft_inverse [IsDomain R] {n : ℕ} {w v : R} (hw : w ^ n = 1) (hwv : w * v = 1)
    (hinj : ∀ i < n, ∀ j < n, w ^ i = w ^ j → i = j) (y : ℕ → R) (j : ℕ) (hj : j < n) :
    ∑ t ∈ Finset.range n, (∑ i ∈ Finset.range n, y i * v ^ (t * i)) * w ^ (j * t) = n * y j := by
  have hone : ∀ i, w ^ i * v ^ i = 1 := fun i => by rw [← mul_pow, hwv, one_pow]
  have hswap : ∀ t, (∑ i ∈ Finset.range n, y i * v ^ (t * i)) * w ^ (j * t) =
      ∑ i ∈ Finset.range n, y i * (w ^ j * v ^ i) ^ t := by
    intro t
    rw [Finset.sum_mul]
    refine Finset.sum_congr rfl fun i _ => ?_
    rw [mul_pow, ← pow_mul, ← pow_mul, mul_comm t i]
    ring
  rw [Finset.sum_congr rfl fun t _ => hswap t, Finset.sum_comm,
    Finset.sum_eq_single_of_mem j (Finset.mem_range.mpr hj)]
  · simp [hone, mul_comm]
  · intro i hi hij
    have hne : w ^ j * v ^ i ≠ 1 := by
      intro h
      refine hij (hinj i (Finset.mem_range.mp hi) j hj ?_)
      have hh := congrArg (· * w ^ i) h
      simp only [one_mul] at hh
      rw [mul_assoc, mul_comm (v ^ i), hone, mul_one] at hh
      exact hh.symm
    have hpow : (w ^ j * v ^ i) ^ n = 1 := by
      have hv : v ^ n = 1 := by simpa [hw] using hone n
      rw [mul_pow, ← pow_mul, ← pow_mul, mul_comm j, mul_comm i, pow_mul, pow_mul, hw, hv]
      simp
    rw [← Finset.mul_sum, sum_pow_eq_zero hpow hne, mul_zero]

end Dft
