import RfClassGroups.Ntt
import Mathlib.Data.Nat.Bitwise

/-! The bit-reversal loop and the butterfly loops of the transform. -/

open CoeffList ExceptList Loops

namespace RfClassGroups

theorem xor_two_pow_of_lt {k j : ℕ} (hj : j < 2 ^ k) : j ^^^ 2 ^ k = j + 2 ^ k := by
  refine Nat.eq_of_testBit_eq fun i => ?_
  have hor := Nat.two_pow_add_eq_or_of_lt hj 1
  rw [mul_one] at hor
  rw [add_comm, hor, Nat.testBit_or, Nat.testBit_xor, Nat.testBit_two_pow]
  by_cases hi : k = i
  · subst hi
    simp [Nat.testBit_lt_two_pow hj]
  · simp [hi]

theorem and_two_pow_of_lt {k j : ℕ} (hj : j < 2 ^ k) : j &&& 2 ^ k = 0 := by
  rw [Nat.and_comm, Nat.two_pow_and, Nat.testBit_lt_two_pow hj]
  rfl

theorem and_two_pow_of_ge {k j : ℕ} (hj : j < 2 ^ k) : (j + 2 ^ k) &&& 2 ^ k ≠ 0 := by
  rw [Nat.and_comm, Nat.two_pow_and, Nat.add_comm, Nat.testBit_two_pow_add_eq,
    Nat.testBit_lt_two_pow hj]
  simp

/-- The carry from the top bit downwards counts in reversed binary. -/
theorem bitReverseCarry_bitRev (k i : ℕ) :
    bitReverseCarry (Dft.bitRev k i) (2 ^ k >>> 1) = Dft.bitRev k (i + 1) := by
  induction k generalizing i with
  | zero => rw [bitReverseCarry]; simp [Dft.bitRev]
  | succ k ih =>
    have hlt := Dft.bitRev_lt k (i / 2)
    have hbit : 2 ^ (k + 1) >>> 1 = 2 ^ k := by
      rw [Nat.shiftRight_one, pow_succ, Nat.mul_div_cancel _ two_pos]
    rw [hbit, bitReverseCarry, Dft.bitRev, Dft.bitRev]
    rcases Nat.mod_two_eq_zero_or_one i with h | h
    · have hnext : (i + 1) % 2 = 1 ∧ (i + 1) / 2 = i / 2 := by omega
      rw [h, hnext.1, hnext.2, zero_mul, zero_add, dif_neg (not_not.mpr (and_two_pow_of_lt hlt)),
        xor_two_pow_of_lt hlt, one_mul, add_comm]
    · have hnext : (i + 1) % 2 = 0 ∧ (i + 1) / 2 = i / 2 + 1 := by omega
      have hxor : (Dft.bitRev k (i / 2) + 2 ^ k) ^^^ 2 ^ k = Dft.bitRev k (i / 2) := by
        rw [← xor_two_pow_of_lt hlt, Nat.xor_assoc, Nat.xor_self, Nat.xor_zero]
      rw [h, hnext.1, hnext.2, one_mul, zero_mul, zero_add, add_comm,
        dif_pos (and_two_pow_of_ge hlt), hxor, ih]

theorem length_swapAt (a : List Mpz) (i j : ℕ) : (swapAt a i j).length = a.length := by
  simp [swapAt]

theorem getD_swapAt {a : List Mpz} {i j : ℕ} (hi : i < a.length) (hj : j < a.length) (x : ℕ) :
    (swapAt a i j).getD x 0 =
      if x = i then a.getD j 0 else if x = j then a.getD i 0 else a.getD x 0 := by
  rw [swapAt, getD_set, getD_set, List.length_set]
  by_cases hxj : x = j
  · by_cases hxi : x = i
    · subst hxi; subst hxj; simp [hj]
    · have hji : j ≠ i := fun h => hxi (hxj.trans h)
      simp [hxj, hj, hji]
  · simp [hxj, hi]

/-- The state of the permutation loop after index `m`: the pairs with an index
up to `m` are in place, and the running index is `m` in reversed binary. -/
structure PermutedUpTo (k : ℕ) (a : List Mpz) (m : ℕ) (s : List Mpz × ℕ) : Prop where
  length : s.1.length = 2 ^ k
  rev : s.2 = Dft.bitRev k m
  getD : ∀ x < 2 ^ k, s.1.getD x 0 =
    if min x (Dft.bitRev k x) ≤ m then a.getD (Dft.bitRev k x) 0 else a.getD x 0

theorem permutedUpTo_zero {a : List Mpz} {k : ℕ} (ha : a.length = 2 ^ k) :
    PermutedUpTo k a 0 (a, 0) := by
  refine ⟨ha, (Dft.bitRev_zero k).symm, fun x hx => ?_⟩
  by_cases h : min x (Dft.bitRev k x) ≤ 0
  · have hz : x = 0 := by
      rcases Nat.le_zero.mp h ▸ min_choice x (Dft.bitRev k x) with h' | h'
      · exact h'.symm
      · rw [← Dft.bitRev_bitRev k x hx, ← h', Dft.bitRev_zero]
    rw [if_pos h, hz, Dft.bitRev_zero]
  · rw [if_neg h]

theorem PermutedUpTo.swap {a : List Mpz} {k m : ℕ} {s : List Mpz × ℕ} (h : PermutedUpTo k a m s)
    (hm : m + 1 < 2 ^ k) (hlt : m + 1 < Dft.bitRev k (m + 1)) {x : ℕ} (hx : x < 2 ^ k) :
    (swapAt s.1 (m + 1) (Dft.bitRev k (m + 1))).getD x 0 =
      if min x (Dft.bitRev k x) ≤ m + 1 then a.getD (Dft.bitRev k x) 0 else a.getD x 0 := by
  have hlen := h.length
  have hrev := Dft.bitRev_lt k (m + 1)
  have hinvol := Dft.bitRev_bitRev k (m + 1) hm
  rw [getD_swapAt (by omega) (by omega), h.getD _ hrev, h.getD _ hm, h.getD x hx, hinvol]
  by_cases h1 : x = m + 1
  · subst h1
    simp [Nat.min_eq_right hlt.le, Nat.min_eq_left hlt.le]
  · by_cases h2 : x = Dft.bitRev k (m + 1)
    · subst h2
      rw [if_neg h1, if_pos rfl, hinvol, Nat.min_eq_left hlt.le, Nat.min_eq_right hlt.le]
      simp
    · have h3 : Dft.bitRev k x ≠ m + 1 := fun h => h2 (by rw [← h, Dft.bitRev_bitRev k x hx])
      rw [if_neg h1, if_neg h2]
      have hiff : min x (Dft.bitRev k x) ≤ m ↔ min x (Dft.bitRev k x) ≤ m + 1 := by omega
      simp only [hiff]

theorem PermutedUpTo.keep {a : List Mpz} {k m : ℕ} {s : List Mpz × ℕ} (h : PermutedUpTo k a m s)
    (hge : ¬ m + 1 < Dft.bitRev k (m + 1)) {x : ℕ} (hx : x < 2 ^ k) :
    s.1.getD x 0 =
      if min x (Dft.bitRev k x) ≤ m + 1 then a.getD (Dft.bitRev k x) 0 else a.getD x 0 := by
  have hxinv := Dft.bitRev_bitRev k x hx
  rw [h.getD x hx]
  by_cases heq : min x (Dft.bitRev k x) = m + 1
  · rcases min_choice x (Dft.bitRev k x) with h' | h'
    · have hxm : x = m + 1 := by omega
      subst hxm
      have hfix : Dft.bitRev k (m + 1) = m + 1 := by omega
      simp [hfix]
    · have hxm : Dft.bitRev k x = m + 1 := by omega
      rw [hxm] at hxinv
      have hfix : x = m + 1 := by omega
      rw [hfix] at hxm ⊢
      simp [hxm]
  · have hiff : min x (Dft.bitRev k x) ≤ m ↔ min x (Dft.bitRev k x) ≤ m + 1 := by omega
    simp only [hiff]

theorem PermutedUpTo.step {a : List Mpz} {k m : ℕ} {s : List Mpz × ℕ} (h : PermutedUpTo k a m s)
    (hm : m + 1 < 2 ^ k) : PermutedUpTo k a (m + 1) (bitReverseStep (2 ^ k) s (m + 1)) := by
  have hcarry : bitReverseCarry s.2 (2 ^ k >>> 1) = Dft.bitRev k (m + 1) := by
    rw [h.rev, bitReverseCarry_bitRev]
  dsimp only [bitReverseStep]
  rw [hcarry]
  by_cases hlt : m + 1 < Dft.bitRev k (m + 1)
  · rw [if_pos hlt]
    exact ⟨(length_swapAt _ _ _).trans h.length, rfl, fun x hx => h.swap hm hlt hx⟩
  · rw [if_neg hlt]
    exact ⟨h.length, rfl, fun x hx => h.keep hlt hx⟩

/-- The permutation loop swaps every index with its bit reversal. -/
theorem bitReversePermute_spec {a : List Mpz} {k : ℕ} (ha : a.length = 2 ^ k) :
    (bitReversePermute a).length = 2 ^ k ∧
      ∀ x < 2 ^ k, (bitReversePermute a).getD x 0 = a.getD (Dft.bitRev k x) 0 := by
  have hinv : ∀ m < 2 ^ k,
      PermutedUpTo k a m ((List.range' 1 m).foldl (bitReverseStep (2 ^ k)) (a, 0)) := by
    intro m
    induction m with
    | zero => exact fun _ => permutedUpTo_zero ha
    | succ m ih =>
      intro hm
      rw [List.range'_concat, List.foldl_append, List.foldl_cons, List.foldl_nil, mul_comm,
        mul_one, add_comm 1 m]
      exact (ih (by omega)).step hm
  have hpos := Nat.two_pow_pos k
  have hlast := hinv (2 ^ k - 1) (by omega)
  rw [bitReversePermute, ha]
  refine ⟨hlast.length, fun x hx => ?_⟩
  rw [hlast.getD x hx, if_pos ((min_le_left _ _).trans (by omega))]

section

variable {R : Type*} [CommRing R]

def blockAfter (half i m : ℕ) (w : R) (f : ℕ → R) (x : ℕ) : R :=
  if i ≤ x ∧ x < i + m then f x + w ^ (x - i) * f (x + half)
  else if i + half ≤ x ∧ x < i + half + m then f (x - half) - w ^ (x - half - i) * f x
  else f x

theorem butterflyBlock_loop {q : Mpz} (hq : (q : R) = 0) (wlen : Mpz) {half i : ℕ} {a : List Mpz}
    (hi : i + 2 * half ≤ a.length) (m : ℕ) (hm : m ≤ half) :
    ((List.range m).foldl (butterflyStep q wlen half i) (a, 1)).1.length = a.length ∧
    (((List.range m).foldl (butterflyStep q wlen half i) (a, 1)).2 : R) = (wlen : R) ^ m ∧
    ∀ x, entry R ((List.range m).foldl (butterflyStep q wlen half i) (a, 1)).1 x =
      blockAfter half i m (wlen : R) (entry R a) x := by
  induction m with
  | zero =>
    refine ⟨rfl, by simp, fun x => ?_⟩
    have h1 : ¬ (i ≤ x ∧ x < i + 0) := by omega
    have h2 : ¬ (i + half ≤ x ∧ x < i + half + 0) := by omega
    rw [blockAfter, if_neg h1, if_neg h2]
    rfl
  | succ m ih =>
    obtain ⟨hlen, hw, hx⟩ := ih (by omega)
    rw [List.range_succ, List.foldl_append, List.foldl_cons, List.foldl_nil]
    generalize (List.range m).foldl (butterflyStep q wlen half i) (a, 1) = s at hlen hw hx
    dsimp only [butterflyStep]
    have hu := hx (i + m)
    have hv := hx (i + m + half)
    rw [blockAfter, if_neg (by omega), if_neg (by omega)] at hu hv
    rw [entry] at hu hv
    refine ⟨by simp [hlen], by rw [cast_emod hq, Int.cast_mul, hw, pow_succ], fun x => ?_⟩
    rw [entry_set (by rw [List.length_set]; omega), entry_set (by omega), hx x]
    by_cases h1 : x = i + m + half
    · subst h1
      rw [if_pos rfl, cast_emod hq, Int.cast_sub, cast_emod hq, Int.cast_mul, hu, hv, hw,
        blockAfter, if_neg (by omega), if_pos (by omega), Nat.add_sub_cancel,
        Nat.add_sub_cancel_left, mul_comm]
    · by_cases h2 : x = i + m
      · subst h2
        rw [if_neg h1, if_pos rfl, cast_emod hq, Int.cast_add, cast_emod hq, Int.cast_mul, hu, hv,
          hw, blockAfter, if_pos (by omega), Nat.add_sub_cancel_left, mul_comm]
      · have h3 : (i ≤ x ∧ x < i + m) ↔ (i ≤ x ∧ x < i + (m + 1)) := by omega
        have h4 : (i + half ≤ x ∧ x < i + half + m) ↔
            (i + half ≤ x ∧ x < i + half + (m + 1)) := by omega
        rw [if_neg h1, if_neg h2, blockAfter, blockAfter]
        simp only [h3, h4]

theorem butterflyBlock_spec {q : Mpz} (hq : (q : R) = 0) (wlen : Mpz) {half i : ℕ}
    {a : List Mpz} (hi : i + 2 * half ≤ a.length) :
    (butterflyBlock q wlen half a i).length = a.length ∧
    ∀ x, entry R (butterflyBlock q wlen half a i) x =
      blockAfter half i half (wlen : R) (entry R a) x :=
  let h := butterflyBlock_loop hq wlen hi half le_rfl
  ⟨h.1, h.2.2⟩

theorem blockAfter_stage (half b : ℕ) (w : R) (f : ℕ → R) (x : ℕ) (hh : 0 < half) :
    blockAfter half (b * (2 * half)) half w
        (fun y => if y < b * (2 * half) then Dft.stage half w f y else f y) x =
      if x < (b + 1) * (2 * half) then Dft.stage half w f x else f x := by
  have hb : (b + 1) * (2 * half) = b * (2 * half) + 2 * half := by ring
  rw [hb]
  generalize hB : b * (2 * half) = B
  by_cases h0 : x < B
  · rw [blockAfter, if_neg (by omega), if_neg (by omega), if_pos h0, if_pos (by omega)]
  · obtain ⟨r, rfl⟩ : ∃ r, x = B + r := ⟨x - B, by omega⟩
    by_cases h1 : r < 2 * half
    · have hmod : (B + r) % (2 * half) = r :=
        (Dft.div_mod_of_eq h1 (by rw [hB] : B + r = b * (2 * half) + r)).2
      rw [if_pos (by omega), Dft.stage, hmod]
      by_cases h2 : r < half
      · rw [blockAfter, if_pos (by omega), if_pos h2, if_neg (by omega), if_neg (by omega),
          Nat.add_sub_cancel_left]
      · have hr : B + r - half - B = r - half := by omega
        rw [blockAfter, if_neg (by omega), if_pos (by omega), if_neg h2, if_neg (by omega),
          if_neg (by omega), hr]
    · rw [blockAfter, if_neg (by omega), if_neg (by omega), if_neg (by omega), if_neg (by omega)]

theorem nttStage_blocks {q : Mpz} (hq : (q : R) = 0) (wlen : Mpz) {half m : ℕ} (hh : 0 < half)
    {a : List Mpz} (ha : a.length = m * (2 * half)) :
    ((strided a.length (2 * half)).foldl (butterflyBlock q wlen half) a).length = a.length ∧
    ∀ x < a.length, entry R ((strided a.length (2 * half)).foldl (butterflyBlock q wlen half) a) x =
      Dft.stage half (wlen : R) (entry R a) x := by
  rw [ha, strided_mul m (by omega), List.foldl_map, ← ha]
  have hinv := foldl_range_inv
    (fun b s => s.length = a.length ∧ ∀ x, entry R s x =
      if x < b * (2 * half) then Dft.stage half (wlen : R) (entry R a) x else entry R a x)
    (fun s b => butterflyBlock q wlen half s (b * (2 * half))) a m
    ⟨rfl, fun x => by simp⟩ ?_
  · exact ⟨hinv.1, fun x hx => by rw [hinv.2 x, ← ha, if_pos hx]⟩
  · rintro b s hb ⟨hlen, hs⟩
    have hle : b * (2 * half) + 2 * half ≤ s.length := by
      rw [hlen, ha, ← Nat.succ_mul]
      exact Nat.mul_le_mul_right _ hb
    obtain ⟨hlen', hs'⟩ := butterflyBlock_spec hq wlen hle
    refine ⟨hlen'.trans hlen, fun x => ?_⟩
    rw [hs' x, ← blockAfter_stage half b _ _ x hh]
    congr 1
    funext y
    exact hs y

theorem stage_congr {half m : ℕ} (w : R) {f g : ℕ → R} (h : ∀ x < m * (2 * half), f x = g x)
    (x : ℕ) (hx : x < m * (2 * half)) : Dft.stage half w f x = Dft.stage half w g x := by
  rw [Dft.stage, Dft.stage]
  split
  · next hlt =>
    have hb := Nat.div_add_mod' x (2 * half)
    have hlt' : x / (2 * half) < m := Nat.div_lt_of_lt_mul (by rwa [mul_comm])
    have hle : (x / (2 * half) + 1) * (2 * half) ≤ m * (2 * half) :=
      Nat.mul_le_mul_right _ hlt'
    rw [Nat.succ_mul] at hle
    rw [h x hx, h (x + half) (by omega)]
  · rw [h x hx, h (x - half) (by omega)]

end

end RfClassGroups
