import Mathlib.Algebra.Order.Group.Nat
import Mathlib.Data.Nat.Log
import Mathlib.Tactic.NormNum

/-! Big-endian byte strings of natural numbers: a given width, and the shortest
one, which is empty at zero. -/

namespace BigEndian

def ofBytes : List UInt8 → ℕ
  | [] => 0
  | b :: bs => b.toNat * 256 ^ bs.length + ofBytes bs

def fixed : ℕ → ℕ → List UInt8
  | 0, _ => []
  | w + 1, n => UInt8.ofNat (n / 256 ^ w) :: fixed w (n % 256 ^ w)

@[simp] theorem length_fixed (w n : ℕ) : (fixed w n).length = w := by
  induction w generalizing n with
  | zero => rfl
  | succ w ih => rw [fixed, List.length_cons, ih]

theorem ofBytes_lt (bs : List UInt8) : ofBytes bs < 256 ^ bs.length := by
  induction bs with
  | nil => exact Nat.one_pos
  | cons b bs ih =>
    have hb : b.toNat + 1 ≤ 256 := b.toNat_lt
    calc b.toNat * 256 ^ bs.length + ofBytes bs
        < (b.toNat + 1) * 256 ^ bs.length := by rw [Nat.succ_mul]; omega
      _ ≤ 256 * 256 ^ bs.length := Nat.mul_le_mul_right _ hb
      _ = 256 ^ (bs.length + 1) := by rw [pow_succ, mul_comm]

theorem ofBytes_fixed {w n : ℕ} (h : n < 256 ^ w) : ofBytes (fixed w n) = n := by
  induction w generalizing n with
  | zero =>
    have hn : n = 0 := by simpa using h
    rw [hn]
    rfl
  | succ w ih =>
    have hpos : 0 < 256 ^ w := Nat.pow_pos (by decide)
    have hq : n / 256 ^ w < 256 := Nat.div_lt_of_lt_mul (by rwa [pow_succ] at h)
    rw [fixed, ofBytes, ih (Nat.mod_lt n hpos), length_fixed, UInt8.toNat_ofNat_of_lt' hq,
      Nat.div_add_mod']

theorem fixed_ofBytes (bs : List UInt8) : fixed bs.length (ofBytes bs) = bs := by
  induction bs with
  | nil => rfl
  | cons b bs ih =>
    have hlt := ofBytes_lt bs
    have hpos : 0 < 256 ^ bs.length := Nat.pow_pos (by decide)
    have hdiv : (b.toNat * 256 ^ bs.length + ofBytes bs) / 256 ^ bs.length = b.toNat := by
      rw [Nat.mul_comm, Nat.mul_add_div hpos, Nat.div_eq_of_lt hlt, Nat.add_zero]
    have hmod : (b.toNat * 256 ^ bs.length + ofBytes bs) % 256 ^ bs.length = ofBytes bs := by
      rw [Nat.mul_comm, Nat.mul_add_mod, Nat.mod_eq_of_lt hlt]
    rw [List.length_cons, ofBytes, fixed, hdiv, hmod, ih, UInt8.ofNat_toNat]

def byteCount (n : ℕ) : ℕ := if n = 0 then 0 else n.log2 / 8 + 1

theorem lt_pow_iff_log2 {n w : ℕ} (hn : n ≠ 0) : n < 2 ^ w ↔ n.log2 < w :=
  (Nat.log2_lt hn).symm

theorem byteCount_le {n w : ℕ} : byteCount n ≤ w ↔ n < 256 ^ w := by
  have h256 : (256 : ℕ) ^ w = 2 ^ (8 * w) := by rw [pow_mul]; norm_num
  by_cases hn : n = 0
  · simp [byteCount, hn]
  · rw [byteCount, if_neg hn, h256, lt_pow_iff_log2 hn]
    omega

def shortest (n : ℕ) : List UInt8 := fixed (byteCount n) n

theorem ofBytes_shortest (n : ℕ) : ofBytes (shortest n) = n :=
  ofBytes_fixed (byteCount_le.mp le_rfl)

theorem length_shortest (n : ℕ) : (shortest n).length = byteCount n := length_fixed _ _

theorem byteCount_ofBytes {b : UInt8} (hb : b ≠ 0) (bs : List UInt8) :
    byteCount (ofBytes (b :: bs)) = bs.length + 1 := by
  have hpos : 1 ≤ b.toNat := by
    rw [Nat.one_le_iff_ne_zero]
    exact fun h => hb (UInt8.toNat_inj.mp h)
  refine le_antisymm (byteCount_le.mpr (ofBytes_lt (b :: bs))) ?_
  by_contra hlt
  have hle : byteCount (ofBytes (b :: bs)) ≤ bs.length := by omega
  have hsmall := byteCount_le.mp hle
  have hbig : 256 ^ bs.length ≤ b.toNat * 256 ^ bs.length := Nat.le_mul_of_pos_left _ hpos
  rw [ofBytes] at hsmall
  omega

theorem shortest_ofBytes {b : UInt8} (hb : b ≠ 0) (bs : List UInt8) :
    shortest (ofBytes (b :: bs)) = b :: bs := by
  rw [shortest, byteCount_ofBytes hb]
  exact fixed_ofBytes (b :: bs)

theorem shortest_head_ne_zero {n : ℕ} {b : UInt8} {bs : List UInt8} (h : shortest n = b :: bs) :
    b ≠ 0 := by
  rintro rfl
  have hn := ofBytes_shortest n
  have hlen := length_shortest n
  rw [h, ofBytes] at hn
  rw [h, List.length_cons] at hlen
  have hlt := ofBytes_lt bs
  have hle := byteCount_le (n := n) (w := bs.length) |>.mpr (by rw [← hn]; simpa using hlt)
  omega

theorem half_le_ofBytes {b : UInt8} (bs : List UInt8) :
    128 * 256 ^ bs.length ≤ ofBytes (b :: bs) ↔ 128 ≤ b.toNat := by
  have hlt := ofBytes_lt bs
  rw [ofBytes]
  constructor
  · intro h
    by_contra hb
    have hle : (b.toNat + 1) * 256 ^ bs.length ≤ 128 * 256 ^ bs.length :=
      Nat.mul_le_mul_right _ (by omega)
    rw [Nat.succ_mul] at hle
    omega
  · intro hb
    exact (Nat.mul_le_mul_right _ hb).trans (Nat.le_add_right _ _)

end BigEndian
