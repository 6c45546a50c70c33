import Mathlib.Algebra.Order.Ring.Int
import Mathlib.Data.Nat.Log
import Mathlib.Tactic.LinearCombination
import Mathlib.Tactic.Linarith
import Mathlib.Tactic.Ring
import RfClassGroups.Lib.WhileLoop
import RfClassGroups.Mpz

/-! The partial Euclidean algorithm on limbs. `mpn_hgcd2` of the integer library is a
parameter; undefined behaviour of a step is `none`. -/

namespace RfClassGroups.Bicycl

structure EuclidResult where
  u00 : Mpz
  u01 : Mpz
  u10 : Mpz
  u11 : Mpz
  a : Mpz
  b : Mpz

/-- What the comment of `partial_euclid` promises, and the sign of the diagonal. -/
structure EuclidResult.Contract (a b : Mpz) (e : EuclidResult) : Prop where
  left : e.u00 * e.a + e.u01 * e.b = a
  right : e.u10 * e.a + e.u11 * e.b = b
  det : e.u00 * e.u11 - e.u01 * e.u10 = 1
  pos00 : 0 < e.u00
  pos11 : 0 < e.u11

def EuclidResult.swap (e : EuclidResult) : EuclidResult :=
  ⟨e.u11, e.u10, e.u01, e.u00, e.b, e.a⟩

structure HgcdMatrix1 where
  u00 : ℕ
  u01 : ℕ
  u10 : ℕ
  u11 : ℕ

namespace PartialEuclid

def limbBase : ℕ := 2 ^ 64

def absiz (x : ℕ) : ℕ := if x = 0 then 0 else Nat.log2 x / 64 + 1

def limb (x i : ℕ) : ℕ := x / limbBase ^ i % limbBase

def countLeadingZeros (x : ℕ) : ℕ := 63 - Nat.log2 x

def extractNumb (count xh xl : ℕ) : ℕ := (xh <<< count) % limbBase ||| xl >>> (64 - count)

def highestTwoLimbs (a b n : ℕ) : ℕ × ℕ × ℕ × ℕ :=
  let mask := limb a (n - 1) ||| limb b (n - 1)
  if 2 ^ 63 ≤ mask then (limb a (n - 1), limb a (n - 2), limb b (n - 1), limb b (n - 2))
  else
    let shift := countLeadingZeros mask
    if n = 2 then
      (extractNumb shift (limb a 1) (limb a 0), (limb a 0 <<< shift) % limbBase,
        extractNumb shift (limb b 1) (limb b 0), (limb b 0 <<< shift) % limbBase)
    else
      (extractNumb shift (limb a (n - 1)) (limb a (n - 2)),
        extractNumb shift (limb a (n - 2)) (limb a (n - 3)),
        extractNumb shift (limb b (n - 1)) (limb b (n - 2)),
        extractNumb shift (limb b (n - 2)) (limb b (n - 3)))

structure State where
  a : ℕ
  b : ℕ
  n : ℕ
  u00 : ℕ
  u01 : ℕ
  u10 : ℕ
  u11 : ℕ

section

variable (hgcd2 : ℕ → ℕ → ℕ → ℕ → Option HgcdMatrix1)

/-- `(a, b) <- M^-1 (a, b)` and `U <- U M`. -/
def State.hgcdStep (s : State) (m : HgcdMatrix1) : State :=
  let a := m.u11 * s.a - m.u01 * s.b
  let b := m.u00 * s.b - m.u10 * s.a
  { a := a, b := b, n := max (absiz a) (absiz b)
    u00 := s.u00 * m.u00 + s.u01 * m.u10, u01 := s.u00 * m.u01 + s.u01 * m.u11
    u10 := s.u10 * m.u00 + s.u11 * m.u10, u11 := s.u10 * m.u01 + s.u11 * m.u11 }

/-- `(a, b) <- (a - b q, b)`, where only the lower `n - 1` limbs of `b` are read. -/
def State.divA (s : State) : Option State :=
  let b := s.b % limbBase ^ (s.n - 1)
  if b = 0 then none
  else
    let q := s.a / b
    some { s with a := s.a % b, b := b, n := absiz b, u01 := s.u01 + q * s.u00,
                  u11 := s.u11 + q * s.u10 }

/-- `(a, b) <- (a, b - a q)`, where only the lower `n - 1` limbs of `a` are read. -/
def State.divB (s : State) : Option State :=
  let a := s.a % limbBase ^ (s.n - 1)
  if a = 0 then none
  else
    let q := s.b / a
    some { s with a := a, b := s.b % a, n := absiz a, u00 := s.u00 + q * s.u01,
                  u10 := s.u10 + q * s.u11 }

def State.sub (s : State) : State :=
  if s.a < s.b then { s with b := s.b - s.a, u00 := s.u00 + s.u01, u10 := s.u10 + s.u11 }
  else { s with a := s.a - s.b, u01 := s.u00 + s.u01, u11 := s.u10 + s.u11 }

def State.step (s : State) : Option State :=
  if limb s.a (s.n - 1) ||| limb s.b (s.n - 1) = 0 then none
  else
    let (ah, al, bh, bl) := highestTwoLimbs s.a s.b s.n
    match hgcd2 ah al bh bl with
    | some m => some (s.hgcdStep m)
    | none => if bh < 2 then s.divA else if ah < 2 then s.divB else some s.sub

def running (target : ℕ) : Option State → Bool
  | none => false
  | some s => decide (target < s.n)

def init (a b : Mpz) : State :=
  { a := a.natAbs, b := b.natAbs, n := absiz b.natAbs, u00 := 1, u01 := 0, u10 := 0, u11 := 1 }

/-- The numbers fall in each round, so that the rounds never run out. -/
def loop (target : ℕ) (a b : Mpz) : Option (Option State) :=
  WhileLoop.run (running target) (·.bind (State.step hgcd2)) (a.natAbs + b.natAbs + 1)
    (some (init a b))

/-- The signs of the inputs go back to the numbers and to the off-diagonal entries. -/
def finish (a b : Mpz) (s : State) : EuclidResult :=
  let sign (neg : Bool) (x : ℕ) : Mpz := if neg then -(x : Mpz) else x
  let aNeg := decide (a < 0)
  let bNeg := decide (b < 0)
  { u00 := s.u00, u01 := sign (bNeg ^^ aNeg) s.u01, u10 := sign (bNeg ^^ aNeg) s.u10,
    u11 := s.u11, a := sign aNeg s.a, b := sign bNeg s.b }

def ordered (target : ℕ) (a b : Mpz) : Option EuclidResult :=
  if a = 0 then some ⟨1, 0, 0, 1, a, b⟩ else ((loop hgcd2 target a b).join).map (finish a b)

end

end PartialEuclid

open PartialEuclid in
def partialEuclid (hgcd2 : ℕ → ℕ → ℕ → ℕ → Option HgcdMatrix1) (target : ℕ) (a b : Mpz) :
    Option EuclidResult :=
  if absiz b.natAbs < absiz a.natAbs then (ordered hgcd2 target b a).map EuclidResult.swap
  else ordered hgcd2 target a b

namespace PartialEuclid

theorem lt_pow_absiz (x : ℕ) : x < limbBase ^ absiz x := by
  unfold absiz
  by_cases h : x = 0
  · rw [if_pos h, h]
    exact Nat.one_pos
  · rw [if_neg h, limbBase, ← pow_mul, Nat.log2_eq_log_two]
    refine lt_of_lt_of_le (Nat.lt_pow_succ_log_self one_lt_two x) ?_
    exact Nat.pow_le_pow_right two_pos (by omega)

theorem absiz_le {x n : ℕ} (h : x < limbBase ^ n) : absiz x ≤ n := by
  unfold absiz
  by_cases hx : x = 0
  · rw [if_pos hx]
    exact Nat.zero_le n
  · rw [if_neg hx, Nat.log2_eq_log_two]
    rw [limbBase, ← pow_mul] at h
    have hlog := Nat.log_lt_of_lt_pow hx h
    omega

theorem limb_top {x n : ℕ} (hn : 1 ≤ n) (h : x < limbBase ^ n) :
    limb x (n - 1) = x / limbBase ^ (n - 1) := by
  apply Nat.mod_eq_of_lt
  apply Nat.div_lt_of_lt_mul
  rwa [← pow_succ, Nat.sub_add_cancel hn]

theorem limb_lt (x i : ℕ) : limb x i < limbBase := Nat.mod_lt _ (by norm_num [limbBase])

theorem limb_next {x n : ℕ} (hn : 2 ≤ n) :
    limb x (n - 2) = x % limbBase ^ (n - 1) / limbBase ^ (n - 2) := by
  have hpow : limbBase ^ (n - 1) = limbBase ^ (n - 2) * limbBase := by
    rw [← pow_succ]
    congr 1
    omega
  rw [limb, hpow, Nat.mod_mul_right_div_self]

/-- The bits of two neighbouring limbs, shifted left. -/
theorem extractNumb_eq {xh xl k : ℕ} (hk : k ≤ 63) (hxh : xh * 2 ^ k < 2 ^ 64) (hxl : xl < 2 ^ 64) :
    extractNumb k xh xl = xh * 2 ^ k + xl / 2 ^ (64 - k) := by
  have hlow : xl / 2 ^ (64 - k) < 2 ^ k := by
    apply Nat.div_lt_of_lt_mul
    rwa [← pow_add, show 64 - k + k = 64 by omega]
  rw [extractNumb, limbBase, Nat.shiftLeft_eq, Nat.mod_eq_of_lt hxh, Nat.shiftRight_eq_div_pow,
    ← Nat.shiftLeft_eq, ← Nat.shiftLeft_add_eq_or_of_lt hlow]

theorem shifted_word {x n k : ℕ} (hn : 2 ≤ n) (hk : k ≤ 63) (hx : x < limbBase ^ n)
    (htop : limb x (n - 1) * 2 ^ k < 2 ^ 64) :
    extractNumb k (limb x (n - 1)) (limb x (n - 2)) = x * 2 ^ k / limbBase ^ (n - 1) := by
  have hpow : limbBase ^ (n - 1) = limbBase ^ (n - 2) * 2 ^ (64 - k) * 2 ^ k := by
    rw [mul_assoc, ← pow_add, show 64 - k + k = 64 by omega, ← limbBase, ← pow_succ]
    congr 1
    omega
  have hpos : 0 < limbBase ^ (n - 1) := Nat.pow_pos (by norm_num [limbBase])
  have hsplit : x * 2 ^ k = x % limbBase ^ (n - 1) * 2 ^ k +
      limbBase ^ (n - 1) * (x / limbBase ^ (n - 1) * 2 ^ k) := by
    conv_lhs => rw [← Nat.mod_add_div x (limbBase ^ (n - 1))]
    ring
  rw [extractNumb_eq hk htop (limb_lt x (n - 2)), limb_top (by omega) hx, limb_next hn, hsplit,
    Nat.add_mul_div_left _ _ hpos, add_comm]
  congr 1
  generalize x % limbBase ^ (n - 1) = r
  rw [hpow, Nat.mul_div_mul_right _ _ (Nat.two_pow_pos k), Nat.div_div_eq_div_mul]

/-- The first words are the top words of the shifted numbers, and one of them is full. -/
theorem highestTwoLimbs_spec {a b n : ℕ} (hn : 2 ≤ n) (ha : a < limbBase ^ n)
    (hb : b < limbBase ^ n) (hmask : limb a (n - 1) ||| limb b (n - 1) ≠ 0) :
    ∃ k ≤ 63, (highestTwoLimbs a b n).1 = a * 2 ^ k / limbBase ^ (n - 1) ∧
      (highestTwoLimbs a b n).2.2.1 = b * 2 ^ k / limbBase ^ (n - 1) ∧
      (2 ^ 63 ≤ (highestTwoLimbs a b n).1 ∨ 2 ^ 63 ≤ (highestTwoLimbs a b n).2.2.1) := by
  have hla := limb_lt a (n - 1)
  have hlb := limb_lt b (n - 1)
  by_cases hbit : 2 ^ 63 ≤ limb a (n - 1) ||| limb b (n - 1)
  · refine ⟨0, by omega, ?_, ?_, ?_⟩
    · simp only [highestTwoLimbs, if_pos hbit, pow_zero, mul_one]
      exact limb_top (by omega) ha
    · simp only [highestTwoLimbs, if_pos hbit, pow_zero, mul_one]
      exact limb_top (by omega) hb
    · simp only [highestTwoLimbs, if_pos hbit]
      by_contra hlt
      obtain ⟨h1, h2⟩ := not_or.mp hlt
      exact absurd (Nat.or_lt_two_pow (not_le.mp h1) (not_le.mp h2)) (not_lt.mpr hbit)
  · have hlow := Nat.pow_log_le_self 2 hmask
    have hup := Nat.lt_pow_succ_log_self one_lt_two (limb a (n - 1) ||| limb b (n - 1))
    have hlog : Nat.log 2 (limb a (n - 1) ||| limb b (n - 1)) < 63 :=
      Nat.log_lt_of_lt_pow hmask (not_le.mp hbit)
    have hshift : ∀ x, x < 2 ^ (Nat.log 2 (limb a (n - 1) ||| limb b (n - 1)) + 1) →
        x * 2 ^ countLeadingZeros (limb a (n - 1) ||| limb b (n - 1)) < 2 ^ 64 := by
      intro x hx
      refine lt_of_lt_of_le (Nat.mul_lt_mul_of_pos_right hx (Nat.two_pow_pos _)) ?_
      rw [← pow_add, countLeadingZeros, Nat.log2_eq_log_two]
      exact Nat.pow_le_pow_right two_pos (by omega)
    have hka := hshift _ (lt_of_le_of_lt Nat.left_le_or hup)
    have hkb := hshift _ (lt_of_le_of_lt Nat.right_le_or hup)
    have hk : countLeadingZeros (limb a (n - 1) ||| limb b (n - 1)) ≤ 63 := Nat.sub_le _ _
    have hwords : (highestTwoLimbs a b n).1 =
        extractNumb (countLeadingZeros (limb a (n - 1) ||| limb b (n - 1))) (limb a (n - 1))
          (limb a (n - 2)) ∧ (highestTwoLimbs a b n).2.2.1 =
        extractNumb (countLeadingZeros (limb a (n - 1) ||| limb b (n - 1))) (limb b (n - 1))
          (limb b (n - 2)) := by
      simp only [highestTwoLimbs, if_neg hbit]
      by_cases h2 : n = 2
      · subst h2
        simp
      · simp [if_neg h2]
    refine ⟨_, hk, hwords.1.trans (shifted_word hn hk ha hka),
      hwords.2.trans (shifted_word hn hk hb hkb), ?_⟩
    rw [hwords.1, hwords.2, extractNumb_eq hk hka (limb_lt a (n - 2)),
      extractNumb_eq hk hkb (limb_lt b (n - 2))]
    have htop : 2 ^ Nat.log 2 (limb a (n - 1) ||| limb b (n - 1)) ≤ limb a (n - 1) ∨
        2 ^ Nat.log 2 (limb a (n - 1) ||| limb b (n - 1)) ≤ limb b (n - 1) := by
      by_contra hlt
      obtain ⟨h1, h2⟩ := not_or.mp hlt
      exact absurd (Nat.or_lt_two_pow (not_le.mp h1) (not_le.mp h2)) (not_lt.mpr hlow)
    have hfull : ∀ x, 2 ^ Nat.log 2 (limb a (n - 1) ||| limb b (n - 1)) ≤ x →
        2 ^ 63 ≤ x * 2 ^ countLeadingZeros (limb a (n - 1) ||| limb b (n - 1)) := by
      intro x hx
      refine le_trans ?_ (Nat.mul_le_mul_right _ hx)
      rw [← pow_add, countLeadingZeros, Nat.log2_eq_log_two]
      exact Nat.pow_le_pow_right two_pos (by omega)
    rcases htop with h | h
    · exact Or.inl (le_add_right (hfull _ h))
    · exact Or.inr (le_add_right (hfull _ h))

/-- What the comments of the integer library say of `mpn_hgcd2`: a matrix of determinant one
with which the numbers stay nonnegative and get smaller. -/
def Hgcd2Law (hgcd2 : ℕ → ℕ → ℕ → ℕ → Option HgcdMatrix1) : Prop :=
  ∀ a b n ah al bh bl m, a < limbBase ^ n → b < limbBase ^ n →
    highestTwoLimbs a b n = (ah, al, bh, bl) → hgcd2 ah al bh bl = some m →
    m.u00 * m.u11 = m.u01 * m.u10 + 1 ∧ m.u01 * b ≤ m.u11 * a ∧ m.u10 * a ≤ m.u00 * b ∧
      m.u11 * a - m.u01 * b + (m.u00 * b - m.u10 * a) < a + b

variable {hgcd2 : ℕ → ℕ → ℕ → ℕ → Option HgcdMatrix1}

/-- The two top limbs are zero, which no bit count is defined on. -/
def State.Stale (s : State) : Prop := limb s.a (s.n - 1) ||| limb s.b (s.n - 1) = 0

/-- A division step ignores a top limb that is not zero. -/
def State.Drops (hgcd2 : ℕ → ℕ → ℕ → ℕ → Option HgcdMatrix1) (s : State) : Prop :=
  let (ah, al, bh, bl) := highestTwoLimbs s.a s.b s.n
  hgcd2 ah al bh bl = none ∧
    (bh < 2 ∧ limb s.b (s.n - 1) ≠ 0 ∨ ¬ bh < 2 ∧ ah < 2 ∧ limb s.a (s.n - 1) ≠ 0)

structure Inv (a b : ℕ) (s : State) : Prop where
  left : s.u00 * s.a + s.u01 * s.b = a
  right : s.u10 * s.a + s.u11 * s.b = b
  det : s.u00 * s.u11 = s.u01 * s.u10 + 1

structure Fits (s : State) : Prop where
  a : s.a < limbBase ^ s.n
  b : s.b < limbBase ^ s.n

/-- The steps of the loop, each with the guards it is taken under. -/
inductive StepCase (hgcd2 : ℕ → ℕ → ℕ → ℕ → Option HgcdMatrix1) (s : State) : Option State → Prop
  | stale : s.Stale → StepCase hgcd2 s none
  | hgcd (m : HgcdMatrix1) : ¬ s.Stale → m.u00 * m.u11 = m.u01 * m.u10 + 1 →
      m.u01 * s.b ≤ m.u11 * s.a → m.u10 * s.a ≤ m.u00 * s.b →
      m.u11 * s.a - m.u01 * s.b + (m.u00 * s.b - m.u10 * s.a) < s.a + s.b →
      StepCase hgcd2 s (some (s.hgcdStep m))
  | divA : ¬ s.Stale → s.b < s.a → (s.Drops hgcd2 ∨ limb s.b (s.n - 1) = 0) →
      StepCase hgcd2 s s.divA
  | divB : ¬ s.Stale → s.a < s.b → (s.Drops hgcd2 ∨ limb s.a (s.n - 1) = 0) →
      StepCase hgcd2 s s.divB
  | sub : ¬ s.Stale → 0 < s.a → 0 < s.b → StepCase hgcd2 s (some s.sub)

theorem lt_of_words {a b k n w : ℕ} (hb : b * 2 ^ k / limbBase ^ (n - 1) < w)
    (ha : w ≤ a * 2 ^ k / limbBase ^ (n - 1)) : b < a := by
  by_contra hle
  have hmono := Nat.div_le_div_right (c := limbBase ^ (n - 1))
    (Nat.mul_le_mul_right (2 ^ k) (not_lt.mp hle))
  omega

theorem step_cases (hlaw : Hgcd2Law hgcd2) {s : State} (hn : 2 ≤ s.n) (hs : Fits s) :
    StepCase hgcd2 s (s.step hgcd2) := by
  by_cases hstale : s.Stale
  · have hstep : s.step hgcd2 = none := if_pos hstale
    rw [hstep]
    exact StepCase.stale hstale
  obtain ⟨k, -, hah, hbh, hfull⟩ := highestTwoLimbs_spec hn hs.a hs.b hstale
  have hdrop : s.Drops hgcd2 ↔ hgcd2 (highestTwoLimbs s.a s.b s.n).1
      (highestTwoLimbs s.a s.b s.n).2.1 (highestTwoLimbs s.a s.b s.n).2.2.1
      (highestTwoLimbs s.a s.b s.n).2.2.2 = none ∧
    ((highestTwoLimbs s.a s.b s.n).2.2.1 < 2 ∧ limb s.b (s.n - 1) ≠ 0 ∨
      ¬ (highestTwoLimbs s.a s.b s.n).2.2.1 < 2 ∧ (highestTwoLimbs s.a s.b s.n).1 < 2 ∧
        limb s.a (s.n - 1) ≠ 0) := Iff.rfl
  have hstep : s.step hgcd2 = match hgcd2 (highestTwoLimbs s.a s.b s.n).1
      (highestTwoLimbs s.a s.b s.n).2.1 (highestTwoLimbs s.a s.b s.n).2.2.1
      (highestTwoLimbs s.a s.b s.n).2.2.2 with
    | some m => some (s.hgcdStep m)
    | none => if (highestTwoLimbs s.a s.b s.n).2.2.1 < 2 then s.divA
        else if (highestTwoLimbs s.a s.b s.n).1 < 2 then s.divB else some s.sub :=
    if_neg hstale
  rw [hstep]
  have hlaw' := hlaw s.a s.b s.n (highestTwoLimbs s.a s.b s.n).1
    (highestTwoLimbs s.a s.b s.n).2.1 (highestTwoLimbs s.a s.b s.n).2.2.1
    (highestTwoLimbs s.a s.b s.n).2.2.2
  cases hm : hgcd2 (highestTwoLimbs s.a s.b s.n).1 (highestTwoLimbs s.a s.b s.n).2.1
      (highestTwoLimbs s.a s.b s.n).2.2.1 (highestTwoLimbs s.a s.b s.n).2.2.2 with
  | some m =>
    obtain ⟨h1, h2, h3, h4⟩ := hlaw' m hs.a hs.b rfl hm
    exact StepCase.hgcd m hstale h1 h2 h3 h4
  | none =>
    by_cases hb2 : (highestTwoLimbs s.a s.b s.n).2.2.1 < 2
    · simp only [if_pos hb2]
      refine StepCase.divA hstale ?_ ?_
      · rcases hfull with h | h
        · exact lt_of_words (w := 2) (by rwa [← hbh]) (by rw [← hah]; omega)
        · omega
      · by_cases hz : limb s.b (s.n - 1) = 0
        · exact Or.inr hz
        · exact Or.inl (hdrop.mpr ⟨hm, Or.inl ⟨hb2, hz⟩⟩)
    · simp only [if_neg hb2]
      by_cases ha2 : (highestTwoLimbs s.a s.b s.n).1 < 2
      · simp only [if_pos ha2]
        refine StepCase.divB hstale ?_ ?_
        · exact lt_of_words (w := 2) (by rwa [← hah]) (by rw [← hbh]; omega)
        · by_cases hz : limb s.a (s.n - 1) = 0
          · exact Or.inr hz
          · exact Or.inl (hdrop.mpr ⟨hm, Or.inr ⟨hb2, ha2, hz⟩⟩)
      · simp only [if_neg ha2]
        refine StepCase.sub hstale ?_ ?_
        · by_contra hz
          rw [hah, Nat.eq_zero_of_not_pos hz] at ha2
          simp at ha2
        · by_contra hz
          rw [hbh, Nat.eq_zero_of_not_pos hz] at hb2
          simp at hb2

theorem divA_eq_some {s s' : State} (h : s.divA = some s') :
    s.b % limbBase ^ (s.n - 1) ≠ 0 ∧
      s' = { s with
        a := s.a % (s.b % limbBase ^ (s.n - 1)), b := s.b % limbBase ^ (s.n - 1)
        n := absiz (s.b % limbBase ^ (s.n - 1))
        u01 := s.u01 + s.a / (s.b % limbBase ^ (s.n - 1)) * s.u00
        u11 := s.u11 + s.a / (s.b % limbBase ^ (s.n - 1)) * s.u10 } := by
  unfold State.divA at h
  by_cases hz : s.b % limbBase ^ (s.n - 1) = 0
  · simp [hz] at h
  · simp only [if_neg hz, Option.some.injEq] at h
    exact ⟨hz, h.symm⟩

theorem divB_eq_some {s s' : State} (h : s.divB = some s') :
    s.a % limbBase ^ (s.n - 1) ≠ 0 ∧
      s' = { s with
        a := s.a % limbBase ^ (s.n - 1), b := s.b % (s.a % limbBase ^ (s.n - 1))
        n := absiz (s.a % limbBase ^ (s.n - 1))
        u00 := s.u00 + s.b / (s.a % limbBase ^ (s.n - 1)) * s.u01
        u10 := s.u10 + s.b / (s.a % limbBase ^ (s.n - 1)) * s.u11 } := by
  unfold State.divB at h
  by_cases hz : s.a % limbBase ^ (s.n - 1) = 0
  · simp [hz] at h
  · simp only [if_neg hz, Option.some.injEq] at h
    exact ⟨hz, h.symm⟩

/-- Every step keeps the numbers within their limbs and makes their sum smaller, also one
that ignores a limb. -/
theorem StepCase.shrinks {s s' : State} {o : Option State} (h : StepCase hgcd2 s o)
    (ho : o = some s') (hs : Fits s) : Fits s' ∧ s'.a + s'.b < s.a + s.b := by
  have hfit : ∀ {x y : ℕ}, x < y → x < limbBase ^ absiz y :=
    fun hxy => hxy.trans (lt_pow_absiz _)
  cases h with
  | stale => simp at ho
  | hgcd m hstale hdet h2 h3 hlt =>
    obtain rfl := Option.some.inj ho
    have hbase : 0 < limbBase := by norm_num [limbBase]
    refine ⟨⟨?_, ?_⟩, hlt⟩
    · exact (lt_pow_absiz _).trans_le (Nat.pow_le_pow_right hbase (Nat.le_max_left _ _))
    · exact (lt_pow_absiz _).trans_le (Nat.pow_le_pow_right hbase (Nat.le_max_right _ _))
  | divA hstale hlt hdrop =>
    obtain ⟨hz, rfl⟩ := divA_eq_some ho
    have hmod := Nat.mod_lt s.a (Nat.pos_of_ne_zero hz)
    have hle := Nat.mod_le s.b (limbBase ^ (s.n - 1))
    exact ⟨⟨hfit hmod, lt_pow_absiz _⟩, by dsimp only; omega⟩
  | divB hstale hlt hdrop =>
    obtain ⟨hz, rfl⟩ := divB_eq_some ho
    have hmod := Nat.mod_lt s.b (Nat.pos_of_ne_zero hz)
    have hle := Nat.mod_le s.a (limbBase ^ (s.n - 1))
    exact ⟨⟨lt_pow_absiz _, hfit hmod⟩, by dsimp only; omega⟩
  | sub hstale ha hb =>
    obtain rfl := Option.some.inj ho
    have hfa := hs.a
    have hfb := hs.b
    unfold State.sub
    by_cases hlt : s.a < s.b
    · rw [if_pos hlt]
      exact ⟨⟨hfa, (Nat.sub_le _ _).trans_lt hfb⟩, by dsimp only; omega⟩
    · rw [if_neg hlt]
      exact ⟨⟨(Nat.sub_le _ _).trans_lt hfa, hfb⟩, by dsimp only; omega⟩

theorem mod_pow_of_limb_eq_zero {x n : ℕ} (hn : 1 ≤ n) (hx : x < limbBase ^ n)
    (h : limb x (n - 1) = 0) : x % limbBase ^ (n - 1) = x := by
  apply Nat.mod_eq_of_lt
  rw [limb_top hn hx] at h
  exact (Nat.div_eq_zero_iff_lt (Nat.pow_pos (by norm_num [limbBase]))).mp h

/-- A matrix step keeps what the matrix is times the numbers. -/
theorem Inv.mul_matrix {a b x y m00 m01 m10 m11 : ℕ} {s : State} (hinv : Inv a b s)
    (hm : m00 * m11 = m01 * m10 + 1) (hx : m00 * x + m01 * y = s.a) (hy : m10 * x + m11 * y = s.b)
    (n : ℕ) :
    Inv a b ⟨x, y, n, s.u00 * m00 + s.u01 * m10, s.u00 * m01 + s.u01 * m11,
      s.u10 * m00 + s.u11 * m10, s.u10 * m01 + s.u11 * m11⟩ := by
  obtain ⟨hleft, hright, hdet⟩ := hinv
  refine ⟨?_, ?_, ?_⟩
  · calc (s.u00 * m00 + s.u01 * m10) * x + (s.u00 * m01 + s.u01 * m11) * y
        = s.u00 * (m00 * x + m01 * y) + s.u01 * (m10 * x + m11 * y) := by ring
      _ = a := by rw [hx, hy, hleft]
  · calc (s.u10 * m00 + s.u11 * m10) * x + (s.u10 * m01 + s.u11 * m11) * y
        = s.u10 * (m00 * x + m01 * y) + s.u11 * (m10 * x + m11 * y) := by ring
      _ = b := by rw [hx, hy, hright]
  · zify at hm hdet ⊢
    linear_combination hm * (s.u00 * s.u11 - s.u01 * s.u10) + hdet

/-- A step that ignores no limb multiplies the matrix by what it takes from the numbers. -/
theorem StepCase.inv {a b : ℕ} {s s' : State} {o : Option State} (h : StepCase hgcd2 s o)
    (ho : o = some s') (hn : 2 ≤ s.n) (hs : Fits s) (hreg : ¬ s.Drops hgcd2) (hinv : Inv a b s) :
    Inv a b s' := by
  cases h with
  | stale => simp at ho
  | hgcd m hstale hm h2 h3 hlt =>
    obtain rfl := Option.some.inj ho
    refine hinv.mul_matrix hm ?_ ?_ _
    · zify [h2, h3] at hm ⊢
      linear_combination (s.a : ℤ) * hm
    · zify [h2, h3] at hm ⊢
      linear_combination (s.b : ℤ) * hm
  | divA hstale hlt hdrop =>
    obtain ⟨hz, rfl⟩ := divA_eq_some ho
    have hb := mod_pow_of_limb_eq_zero (by omega) hs.b (hdrop.resolve_left hreg)
    rw [hb]
    have ha : 1 * (s.a % s.b) + s.a / s.b * s.b = s.a := by
      rw [one_mul, mul_comm, Nat.mod_add_div]
    have hb : 0 * (s.a % s.b) + 1 * s.b = s.b := by ring
    have hmul := hinv.mul_matrix (by ring) ha hb (absiz s.b)
    convert hmul using 2 <;> ring
  | divB hstale hlt hdrop =>
    obtain ⟨hz, rfl⟩ := divB_eq_some ho
    have ha := mod_pow_of_limb_eq_zero (by omega) hs.a (hdrop.resolve_left hreg)
    rw [ha]
    have ha : 1 * s.a + 0 * (s.b % s.a) = s.a := by ring
    have hb : s.b / s.a * s.a + 1 * (s.b % s.a) = s.b := by
      rw [one_mul, mul_comm, add_comm, Nat.mod_add_div]
    have hmul := hinv.mul_matrix (by ring) ha hb (absiz s.a)
    convert hmul using 2 <;> ring
  | sub hstale ha hb =>
    obtain rfl := Option.some.inj ho
    unfold State.sub
    by_cases hlt : s.a < s.b
    · rw [if_pos hlt]
      have ha : 1 * s.a + 0 * (s.b - s.a) = s.a := by ring
      have hb : 1 * s.a + 1 * (s.b - s.a) = s.b := by omega
      have hmul := hinv.mul_matrix (by ring) ha hb s.n
      convert hmul using 2 <;> ring
    · rw [if_neg hlt]
      have ha : 1 * (s.a - s.b) + 1 * s.b = s.a := by omega
      have hb : 0 * (s.a - s.b) + 1 * s.b = s.b := by ring
      have hmul := hinv.mul_matrix (by ring) ha hb s.n
      convert hmul using 2 <;> ring

/-- No limb is ignored in the step and the bit counts are defined. -/
structure State.Regular (hgcd2 : ℕ → ℕ → ℕ → ℕ → Option HgcdMatrix1) (s : State) : Prop where
  counted : ¬ s.Stale
  whole : ¬ s.Drops hgcd2

/-- A state at the head of the loop of a call. -/
def Visited (hgcd2 : ℕ → ℕ → ℕ → ℕ → Option HgcdMatrix1) (target : ℕ) (a b : Mpz) (s : State) :
    Prop :=
  WhileLoop.Visits (running target) (·.bind (State.step hgcd2)) (some (init a b)) (some s)

theorem le_absiz {x n : ℕ} (h : limb x (n - 1) ≠ 0) : n ≤ absiz x := by
  by_contra hlt
  apply h
  have hx : x < limbBase ^ (n - 1) := (lt_pow_absiz x).trans_le
    (Nat.pow_le_pow_right (by norm_num [limbBase]) (by omega))
  rw [limb, Nat.div_eq_of_lt hx, Nat.zero_mod]

theorem Inv.gcd_eq {a b : ℕ} {s : State} (h : Inv a b s) : Nat.gcd a b = Nat.gcd s.a s.b := by
  obtain ⟨hleft, hright, hdet⟩ := h
  apply Nat.dvd_antisymm
  · have hback : s.u11 * a = s.u01 * b + s.a ∧ s.u00 * b = s.u10 * a + s.b := by
      zify at hleft hright hdet ⊢
      exact ⟨by linear_combination (s.a : ℤ) * hdet - s.u11 * hleft + s.u01 * hright,
        by linear_combination (s.b : ℤ) * hdet + s.u10 * hleft - s.u00 * hright⟩
    apply Nat.dvd_gcd
    · exact (Nat.dvd_add_right ((Nat.gcd_dvd_right a b).mul_left _)).mp
        (hback.1 ▸ (Nat.gcd_dvd_left a b).mul_left _)
    · exact (Nat.dvd_add_right ((Nat.gcd_dvd_left a b).mul_left _)).mp
        (hback.2 ▸ (Nat.gcd_dvd_right a b).mul_left _)
  · have hda := Nat.gcd_dvd_left s.a s.b
    have hdb := Nat.gcd_dvd_right s.a s.b
    apply Nat.dvd_gcd
    · rw [← hleft]
      exact dvd_add (hda.mul_left _) (hdb.mul_left _)
    · rw [← hright]
      exact dvd_add (hda.mul_left _) (hdb.mul_left _)

/-- A regular step has a divisor, unless the common divisor is larger than the target. -/
theorem StepCase.defined {a b target : ℕ} {s : State} {o : Option State}
    (h : StepCase hgcd2 s o) (hn : target < s.n) (hn2 : 2 ≤ s.n) (hs : Fits s)
    (hreg : s.Regular hgcd2) (hinv : Inv a b s) (hgcd : absiz (Nat.gcd a b) ≤ target) :
    ∃ s', o = some s' := by
  have hstale := hreg.counted
  rw [hinv.gcd_eq] at hgcd
  cases h with
  | stale h => exact absurd h hstale
  | hgcd m => exact ⟨_, rfl⟩
  | divA _ hlt hdrop =>
    have hzero := hdrop.resolve_left hreg.whole
    have hb := mod_pow_of_limb_eq_zero (by omega) hs.b hzero
    refine ⟨_, if_neg ?_⟩
    rw [hb]
    intro hz
    have htop : limb s.a (s.n - 1) ≠ 0 := by
      intro htop
      exact hstale (by rw [State.Stale, htop, hzero, Nat.or_zero])
    have hle := le_absiz htop
    rw [hz, Nat.gcd_zero_right] at hgcd
    omega
  | divB _ hlt hdrop =>
    have hzero := hdrop.resolve_left hreg.whole
    have ha := mod_pow_of_limb_eq_zero (by omega) hs.a hzero
    refine ⟨_, if_neg ?_⟩
    rw [ha]
    intro hz
    have htop : limb s.b (s.n - 1) ≠ 0 := by
      intro htop
      exact hstale (by rw [State.Stale, htop, hzero, Nat.or_zero])
    have hle := le_absiz htop
    rw [hz, Nat.gcd_zero_left] at hgcd
    omega
  | sub => exact ⟨_, rfl⟩

theorem fits_init {a b : Mpz} (h : absiz a.natAbs ≤ absiz b.natAbs) : Fits (init a b) :=
  ⟨(lt_pow_absiz _).trans_le (Nat.pow_le_pow_right (by norm_num [limbBase]) h), lt_pow_absiz _⟩

theorem inv_init (a b : Mpz) : Inv a.natAbs b.natAbs (init a b) :=
  ⟨by simp [init], by simp [init], by simp [init]⟩

def rank : Option State → ℕ
  | none => 0
  | some s => s.a + s.b + 1

/-- The loop ends on every input, at the latest in undefined behaviour. -/
theorem loop_ends (hlaw : Hgcd2Law hgcd2) {target : ℕ} (ht : 1 ≤ target) {a b : Mpz}
    (h : absiz a.natAbs ≤ absiz b.natAbs) : ∃ o, loop hgcd2 target a b = some o := by
  have hround : ∀ o : Option State, (∀ s, o = some s → Fits s) → running target o = true →
      (∀ s, o.bind (State.step hgcd2) = some s → Fits s) ∧
        rank (o.bind (State.step hgcd2)) < rank o := by
    intro o ho hguard
    cases o with
    | none => simp [running] at hguard
    | some s =>
      have hn : target < s.n := of_decide_eq_true hguard
      have hcase := step_cases hlaw (by omega) (ho s rfl)
      change (∀ s', s.step hgcd2 = some s' → Fits s') ∧ rank (s.step hgcd2) < rank (some s)
      refine ⟨fun s' hs' => (hcase.shrinks hs' (ho s rfl)).1, ?_⟩
      cases hstep : s.step hgcd2 with
      | none => simp [rank]
      | some s' =>
        have hlt := (hcase.shrinks hstep (ho s rfl)).2
        simp only [rank]
        omega
  have hstart : ∀ s, some (init a b) = some s → Fits s :=
    fun s hs => Option.some.inj hs ▸ fits_init h
  obtain ⟨o, hrun, -, -⟩ :=
    WhileLoop.run_terminates rank hround hstart (le_refl (a.natAbs + b.natAbs + 1))
  exact ⟨o, hrun⟩

theorem loop_regular (hlaw : Hgcd2Law hgcd2) {target : ℕ} (ht : 1 ≤ target) {a b : Mpz}
    (h : absiz a.natAbs ≤ absiz b.natAbs)
    (hreg : ∀ s, Visited hgcd2 target a b s → target < s.n → s.Regular hgcd2)
    (hgcd : absiz (Int.gcd a b) ≤ target) :
    ∃ s, loop hgcd2 target a b = some (some s) ∧ Inv a.natAbs b.natAbs s ∧ Fits s ∧
      s.n ≤ target := by
  have hround : ∀ o, (∃ s, o = some s ∧ Visited hgcd2 target a b s ∧ Fits s ∧
      Inv a.natAbs b.natAbs s) → running target o = true →
      (∃ s, o.bind (State.step hgcd2) = some s ∧ Visited hgcd2 target a b s ∧ Fits s ∧
        Inv a.natAbs b.natAbs s) ∧ rank (o.bind (State.step hgcd2)) < rank o := by
    intro o ho hguard
    obtain ⟨s, rfl, hvisit, hs, hinv⟩ := ho
    have hn : target < s.n := of_decide_eq_true hguard
    have hcase := step_cases hlaw (by omega) hs
    obtain ⟨s', hstep⟩ := hcase.defined hn (by omega) hs (hreg s hvisit hn) hinv hgcd
    obtain ⟨hs', hlt⟩ := hcase.shrinks hstep hs
    have hnext := WhileLoop.Visits.next hvisit hguard
    refine ⟨⟨s', hstep, ?_, hs', hcase.inv hstep (by omega) hs (hreg s hvisit hn).whole hinv⟩, ?_⟩
    · rw [Visited, ← hstep]
      exact hnext
    · change rank (s.step hgcd2) < rank (some s)
      rw [hstep]
      simp only [rank]
      omega
  obtain ⟨o, hrun, ⟨s, rfl, -, hs, hinv⟩, hexit⟩ := WhileLoop.run_terminates rank hround
    ⟨_, rfl, WhileLoop.Visits.start, fits_init h, inv_init a b⟩
    (le_refl (a.natAbs + b.natAbs + 1))
  exact ⟨s, hrun, hinv, hs, not_lt.mp (of_decide_eq_false hexit)⟩

theorem finish_contract {a b : Mpz} {s : State} (h : Inv a.natAbs b.natAbs s) :
    (finish a b s).Contract a b := by
  obtain ⟨hleft, hright, hdet⟩ := h
  have hpos : 0 < s.u00 * s.u11 := by omega
  have h00 : (0 : ℤ) < s.u00 := by exact_mod_cast Nat.pos_of_mul_pos_right hpos
  have h11 : (0 : ℤ) < s.u11 := by exact_mod_cast Nat.pos_of_mul_pos_left hpos
  have hdet' : (s.u00 : ℤ) * s.u11 - s.u01 * s.u10 = 1 := by
    zify at hdet
    linarith
  have hleft' : (s.u00 : ℤ) * s.a + s.u01 * s.b = |a| := by
    rw [← Int.natCast_natAbs]
    exact_mod_cast hleft
  have hright' : (s.u10 : ℤ) * s.a + s.u11 * s.b = |b| := by
    rw [← Int.natCast_natAbs]
    exact_mod_cast hright
  by_cases ha : a < 0
  · rw [abs_of_neg ha] at hleft'
    by_cases hb : b < 0
    · rw [abs_of_neg hb] at hright'
      constructor <;> simp only [finish, ha, hb, decide_true, Bool.xor_self, Bool.false_eq_true,
        if_true, if_false] <;> linarith
    · rw [abs_of_nonneg (not_lt.mp hb)] at hright'
      constructor <;> simp only [finish, ha, hb, decide_true, decide_false, Bool.xor_true,
        Bool.not_false, Bool.false_eq_true, if_true, if_false] <;> linarith
  · rw [abs_of_nonneg (not_lt.mp ha)] at hleft'
    by_cases hb : b < 0
    · rw [abs_of_neg hb] at hright'
      constructor <;> simp only [finish, ha, hb, decide_true, decide_false, Bool.xor_false,
        Bool.false_eq_true, if_true, if_false] <;> linarith
    · rw [abs_of_nonneg (not_lt.mp hb)] at hright'
      constructor <;> simp only [finish, ha, hb, decide_false, Bool.xor_false,
        Bool.false_eq_true, if_false] <;> linarith

theorem natAbs_finish (a b : Mpz) (s : State) :
    (finish a b s).a.natAbs = s.a ∧ (finish a b s).b.natAbs = s.b := by
  by_cases ha : a < 0 <;> by_cases hb : b < 0 <;> simp [finish, ha, hb]

theorem ordered_contract (hlaw : Hgcd2Law hgcd2) {target : ℕ} (ht : 1 ≤ target) {a b : Mpz}
    (h : absiz a.natAbs ≤ absiz b.natAbs)
    (hreg : ∀ s, Visited hgcd2 target a b s → target < s.n → s.Regular hgcd2)
    (hgcd : absiz (Int.gcd a b) ≤ target) :
    ∃ e, ordered hgcd2 target a b = some e ∧ e.Contract a b ∧ absiz e.a.natAbs ≤ target ∧
      absiz e.b.natAbs ≤ target := by
  by_cases ha : a = 0
  · subst ha
    refine ⟨⟨1, 0, 0, 1, 0, b⟩, if_pos rfl, ⟨by ring, by ring, by ring, one_pos, one_pos⟩, ?_, ?_⟩
    · exact Nat.zero_le _
    · simpa using hgcd
  · obtain ⟨s, hrun, hinv, hs, hn⟩ := loop_regular hlaw ht h hreg hgcd
    obtain ⟨hna, hnb⟩ := natAbs_finish a b s
    refine ⟨finish a b s, by simp [ordered, ha, hrun], finish_contract hinv, ?_, ?_⟩
    · rw [hna]
      exact (absiz_le hs.a).trans hn
    · rw [hnb]
      exact (absiz_le hs.b).trans hn

theorem EuclidResult.Contract.swap {a b : Mpz} {e : EuclidResult} (h : e.Contract b a) :
    e.swap.Contract a b := by
  obtain ⟨hleft, hright, hdet, h00, h11⟩ := h
  refine ⟨?_, ?_, ?_, h11, h00⟩ <;> simp only [EuclidResult.swap] <;> linarith

end PartialEuclid

section

open PartialEuclid

variable {hgcd2 : ℕ → ℕ → ℕ → ℕ → Option HgcdMatrix1}

/-- The larger number, by its limbs, comes second. -/
def orderedPair (a b : Mpz) : Mpz × Mpz :=
  if absiz b.natAbs < absiz a.natAbs then (b, a) else (a, b)

/-- A call meets the contract of its comment where no state of its loop reads a zero top limb
pair or ignores a limb, and the common divisor has no more limbs than the target. -/
theorem partialEuclid_contract (hlaw : Hgcd2Law hgcd2) {target : ℕ} (ht : 1 ≤ target) (a b : Mpz)
    (hreg : ∀ s, Visited hgcd2 target (orderedPair a b).1 (orderedPair a b).2 s → target < s.n →
      s.Regular hgcd2)
    (hgcd : absiz (Int.gcd a b) ≤ target) :
    ∃ e, partialEuclid hgcd2 target a b = some e ∧ e.Contract a b ∧ absiz e.a.natAbs ≤ target ∧
      absiz e.b.natAbs ≤ target := by
  unfold orderedPair at hreg
  unfold partialEuclid
  by_cases h : absiz b.natAbs < absiz a.natAbs
  · rw [if_pos h] at hreg ⊢
    rw [Int.gcd_comm] at hgcd
    obtain ⟨e, he, hcontract, hea, heb⟩ := ordered_contract hlaw ht h.le hreg hgcd
    refine ⟨e.swap, ?_, EuclidResult.Contract.swap hcontract, heb, hea⟩
    rw [he]
    rfl
  · rw [if_neg h] at hreg ⊢
    exact ordered_contract hlaw ht (not_lt.mp h) hreg hgcd

theorem visited_three {s : State}
    (h : Visited (fun _ _ _ _ => none) 1 3 (2 ^ 64 + 7) s) :
    s = init 3 (2 ^ 64 + 7) ∨ s.n ≤ 1 := by
  have hstep : ∀ o : Option State, (o = some (init 3 (2 ^ 64 + 7)) ∨ ∃ s, o = some s ∧ s.n ≤ 1) →
      running 1 o = true → o.bind (State.step fun _ _ _ _ => none) = some (init 3 (2 ^ 64 + 7)) ∨
        ∃ s, o.bind (State.step fun _ _ _ _ => none) = some s ∧ s.n ≤ 1 := by
    intro o ho hguard
    rcases ho with rfl | ⟨s, rfl, hn⟩
    · exact Or.inr ⟨_, rfl, by decide +kernel⟩
    · exact absurd (of_decide_eq_true hguard) (not_lt.mpr hn)
  rcases WhileLoop.Visits.inv hstep h (Or.inl rfl) with hs | ⟨s', hs, hn⟩
  · exact Or.inl (Option.some.inj hs)
  · exact Or.inr (Option.some.inj hs ▸ hn)

theorem partialEuclid_contract_three : ∃ e,
    partialEuclid (fun _ _ _ _ => none) 1 3 (2 ^ 64 + 7) = some e ∧ e.Contract 3 (2 ^ 64 + 7) ∧
      absiz e.a.natAbs ≤ 1 ∧ absiz e.b.natAbs ≤ 1 := by
  refine partialEuclid_contract (fun _ _ _ _ _ _ _ _ _ _ _ h => by simp at h) (le_refl 1) 3 _ ?_
    (by decide)
  intro s hs hn
  have horder : orderedPair 3 (2 ^ 64 + 7) = (3, 2 ^ 64 + 7) := by decide
  rw [horder] at hs
  rcases visited_three hs with rfl | hle
  · constructor
    · unfold State.Stale
      decide +kernel
    · unfold State.Drops
      decide +kernel
  · omega

/-- A top limb of one beside a full one: the second row no longer gives back the second input. -/
example : (partialEuclid (fun _ _ _ _ => none) 1 (2 ^ 127 + 5) (2 ^ 64 + 3)).map
    (fun e => e.u10 * e.a + e.u11 * e.b) = some 3 := by decide +kernel

end

end RfClassGroups.Bicycl
