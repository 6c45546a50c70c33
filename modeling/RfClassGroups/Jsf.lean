import RfClassGroups.Lib.SignedDigits
import RfClassGroups.Nupow

/-! The joint sparse form of two exponents, and the exponentiation of two forms. A column
holds the digit of the first exponent in its low nibble and that of the second in its high
one; 3 is the digit -1. -/

namespace RfClassGroups.Bicycl

open SignedDigits

/-- The carry and the three bits of one exponent that the constructor keeps. -/
structure JsfRegister where
  d : Bool
  nj : Bool
  njp1 : Bool
  njp2 : Bool

namespace JsfRegister

def start (n : Mpz) : JsfRegister := ⟨false, tstbit n 0, tstbit n 1, tstbit n 2⟩

/-- `d + 2*njp1 + nj` is 2 modulo 4. -/
def flag (r : JsfRegister) : Bool := r.d == r.nj && (r.njp1 ^^ r.d)

/-- `b` is the flag of the other exponent. -/
def digit (r : JsfRegister) (b : Bool) : ℕ :=
  if r.d == r.nj then 0 else if r.njp1 ^^ ((r.njp2 ^^ r.njp1) && b) then 3 else 1

def next (r : JsfRegister) (b bit : Bool) : JsfRegister :=
  ⟨if r.d == r.nj then r.d else r.digit b >>> 1 == 1, r.njp1, r.njp2, bit⟩

end JsfRegister

/-- The registers at the head of round `j`. -/
def jsfRegisters (n0 n1 : Mpz) : ℕ → JsfRegister × JsfRegister
  | 0 => (.start n0, .start n1)
  | j + 1 =>
    let (r0, r1) := jsfRegisters n0 n1 j
    (r0.next r1.flag (tstbit n0 (j + 3)), r1.next r0.flag (tstbit n1 (j + 3)))

def jsfColumn (n0 n1 : Mpz) (j : ℕ) : ℕ :=
  let (r0, r1) := jsfRegisters n0 n1 j
  r1.digit r0.flag <<< 4 ||| r0.digit r1.flag

/-- `JSF::JSF`. -/
def jsf (n0 n1 : Mpz) : List ℕ :=
  let size := max (nbits n0) (nbits n1) + 1
  let columns := (List.range size).map (jsfColumn n0 n1)
  if columns.getD (size - 1) 0 = 0 then columns.take (size - 1) else columns

section

variable {Q : Type*} (ops : FormOps Q)

/-- One round of the main loop, with the tables `f0`, `f1`, `f0*f1`, `f0/f1`. -/
def jsfRound (tab0 tab1 tab2 tab3 : Q) (d : ℕ) (r : Q) : Q :=
  let r := ops.nudupl r
  if d = 0x01 then ops.nucomp r tab0 false
  else if d = 0x03 then ops.nucomp r tab0 true
  else if d = 0x10 then ops.nucomp r tab1 false
  else if d = 0x30 then ops.nucomp r tab1 true
  else if d = 0x11 then ops.nucomp r tab2 false
  else if d = 0x13 then ops.nucomp r tab3 true
  else if d = 0x31 then ops.nucomp r tab3 false
  else if d = 0x33 then ops.nucomp r tab2 true
  else r

/-- The first form; any other column leaves it unset. -/
def jsfFirst (tab0 tab1 tab2 : Q) (d : ℕ) : Option Q :=
  if d = 0x01 then some tab0 else if d = 0x10 then some tab1 else if d = 0x11 then some tab2 else none

/-- `QFI::nupow` of two forms. -/
def nupow2 (f0 : Q) (n0 : Mpz) (f1 : Q) (n1 : Mpz) : Option Q :=
  if n0 = 0 ∧ n1 = 0 then some ops.one
  else if n0 = 0 then nupow ops f1 n1
  else if n1 = 0 then nupow ops f0 n0
  else
    let tab2 := ops.nucomp f0 f1 false
    let tab3 := ops.nucomp f0 f1 true
    let columns := jsf n0 n1
    (jsfFirst f0 f1 tab2 (columns.getD (columns.length - 1) 0)).map
      ((columns.take (columns.length - 1)).foldr (jsfRound ops f0 f1 tab2 tab3))

end

/-- What a digit of a column stands for. -/
def digitValue (u : ℕ) : ℤ := if u = 1 then 1 else if u = 3 then -1 else 0

def lowValue (column : ℕ) : ℤ := digitValue (column % 16)

def highValue (column : ℕ) : ℤ := digitValue (column / 16)

/-- A register holds the bits of `n` from bit `j`. -/
structure JsfRegister.Holds (n j : ℕ) (r : JsfRegister) : Prop where
  nj : r.nj = n.testBit j
  njp1 : r.njp1 = n.testBit (j + 1)
  njp2 : r.njp2 = n.testBit (j + 2)

theorem JsfRegister.Holds.next {n j : ℕ} {r : JsfRegister} (h : r.Holds n j) (b : Bool) :
    (r.next b (n.testBit (j + 3))).Holds n (j + 1) :=
  ⟨h.njp1, h.njp2, rfl⟩

/-- A round splits off its digit and carries the rest. -/
theorem JsfRegister.Holds.carry {n j : ℕ} {r : JsfRegister} (h : r.Holds n j) (b bit : Bool) :
    ((n >>> j : ℕ) : ℤ) + r.d.toNat =
      digitValue (r.digit b) + 2 * ((n >>> (j + 1) : ℕ) + (r.next b bit).d.toNat) := by
  have hbit : n >>> j = 2 * (n >>> (j + 1)) + (n.testBit j).toNat := by
    rw [Nat.toNat_testBit, ← Nat.shiftRight_eq_div_pow, Nat.shiftRight_succ, Nat.div_add_mod]
  rw [hbit, ← h.nj]
  obtain ⟨d, nj, njp1, njp2⟩ := r
  simp only [JsfRegister.next, JsfRegister.digit, digitValue]
  push_cast
  cases d <;> cases nj
  · simp
  · by_cases hsign : (njp1 ^^ ((njp2 ^^ njp1) && b)) = true
    · simp [hsign]
      ring
    · simp [hsign]
      ring
  · by_cases hsign : (njp1 ^^ ((njp2 ^^ njp1) && b)) = true
    · simp [hsign]
      ring
    · simp [hsign]
      ring
  · simp
    ring

theorem digit_cases (r : JsfRegister) (b : Bool) :
    r.digit b = 0 ∨ r.digit b = 1 ∨ r.digit b = 3 := by
  unfold JsfRegister.digit
  split_ifs <;> simp

theorem column_eq {u0 : ℕ} (u1 : ℕ) (h0 : u0 = 0 ∨ u0 = 1 ∨ u0 = 3) :
    u1 <<< 4 ||| u0 = 16 * u1 + u0 := by
  have hlt : u0 < 2 ^ 4 := by omega
  rw [← Nat.shiftLeft_add_eq_or_of_lt hlt, Nat.shiftLeft_eq]
  ring

/-- The rounds of one exponent, whatever the flags of the other are. -/
structure JsfRun (n : ℕ) (R : ℕ → JsfRegister) (B : ℕ → Bool) : Prop where
  start : R 0 = .start n
  step : ∀ j, R (j + 1) = (R j).next (B j) (n.testBit (j + 3))

namespace JsfRun

variable {n : ℕ} {R : ℕ → JsfRegister} {B : ℕ → Bool}

theorem holds (h : JsfRun n R B) (j : ℕ) : (R j).Holds n j := by
  induction j with
  | zero =>
    rw [h.start]
    exact ⟨rfl, rfl, rfl⟩
  | succ j ih =>
    rw [h.step]
    exact ih.next _

/-- The digits so far and the carry are the exponent. -/
theorem sum (h : JsfRun n R B) (j : ℕ) :
    value ((List.range j).map fun i => digitValue ((R i).digit (B i))) +
      2 ^ j * ((n >>> j : ℕ) + (R j).d.toNat) = (n : ℤ) := by
  induction j with
  | zero => simp [h.start, JsfRegister.start]
  | succ j ih =>
    have hcarry := (h.holds j).carry (B j) (n.testBit (j + 3))
    rw [value_range_succ, smul_eq_mul, h.step, pow_succ]
    linear_combination ih - 2 ^ j * hcarry

theorem testBit_above {L i : ℕ} (hn : n < 2 ^ L) (hi : L ≤ i) : n.testBit i = false :=
  Nat.testBit_lt_two_pow (hn.trans_le (Nat.pow_le_pow_right two_pos hi))

/-- Above the length the next bit is zero, so the digit is no -1 and leaves no carry. -/
theorem digit_top (h : JsfRun n R B) {L j : ℕ} (hn : n < 2 ^ L) (hj : L ≤ j + 1) :
    (R j).digit (B j) = if (R j).d == n.testBit j then 0 else 1 := by
  have hh := h.holds j
  rw [JsfRegister.digit, hh.nj, hh.njp1, hh.njp2, testBit_above hn hj,
    testBit_above hn (show L ≤ j + 2 by omega)]
  simp

theorem carry_top (h : JsfRun n R B) {L : ℕ} (hn : n < 2 ^ L) : (R (L + 1)).d = false := by
  have hdigit := h.digit_top hn (Nat.le_succ L)
  rw [h.step, JsfRegister.next, hdigit, (h.holds L).nj, testBit_above hn le_rfl]
  cases (R L).d <;> simp

/-- The digits up to the length are the exponent. -/
theorem sum_top (h : JsfRun n R B) {L : ℕ} (hn : n < 2 ^ L) :
    value ((List.range (L + 1)).map fun i => digitValue ((R i).digit (B i))) = (n : ℤ) := by
  have hsum := h.sum (L + 1)
  have hzero : n >>> (L + 1) = 0 := by
    rw [Nat.shiftRight_eq_div_pow]
    exact Nat.div_eq_of_lt (hn.trans (Nat.pow_lt_pow_right one_lt_two (Nat.lt_succ_self L)))
  rw [h.carry_top hn, hzero] at hsum
  simpa using hsum

/-- Where the digit at the length is zero, the top bit is a digit 1. -/
theorem digit_of_top_bit (h : JsfRun n R B) {L : ℕ} (hn : n < 2 ^ (L + 1))
    (hbit : n.testBit L = true) (hzero : (R (L + 1)).digit (B (L + 1)) = 0) :
    (R L).digit (B L) = 1 := by
  rw [h.digit_top hn (by omega), testBit_above hn le_rfl] at hzero
  rw [h.digit_top hn le_rfl, hbit]
  rw [h.step, JsfRegister.next, (h.holds L).nj, hbit] at hzero
  cases hd : (R L).d with
  | false => rfl
  | true => simp [hd] at hzero

end JsfRun

section

variable (n0 n1 : ℕ)

theorem jsfRun_low : JsfRun n0 (fun j => (jsfRegisters n0 n1 j).1)
    (fun j => (jsfRegisters n0 n1 j).2.flag) :=
  ⟨rfl, fun _ => rfl⟩

theorem jsfRun_high : JsfRun n1 (fun j => (jsfRegisters n0 n1 j).2)
    (fun j => (jsfRegisters n0 n1 j).1.flag) :=
  ⟨rfl, fun _ => rfl⟩

theorem jsfColumn_eq (j : ℕ) : jsfColumn n0 n1 j =
    16 * (jsfRegisters n0 n1 j).2.digit (jsfRegisters n0 n1 j).1.flag +
      (jsfRegisters n0 n1 j).1.digit (jsfRegisters n0 n1 j).2.flag :=
  column_eq _ (digit_cases _ _)

theorem lowValue_column (j : ℕ) : lowValue (jsfColumn n0 n1 j) =
    digitValue ((jsfRegisters n0 n1 j).1.digit (jsfRegisters n0 n1 j).2.flag) := by
  have hlow := digit_cases (jsfRegisters n0 n1 j).1 (jsfRegisters n0 n1 j).2.flag
  rw [lowValue, jsfColumn_eq]
  congr 1
  omega

theorem highValue_column (j : ℕ) : highValue (jsfColumn n0 n1 j) =
    digitValue ((jsfRegisters n0 n1 j).2.digit (jsfRegisters n0 n1 j).1.flag) := by
  have hlow := digit_cases (jsfRegisters n0 n1 j).1 (jsfRegisters n0 n1 j).2.flag
  rw [highValue, jsfColumn_eq]
  congr 1
  omega

/-- The number of columns before a last zero is dropped is one more than this. -/
def jsfLength : ℕ := max (nbits n0) (nbits n1)

theorem lt_two_pow_jsfLength : n0 < 2 ^ jsfLength n0 n1 ∧ n1 < 2 ^ jsfLength n0 n1 := by
  have h0 : n0 < 2 ^ nbits n0 := Nat.lt_log2_self
  have h1 : n1 < 2 ^ nbits n1 := Nat.lt_log2_self
  exact ⟨h0.trans_le (Nat.pow_le_pow_right two_pos (le_max_left _ _)),
    h1.trans_le (Nat.pow_le_pow_right two_pos (le_max_right _ _))⟩

theorem jsf_eq : jsf n0 n1 = (List.range (if jsfColumn n0 n1 (jsfLength n0 n1) = 0
    then jsfLength n0 n1 else jsfLength n0 n1 + 1)).map (jsfColumn n0 n1) := by
  have hlast : ((List.range (jsfLength n0 n1 + 1)).map (jsfColumn n0 n1)).getD
      (jsfLength n0 n1) 0 = jsfColumn n0 n1 (jsfLength n0 n1) := by
    simp
  have htake : ((List.range (jsfLength n0 n1 + 1)).map (jsfColumn n0 n1)).take
      (jsfLength n0 n1) = (List.range (jsfLength n0 n1)).map (jsfColumn n0 n1) := by
    rw [List.range_succ, List.map_append, List.take_left']
    simp
  rw [jsf, ← jsfLength]
  simp only [Nat.add_sub_cancel]
  rw [hlast, htake]
  split <;> rfl

/-- The columns of the joint sparse form are the two exponents. -/
theorem jsf_values : value ((jsf n0 n1).map lowValue) = (n0 : ℤ) ∧
    value ((jsf n0 n1).map highValue) = (n1 : ℤ) := by
  obtain ⟨hn0, hn1⟩ := lt_two_pow_jsfLength n0 n1
  have hlow := (jsfRun_low n0 n1).sum_top hn0
  have hhigh := (jsfRun_high n0 n1).sum_top hn1
  simp only [← lowValue_column] at hlow
  simp only [← highValue_column] at hhigh
  rw [jsf_eq]
  split
  · next hzero =>
    rw [value_range_succ, hzero, lowValue, digitValue] at hlow
    rw [value_range_succ, hzero, highValue, digitValue] at hhigh
    rw [List.map_map, List.map_map]
    constructor
    · simpa [Function.comp_def] using hlow
    · simpa [Function.comp_def] using hhigh
  · rw [List.map_map, List.map_map]
    exact ⟨hlow, hhigh⟩

theorem testBit_nbits (hn : n0 ≠ 0) : n0.testBit (nbits n0 - 1) = true := by
  have htop := top_bit (show (n0 : Mpz) ≠ 0 by exact_mod_cast hn)
  rw [Int.natAbs_natCast] at htop
  rw [Nat.testBit_eq_decide_div_mod_eq, ← Nat.shiftRight_eq_div_pow, htop]
  rfl

theorem exists_top_bit (hn : n0 ≠ 0 ∨ n1 ≠ 0) :
    n0.testBit (jsfLength n0 n1 - 1) = true ∨ n1.testBit (jsfLength n0 n1 - 1) = true := by
  have hone : ∀ n : ℕ, nbits (0 : ℕ) ≤ nbits n := fun n => Nat.succ_le_succ (Nat.zero_le _)
  rcases le_total (nbits n0) (nbits n1) with hle | hle
  · rw [jsfLength, max_eq_right hle]
    by_cases h1 : n1 = 0
    · have h0 := hn.resolve_right (not_not.mpr h1)
      subst h1
      rw [← le_antisymm hle (hone n0)]
      exact Or.inl (testBit_nbits n0 h0)
    · exact Or.inr (testBit_nbits n1 h1)
  · rw [jsfLength, max_eq_left hle]
    by_cases h0 : n0 = 0
    · have h1 := hn.resolve_left (not_not.mpr h0)
      subst h0
      rw [← le_antisymm hle (hone n1)]
      exact Or.inr (testBit_nbits n1 h1)
    · exact Or.inl (testBit_nbits n0 h0)

/-- From the column below the length on, a column holds no digit -1. -/
theorem jsfColumn_top {j : ℕ} (hj : jsfLength n0 n1 ≤ j + 1) : jsfColumn n0 n1 j = 0x00 ∨
    jsfColumn n0 n1 j = 0x01 ∨ jsfColumn n0 n1 j = 0x10 ∨ jsfColumn n0 n1 j = 0x11 := by
  obtain ⟨hn0, hn1⟩ := lt_two_pow_jsfLength n0 n1
  have hlow := (jsfRun_low n0 n1).digit_top hn0 hj
  have hhigh := (jsfRun_high n0 n1).digit_top hn1 hj
  rw [jsfColumn_eq, hlow, hhigh]
  split <;> split <;> decide

/-- The last column of the form is not zero and holds no digit -1. -/
theorem jsf_top (hn : n0 ≠ 0 ∨ n1 ≠ 0) : ∃ columns top, jsf n0 n1 = columns ++ [top] ∧
    (top = 0x01 ∨ top = 0x10 ∨ top = 0x11) := by
  have hlength : jsfLength n0 n1 = jsfLength n0 n1 - 1 + 1 :=
    (Nat.succ_pred_eq_of_pos ((Nat.succ_pos _).trans_le (le_max_left _ _))).symm
  obtain ⟨hn0, hn1⟩ := lt_two_pow_jsfLength n0 n1
  have hbit := exists_top_bit n0 n1 hn
  rw [jsf_eq]
  by_cases hzero : jsfColumn n0 n1 (jsfLength n0 n1) = 0
  · rw [if_pos hzero]
    rw [hlength] at hn0 hn1 hzero ⊢
    generalize jsfLength n0 n1 - 1 = K at *
    rw [List.range_succ, List.map_append]
    refine ⟨_, _, rfl, (jsfColumn_top n0 n1 hlength.le).resolve_left ?_⟩
    rw [jsfColumn_eq] at hzero ⊢
    rcases hbit with hbit | hbit
    · have hone := (jsfRun_low n0 n1).digit_of_top_bit hn0 hbit (by omega)
      omega
    · have hone := (jsfRun_high n0 n1).digit_of_top_bit hn1 hbit (by omega)
      omega
  · rw [if_neg hzero, List.range_succ, List.map_append]
    exact ⟨_, _, rfl, (jsfColumn_top n0 n1 (Nat.le_succ _)).resolve_left hzero⟩

theorem jsfColumn_digits (j : ℕ) : ∃ u0 u1, jsfColumn n0 n1 j = 16 * u1 + u0 ∧
    (u0 = 0 ∨ u0 = 1 ∨ u0 = 3) ∧ (u1 = 0 ∨ u1 = 1 ∨ u1 = 3) :=
  ⟨_, _, jsfColumn_eq n0 n1 j, digit_cases _ _, digit_cases _ _⟩

end

section

variable {Q G : Type*} [CommGroup G] {ops : FormOps Q} {cls : Q → G}

theorem FormOps.Lawful.jsfRound_spec (h : ops.Lawful cls) (f0 f1 : Q) {u0 u1 : ℕ}
    (hu0 : u0 = 0 ∨ u0 = 1 ∨ u0 = 3) (hu1 : u1 = 0 ∨ u1 = 1 ∨ u1 = 3) (r : Q) :
    cls (jsfRound ops f0 f1 (ops.nucomp f0 f1 false) (ops.nucomp f0 f1 true) (16 * u1 + u0) r) =
      cls r * cls r * (cls f0 ^ digitValue u0 * cls f1 ^ digitValue u1) := by
  rcases hu0 with rfl | rfl | rfl <;> rcases hu1 with rfl | rfl | rfl <;>
    simp [jsfRound, h.nucomp, h.nudupl, digitValue, mul_comm]

/-- The form stands for the product of the two powers. -/
def JointPower (cls : Q → G) (f0 f1 r : Q) (a : ℤ × ℤ) : Prop :=
  cls r = cls f0 ^ a.1 * cls f1 ^ a.2

theorem jsfRound_jointPower (h : ops.Lawful cls) {f0 f1 : Q} {d u0 u1 : ℕ} (hd : d = 16 * u1 + u0)
    (hu0 : u0 = 0 ∨ u0 = 1 ∨ u0 = 3) (hu1 : u1 = 0 ∨ u1 = 1 ∨ u1 = 3) {r : Q} {a : ℤ × ℤ}
    (hr : JointPower cls f0 f1 r a) :
    JointPower cls f0 f1
      (jsfRound ops f0 f1 (ops.nucomp f0 f1 false) (ops.nucomp f0 f1 true) d r)
      ((lowValue d, highValue d) + (2 : ℤ) • a) := by
  have hlow : lowValue d = digitValue u0 := by
    rw [lowValue]
    congr 1
    omega
  have hhigh : highValue d = digitValue u1 := by
    rw [highValue]
    congr 1
    omega
  unfold JointPower at hr ⊢
  rw [hlow, hhigh, hd, h.jsfRound_spec f0 f1 hu0 hu1, hr]
  simp only [Prod.fst_add, Prod.snd_add, Prod.smul_fst, Prod.smul_snd, smul_eq_mul, zpow_add,
    two_mul]
  ac_rfl

theorem jsfFirst_jointPower (h : ops.Lawful cls) (f0 f1 : Q) {top : ℕ}
    (htop : top = 0x01 ∨ top = 0x10 ∨ top = 0x11) :
    ∃ r, jsfFirst f0 f1 (ops.nucomp f0 f1 false) top = some r ∧
      JointPower cls f0 f1 r (lowValue top, highValue top) := by
  unfold JointPower
  rcases htop with rfl | rfl | rfl
  · exact ⟨_, rfl, by simp [lowValue, highValue, digitValue]⟩
  · exact ⟨_, rfl, by simp [lowValue, highValue, digitValue]⟩
  · exact ⟨_, rfl, by simp [lowValue, highValue, digitValue, h.nucomp]⟩

/-- Two forms to two powers, for nonnegative exponents. The bits of one are counted where the
other is zero. -/
theorem nupow2_spec (h : ops.Lawful cls) (f0 f1 : Q) {n0 n1 : Mpz} (hn0 : 0 ≤ n0) (hn1 : 0 ≤ n1)
    (hfits0 : FitsInt n0) (hfits1 : FitsInt n1) :
    ∃ r, nupow2 ops f0 n0 f1 n1 = some r ∧ cls r = cls f0 ^ n0 * cls f1 ^ n1 := by
  unfold nupow2
  by_cases hboth : n0 = 0 ∧ n1 = 0
  · rw [if_pos hboth, hboth.1, hboth.2]
    exact ⟨_, rfl, by rw [h.one, zpow_zero, zpow_zero, one_mul]⟩
  rw [if_neg hboth]
  by_cases h0 : n0 = 0
  · obtain ⟨r, hr, hcls⟩ := nupow_spec h f1 hfits1
    rw [if_pos h0, h0]
    exact ⟨r, hr, by rw [hcls, zpow_zero, one_mul]⟩
  rw [if_neg h0]
  by_cases h1 : n1 = 0
  · obtain ⟨r, hr, hcls⟩ := nupow_spec h f0 hfits0
    rw [if_pos h1, h1]
    exact ⟨r, hr, by rw [hcls, zpow_zero, mul_one]⟩
  rw [if_neg h1]
  obtain ⟨n0, rfl⟩ := Int.eq_ofNat_of_zero_le hn0
  obtain ⟨n1, rfl⟩ := Int.eq_ofNat_of_zero_le hn1
  obtain ⟨columns, top, hjsf, htop⟩ := jsf_top n0 n1 (Or.inl (by exact_mod_cast h0))
  obtain ⟨hlow, hhigh⟩ := jsf_values n0 n1
  obtain ⟨r, hr, hpower⟩ := jsfFirst_jointPower h f0 f1 htop
  have hround : ∀ d ∈ columns, ∀ r a, JointPower cls f0 f1 r a → JointPower cls f0 f1
      (jsfRound ops f0 f1 (ops.nucomp f0 f1 false) (ops.nucomp f0 f1 true) d r)
      ((lowValue d, highValue d) + (2 : ℤ) • a) := by
    intro d hd r a hra
    have hmem : d ∈ jsf n0 n1 := hjsf ▸ List.mem_append_left _ hd
    rw [jsf_eq] at hmem
    obtain ⟨j, -, rfl⟩ := List.mem_map.mp hmem
    obtain ⟨u0, u1, hcolumn, hu0, hu1⟩ := jsfColumn_digits n0 n1 j
    exact jsfRound_jointPower h hcolumn hu0 hu1 hra
  have hfold := foldr_rep hpower hround
  have hvalue : value (columns.map fun d => (lowValue d, highValue d)) +
      (2 : ℤ) ^ columns.length • (lowValue top, highValue top) = ((n0 : ℤ), (n1 : ℤ)) := by
    rw [hjsf, List.map_append, value_append, List.length_map] at hlow hhigh
    have hfst := map_value (AddMonoidHom.fst ℤ ℤ) (columns.map fun d => (lowValue d, highValue d))
    have hsnd := map_value (AddMonoidHom.snd ℤ ℤ) (columns.map fun d => (lowValue d, highValue d))
    rw [List.map_map] at hfst hsnd
    apply Prod.ext
    · rw [← hlow, Prod.fst_add]
      exact congrArg₂ _ hfst (by simp)
    · rw [← hhigh, Prod.snd_add]
      exact congrArg₂ _ hsnd (by simp)
  rw [hvalue] at hfold
  simp only [hjsf, List.length_append, List.length_singleton, Nat.add_sub_cancel, List.take_left,
    List.getD_append_right _ _ _ _ le_rfl, Nat.sub_self, List.getD_cons_zero, hr, Option.map_some]
  exact ⟨_, rfl, hfold⟩

end

/-- Rounds of both registers on any bits leave a zero column within three. -/
theorem sparse_registers : ∀ d0 x0 y0 z0 d1 x1 y1 z1 a0 a1 c0 c1 : Bool,
    let r0 : JsfRegister := ⟨d0, x0, y0, z0⟩
    let r1 : JsfRegister := ⟨d1, x1, y1, z1⟩
    let s0 := r0.next r1.flag a0
    let s1 := r1.next r0.flag a1
    let t0 := s0.next s1.flag c0
    let t1 := s1.next s0.flag c1
    16 * r1.digit r0.flag + r0.digit r1.flag = 0 ∨ 16 * s1.digit s0.flag + s0.digit s1.flag = 0 ∨
      16 * t1.digit t0.flag + t0.digit t1.flag = 0 := by
  decide +kernel

/-- Of three neighbouring columns one is zero: this is what makes the form joint sparse. -/
theorem jsf_sparse (n0 n1 : ℕ) (j : ℕ) : (jsf n0 n1).getD j 0 = 0 ∨
    (jsf n0 n1).getD (j + 1) 0 = 0 ∨ (jsf n0 n1).getD (j + 2) 0 = 0 := by
  have hread : ∀ i, (jsf n0 n1).getD i 0 = 0 ∨ (jsf n0 n1).getD i 0 = jsfColumn n0 n1 i := by
    intro i
    rcases lt_or_ge i (jsf n0 n1).length with hi | hi
    · right
      rw [List.getD_eq_getElem _ _ hi]
      simp [jsf_eq]
    · exact Or.inl (List.getD_eq_default _ _ hi)
  obtain ⟨⟨d0, x0, y0, z0⟩, ⟨d1, x1, y1, z1⟩, hregisters⟩ :
      ∃ r0 r1, jsfRegisters n0 n1 j = (r0, r1) := ⟨_, _, rfl⟩
  have hcolumns := sparse_registers d0 x0 y0 z0 d1 x1 y1 z1 (n0.testBit (j + 3))
    (n1.testBit (j + 3)) (n0.testBit (j + 4)) (n1.testBit (j + 4))
  have h0 := jsfColumn_eq n0 n1 j
  have h1 := jsfColumn_eq n0 n1 (j + 1)
  have h2 := jsfColumn_eq n0 n1 (j + 2)
  simp only [jsfRegisters, hregisters] at h0 h1 h2
  rcases hcolumns with hzero | hzero | hzero
  · exact Or.inl ((hread j).elim id fun h => h.trans (h0.trans hzero))
  · exact Or.inr (Or.inl ((hread (j + 1)).elim id fun h => h.trans (h1.trans hzero)))
  · exact Or.inr (Or.inr ((hread (j + 2)).elim id fun h => h.trans (h2.trans hzero)))

namespace ClassGroup

variable {cl : ClassGroup}

end ClassGroup

end RfClassGroups.Bicycl
