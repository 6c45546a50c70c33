import RfClassGroups.Lib.Loops
import RfClassGroups.MpzBits
import RfClassGroups.Nucomp

/-! Exponentiation of forms by the windowed method wNAF*, left to right. Only what the
operations do to classes matters, so they are a record. -/

namespace RfClassGroups.Bicycl

open Loops

/-- The operations on forms that an exponentiation calls. -/
structure FormOps (Q : Type*) where
  one : Q
  nucomp : Q → Q → Bool → Q
  nudupl : Q → Q
  neg : Q → Q

/-- The operations compute in a group. -/
structure FormOps.Lawful {Q G : Type*} [CommGroup G] (ops : FormOps Q) (cls : Q → G) : Prop where
  one : cls ops.one = 1
  nucomp : ∀ f g negf2, cls (ops.nucomp f g negf2) = cls f * if negf2 then (cls g)⁻¹ else cls g
  nudupl : ∀ f, cls (ops.nudupl f) = cls f * cls f
  neg : ∀ f, cls (ops.neg f) = (cls f)⁻¹

def ClassGroup.ops (cl : ClassGroup) (E : Euclid) : FormOps cl.Elt where
  one := cl.oneElt
  nucomp := ClassGroup.nucompElt E
  nudupl := ClassGroup.nuduplElt E
  neg := ClassGroup.Elt.neg

theorem ClassGroup.ops_lawful (cl : ClassGroup) (E : Euclid) :
    (cl.ops E).Lawful (@ClassGroup.Elt.toClass cl) where
  one := ClassGroup.toClass_one cl
  nucomp := ClassGroup.toClass_nucomp E
  nudupl := ClassGroup.toClass_nudupl E
  neg := ClassGroup.toClass_neg

/-- `mpn_scan1(&t, 0)` of a nonzero limb. -/
def scan1 (t : ℕ) : ℕ := ((List.range 64).find? t.testBit).getD 64

def windowTau (w val2 : ℕ) : ℕ := if val2 < w then val2 else w - 1

/-- The number of doublings that follow a window, in unsigned arithmetic of 64 bits. -/
def windowDoublings (w tau : ℕ) (j : ℤ) : ℕ :=
  if size64 j < w - 1 then size64 (tau + 1 + j - w) else tau

/-- The index `j` is an `int`. -/
structure WindowState (Q : Type*) where
  r : Q
  j : ℤ
  c : ℕ

section

variable {Q : Type*} (ops : FormOps Q)

/-- `tab[i] = f^(2*i+1)` for `i < u`, from `ff = f^2`. -/
def oddPowers (f ff : Q) (u : ℕ) : List Q := List.iterate (ops.nucomp · ff false) f u

/-- `t == 2 ? ff : tab[t>>1]`; a table too short is undefined behaviour. -/
def windowPower (ff : Q) (tab : List Q) (t : ℕ) : Option Q :=
  if t = 2 then some ff else tab[t >>> 1]?

def windowStart (n : Mpz) (w : ℕ) (ff : Q) (tab : List Q) : Option (WindowState Q) :=
  let j := int32 (nbits n - 1)
  let m := extractBits n (size64 j) w
  let t := m + m % 2
  let tau := windowTau w (scan1 t)
  (windowPower ff tab (t >>> tau)).map fun g =>
    ⟨ops.nudupl^[windowDoublings w tau j] g, int32 (j - w), m % 2⟩

def windowStep (n : Mpz) (w : ℕ) (ff : Q) (tab : List Q) (s : WindowState Q) :
    Option (WindowState Q) :=
  let m := extractBits n (size64 s.j) w
  let dj := m >>> (w - 1) % 2
  let djmwp1 := m % 2
  if s.c = dj then some ⟨ops.nudupl s.r, int32 (s.j - 1), s.c⟩
  else
    let t := if s.c ≠ 0 then 2 ^ w - (m + djmwp1) else m + djmwp1
    let tau := windowTau w (if 0 < t then scan1 t else w - 1)
    let r := ops.nudupl^[w - tau] s.r
    (windowPower ff tab (t >>> tau)).map fun g =>
      ⟨ops.nudupl^[windowDoublings w tau s.j] (ops.nucomp r g (s.c ≠ 0)), int32 (s.j - w), djmwp1⟩

def windowRunning (o : Option (WindowState Q)) : Bool := o.any (0 ≤ ·.j)

/-- The last carry is taken back, and the sign of the exponent put. -/
def windowFinish (n : Mpz) (tab : List Q) (s : WindowState Q) : Option Q :=
  (if s.c ≠ 0 then (tab[0]?).map (ops.nucomp s.r · true) else some s.r).map
    fun r => if n < 0 then ops.neg r else r

/-- `QFI::nupow` with a window of `w` bits. -/
def nupowWindow (f : Q) (n : Mpz) (w : ℕ) : Option Q :=
  if n = 0 then some ops.one
  else
    let ff := ops.nudupl f
    let tab := oddPowers ops f ff (2 ^ (w - 2))
    let loop := WhileLoop.run windowRunning (·.bind (windowStep ops n w ff tab)) (nbits n)
      (windowStart ops n w ff tab)
    loop.join.bind (windowFinish ops n tab)

def windowSize (nbits : ℕ) : ℕ :=
  if nbits < 30 then 3
  else if nbits < 100 then 4
  else if nbits < 300 then 5
  else if nbits < 700 then 6
  else if nbits < 3000 then 7
  else 8

/-- `QFI::nupow`. -/
def nupow (f : Q) (n : Mpz) : Option Q := nupowWindow ops f n (windowSize (nbits n))

end

theorem scan1_spec {t : ℕ} (hpos : 0 < t) (hlt : t < 2 ^ 64) :
    2 ^ scan1 t * (t >>> scan1 t) = t ∧ (t >>> scan1 t) % 2 = 1 := by
  obtain ⟨k, hk⟩ := Nat.exists_testBit_of_ne_zero hpos.ne'
  have hk64 : k < 64 := by
    by_contra hge
    have hpow : t < 2 ^ k := hlt.trans_le (Nat.pow_le_pow_right (by norm_num) (not_lt.mp hge))
    rw [Nat.testBit_lt_two_pow hpow] at hk
    exact Bool.false_ne_true hk
  cases hfind : (List.range 64).find? t.testBit with
  | none =>
    have hno := List.find?_eq_none.mp hfind k (List.mem_range.mpr hk64)
    exact absurd hk hno
  | some i =>
    obtain ⟨hi, -, hbelow⟩ := List.find?_range_eq_some.mp hfind
    have hscan : scan1 t = i := by rw [scan1, hfind, Option.getD_some]
    have hzero : t % 2 ^ i = 0 := by
      apply Nat.eq_of_testBit_eq
      intro l
      rw [Nat.testBit_mod_two_pow, Nat.zero_testBit]
      by_cases hl : l < i
      · simp [hl, Bool.eq_false_of_not_eq_true' (hbelow l hl)]
      · simp [hl]
    rw [hscan, Nat.shiftRight_eq_div_pow]
    constructor
    · exact Nat.mul_div_cancel' (Nat.dvd_of_mod_eq_zero hzero)
    · have hbit := Nat.testBit_eq_decide_div_mod_eq (x := t) (i := i)
      rw [hi] at hbit
      exact of_decide_eq_true hbit.symm

/-- What a window says of an even number `T`: a power of two times 2 or an odd number of the
table. -/
structure WindowDigit (w T tau d : ℕ) : Prop where
  lt : tau < w
  eq : 2 ^ tau * d = T
  entry : d = 2 ∨ d % 2 = 1 ∧ d >>> 1 < 2 ^ (w - 2)
  greatest : ∀ p < w, 2 ^ p ∣ T → p ≤ tau

theorem windowDigit {w T : ℕ} (hw : 2 ≤ w) (hw' : w < 64) (hlow : 2 ^ (w - 1) ≤ T)
    (hhigh : T ≤ 2 ^ w) (heven : T % 2 = 0) :
    WindowDigit w T (windowTau w (scan1 T)) (T >>> windowTau w (scan1 T)) := by
  have hhalf : 2 ^ w = 2 * 2 ^ (w - 1) := by
    rw [← pow_succ', show w - 1 + 1 = w by omega]
  have hpos : 0 < T := (Nat.two_pow_pos _).trans_le hlow
  obtain ⟨hfactor, hodd⟩ := scan1_spec hpos
    (hhigh.trans_lt (Nat.pow_lt_pow_right (by norm_num) hw'))
  by_cases htop : scan1 T < w
  · rw [windowTau, if_pos htop]
    have hscan : scan1 T ≠ 0 := by
      intro h0
      rw [h0, Nat.shiftRight_zero] at hodd
      omega
    generalize T >>> scan1 T = q at *
    generalize scan1 T = i at *
    subst hfactor
    refine ⟨htop, rfl, Or.inr ⟨hodd, ?_⟩, ?_⟩
    · have hle : 2 * q ≤ 2 ^ i * q := Nat.mul_le_mul_right q (Nat.le_self_pow hscan 2)
      have hquarter : 2 ^ (w - 1) = 2 * 2 ^ (w - 2) := by
        rw [← pow_succ', show w - 2 + 1 = w - 1 by omega]
      rw [Nat.shiftRight_one]
      omega
    · intro p _ hdvd
      by_contra hlt
      rw [← Nat.add_sub_cancel' (not_le.mp hlt).le, pow_add] at hdvd
      have hq := (dvd_pow_self 2 (show p - i ≠ 0 by omega)).trans
        (Nat.dvd_of_mul_dvd_mul_left (Nat.two_pow_pos i) hdvd)
      omega
  · rw [windowTau, if_neg htop]
    have hT : T = 2 ^ w := by
      apply le_antisymm hhigh
      rw [← hfactor]
      have hq : 0 < T >>> scan1 T := Nat.pos_of_ne_zero (by
        intro h0
        rw [h0] at hodd
        omega)
      exact (Nat.pow_le_pow_right (by norm_num) (not_lt.mp htop)).trans (Nat.le_mul_of_pos_right _ hq)
    have hshift : T >>> (w - 1) = 2 := by
      rw [hT, hhalf, Nat.shiftRight_eq_div_pow, Nat.mul_div_cancel _ (Nat.two_pow_pos _)]
    rw [hshift]
    exact ⟨by omega, by omega, Or.inl rfl, fun p hp _ => by omega⟩

theorem two_pow_mul_shiftRight (x : ℕ) {p a : ℕ} (h : p ≤ a) : (2 ^ p * x) >>> a = x >>> (a - p) := by
  rw [Nat.shiftRight_eq_div_pow, Nat.shiftRight_eq_div_pow, ← Nat.add_sub_cancel' h, pow_add,
    Nat.mul_div_mul_left _ _ (Nat.two_pow_pos p), Nat.add_sub_cancel_left]

/-- A window keeps the bits it stands for. -/
theorem extractBits_window (n : Mpz) (j : ℕ) {w : ℕ} (hw : 1 ≤ w) (hw' : w < 64) :
    2 ^ (w - 1 - j) * (n.natAbs >>> (j + 1 - w)) =
      2 ^ w * (n.natAbs >>> (j + 1)) + extractBits n j w := by
  have hdiv := two_pow_mul_shiftRight (n.natAbs >>> (j + 1 - w)) (show w - 1 - j ≤ w by omega)
  rw [← Nat.shiftRight_add, show j + 1 - w + (w - (w - 1 - j)) = j + 1 by omega,
    Nat.shiftRight_eq_div_pow] at hdiv
  rw [extractBits_eq n hw hw', ← hdiv, Nat.div_add_mod]

/-- The first bit of a window is the bit at its index. -/
theorem extractBits_top (n : Mpz) (j : ℕ) {w : ℕ} (hw : 1 ≤ w) (hw' : w < 64) :
    n.natAbs >>> j = 2 * (n.natAbs >>> (j + 1)) + extractBits n j w >>> (w - 1) % 2 := by
  have hdiv := two_pow_mul_shiftRight (n.natAbs >>> (j + 1 - w)) (show w - 1 - j ≤ w - 1 by omega)
  rw [← Nat.shiftRight_add, show j + 1 - w + (w - 1 - (w - 1 - j)) = j by omega] at hdiv
  have hhalf : 2 ^ w = 2 ^ (w - 1) * 2 := by rw [← pow_succ, show w - 1 + 1 = w by omega]
  rw [extractBits_eq n hw hw', Nat.shiftRight_eq_div_pow _ (w - 1), hhalf, Nat.mod_mul_right_div_self,
    Nat.mod_mod, ← Nat.shiftRight_eq_div_pow, hdiv, Nat.shiftRight_succ, Nat.div_add_mod]

theorem extractBits_lt (n : Mpz) (j : ℕ) {w : ℕ} (hw : 1 ≤ w) (hw' : w < 64) :
    extractBits n j w < 2 ^ w := by
  rw [extractBits_eq n hw hw']
  exact Nat.mod_lt _ (Nat.two_pow_pos w)

/-- The bits that a window reads below bit 0 are zeros. -/
theorem padding_dvd (n : Mpz) (j : ℕ) {w : ℕ} (hw : 1 ≤ w) (hw' : w < 64) :
    2 ^ (w - 1 - j) ∣ extractBits n j w := by
  have hsum := extractBits_window n j hw hw'
  have hw2 : 2 ^ (w - 1 - j) ∣ 2 ^ w * (n.natAbs >>> (j + 1)) :=
    (Nat.pow_dvd_pow 2 (by omega)).trans (dvd_mul_right _ _)
  exact (Nat.dvd_add_right hw2).mp (hsum ▸ dvd_mul_right _ _)

theorem low_bit_of_padding (n : Mpz) {j w : ℕ} (hj : j + 1 < w) (hw' : w < 64) :
    extractBits n j w % 2 = 0 := by
  apply Nat.mod_eq_zero_of_dvd
  exact (dvd_pow_self 2 (show w - 1 - j ≠ 0 by omega)).trans (padding_dvd n j (by omega) hw')

/-- The number that a window stands for: what is left of the bits after the carry `c`. -/
def windowValue (w c m : ℕ) : ℕ := if c ≠ 0 then 2 ^ w - (m + m % 2) else m + m % 2

theorem windowValue_bounds {w c m : ℕ} (hw : 2 ≤ w) (hm : m < 2 ^ w) (hc : c < 2)
    (hne : c ≠ m >>> (w - 1) % 2) :
    2 ^ (w - 1) ≤ windowValue w c m ∧ windowValue w c m ≤ 2 ^ w ∧ windowValue w c m % 2 = 0 := by
  have hhalf : 2 ^ w = 2 * 2 ^ (w - 1) := by
    rw [← pow_succ', show w - 1 + 1 = w by omega]
  have hquarter : 2 ^ (w - 1) = 2 * 2 ^ (w - 2) := by
    rw [← pow_succ', show w - 2 + 1 = w - 1 by omega]
  rw [Nat.shiftRight_eq_div_pow] at hne
  unfold windowValue
  rcases lt_or_ge m (2 ^ (w - 1)) with hlt | hge
  · rw [Nat.div_eq_of_lt hlt] at hne
    rw [if_pos (by omega)]
    omega
  · have hdiv : m / 2 ^ (w - 1) = 1 := by
      apply Nat.div_eq_of_lt_le
      · omega
      · omega
    rw [hdiv] at hne
    rw [if_neg (by omega)]
    omega

/-- An index that is a bit of an exponent is read as it is. -/
theorem size64_index {j : ℕ} (hj : j < 2 ^ 31) : size64 j = j :=
  size64_of_lt (Int.natCast_nonneg j) (by omega)

theorem windowDoublings_eq {w tau j : ℕ} (hpad : w - 1 - j ≤ tau) (hlt : tau < w) (hw' : w < 64)
    (hj : j < 2 ^ 31) : windowDoublings w tau j = tau - (w - 1 - j) := by
  unfold windowDoublings
  rw [size64_index hj]
  by_cases h : j < w - 1
  · rw [if_pos h, size64_of_lt (by omega) (by omega)]
    omega
  · rw [if_neg h]
    omega

/-- One window moves the exponent from the bits above it to the bits above its end. -/
theorem window_exponent (n : Mpz) (j : ℕ) {w c tau d : ℕ} (hw : 2 ≤ w) (hw' : w < 64)
    (hc : c < 2) (hne : c ≠ extractBits n j w >>> (w - 1) % 2)
    (hd : WindowDigit w (windowValue w c (extractBits n j w)) tau d) :
    w - 1 - j ≤ tau ∧
    (((n.natAbs >>> (j + 1) + c : ℕ) : ℤ) * 2 ^ (w - tau) + (if c ≠ 0 then -(d : ℤ) else d)) *
      2 ^ (tau - (w - 1 - j)) =
        ((n.natAbs >>> (j + 1 - w) + extractBits n j w % 2 : ℕ) : ℤ) := by
  have hm := extractBits_lt n j (by omega) hw'
  have hsum := extractBits_window n j (by omega) hw'
  have hpad := padding_dvd n j (by omega) hw'
  have hlow : w - 1 - j ≠ 0 → extractBits n j w % 2 = 0 :=
    fun h => low_bit_of_padding n (by omega) hw'
  generalize extractBits n j w = m at *
  generalize n.natAbs >>> (j + 1) = e at *
  generalize n.natAbs >>> (j + 1 - w) = e' at *
  generalize hp : w - 1 - j = p at *
  obtain ⟨hlower, hupper, heven⟩ := windowValue_bounds hw hm hc hne
  have hdvd : 2 ^ p ∣ windowValue w c m := by
    by_cases h0 : p = 0
    · rw [h0, pow_zero]
      exact one_dvd _
    · unfold windowValue
      rw [hlow h0, Nat.add_zero]
      split
      · exact Nat.dvd_sub (Nat.pow_dvd_pow 2 (by omega)) hpad
      · exact hpad
  have hle := hd.greatest p (by omega) hdvd
  refine ⟨hle, ?_⟩
  have hpow : (2 : ℤ) ^ p * 2 ^ (tau - p) = 2 ^ tau := by
    rw [← pow_add, Nat.add_sub_cancel' hle]
  have hpow' : (2 : ℤ) ^ tau * 2 ^ (w - tau) = 2 ^ w := by
    rw [← pow_add, Nat.add_sub_cancel' hd.lt.le]
  have hcarry : 2 ^ p * (m % 2) = m % 2 := by
    by_cases h0 : p = 0
    · rw [h0, pow_zero, one_mul]
    · rw [hlow h0, mul_zero]
  have hvalue : ((e + c : ℕ) : ℤ) * 2 ^ w + (if c ≠ 0 then -(windowValue w c m : ℤ)
      else windowValue w c m) = 2 ^ p * ((e' + m % 2 : ℕ) : ℤ) := by
    unfold windowValue at hlower ⊢
    zify at hsum hcarry
    by_cases h0 : c = 0
    · subst h0
      simp only [ne_eq, not_true_eq_false, if_false]
      push_cast
      linear_combination -hsum - hcarry
    · have h1 : c = 1 := by omega
      subst h1
      have hpos := Nat.two_pow_pos (w - 1)
      simp only [ne_eq, one_ne_zero, not_false_eq_true, if_true] at hlower ⊢
      have hle' : m + m % 2 ≤ 2 ^ w := by omega
      rw [Nat.cast_sub hle']
      push_cast
      linear_combination -hsum - hcarry
  have hdz : (2 : ℤ) ^ tau * d = windowValue w c m := by exact_mod_cast hd.eq
  apply mul_left_cancel₀ (pow_ne_zero p (two_ne_zero (α := ℤ)))
  rw [← hvalue, ← hdz]
  split
  · linear_combination ((e + c : ℕ) * 2 ^ (w - tau) - (d : ℤ)) * hpow + ((e + c : ℕ) : ℤ) * hpow'
  · linear_combination ((e + c : ℕ) * 2 ^ (w - tau) + (d : ℤ)) * hpow + ((e + c : ℕ) : ℤ) * hpow'

section

variable {Q G : Type*} [CommGroup G] {ops : FormOps Q} {cls : Q → G}

theorem FormOps.Lawful.nudupl_iterate (h : ops.Lawful cls) (f : Q) (k : ℕ) :
    cls (ops.nudupl^[k] f) = cls f ^ 2 ^ k := by
  induction k with
  | zero => rw [Function.iterate_zero_apply, pow_zero, pow_one]
  | succ k ih => rw [Function.iterate_succ_apply', h.nudupl, ih, ← pow_add, pow_succ, mul_two]

theorem FormOps.Lawful.getElem?_oddPowers (h : ops.Lawful cls) (f : Q) {i u : ℕ} (hi : i < u) :
    ∃ g, (oddPowers ops f (ops.nudupl f) u)[i]? = some g ∧ cls g = cls f ^ (2 * i + 1) := by
  refine ⟨_, List.getElem?_iterate _ _ _ _ hi, ?_⟩
  clear hi
  induction i with
  | zero => rw [Function.iterate_zero_apply, mul_zero, zero_add, pow_one]
  | succ i ih =>
    rw [Function.iterate_succ_apply', h.nucomp, ih, h.nudupl]
    simp only [Bool.false_eq_true, if_false]
    rw [← pow_two, ← pow_add]
    congr 1

theorem FormOps.Lawful.windowPower_eq (h : ops.Lawful cls) (f : Q) {d u : ℕ}
    (hd : d = 2 ∨ d % 2 = 1 ∧ d >>> 1 < u) :
    ∃ g, windowPower (ops.nudupl f) (oddPowers ops f (ops.nudupl f) u) d = some g ∧
      cls g = cls f ^ d := by
  unfold windowPower
  by_cases h2 : d = 2
  · rw [if_pos h2]
    exact ⟨_, rfl, by rw [h.nudupl, h2, pow_two]⟩
  · obtain ⟨hodd, hlt⟩ := hd.resolve_left h2
    obtain ⟨g, hg, hcls⟩ := h.getElem?_oddPowers f hlt
    rw [if_neg h2]
    refine ⟨g, hg, ?_⟩
    rw [hcls, Nat.shiftRight_one]
    congr 1
    omega

/-- The form stands for the power by the bits read so far, the carry added. -/
structure WindowState.Inv (cls : Q → G) (g : G) (N : ℕ) (s : WindowState Q) : Prop where
  index : s.j < 2 ^ 31
  carry : s.c < 2
  power : cls s.r = g ^ (N >>> (s.j + 1).toNat + s.c)

theorem window_power (g : G) (e d : ℤ) (x y : ℕ) {k : ℤ} (h : (e * 2 ^ x + d) * 2 ^ y = k) :
    ((g ^ e) ^ 2 ^ x * g ^ d) ^ 2 ^ y = g ^ k := by
  rw [← h, zpow_mul, zpow_add, zpow_mul]
  norm_cast

theorem windowStep_spec (h : ops.Lawful cls) {f : Q} {n : Mpz} {w : ℕ} (hw : 2 ≤ w) (hw' : w < 64)
    {s : WindowState Q} (hs : s.Inv cls (cls f) n.natAbs) (hj : 0 ≤ s.j) :
    ∃ s', windowStep ops n w (ops.nudupl f) (oddPowers ops f (ops.nudupl f) (2 ^ (w - 2))) s =
      some s' ∧ s'.Inv cls (cls f) n.natAbs ∧ s'.j < s.j := by
  obtain ⟨r, j, c⟩ := s
  obtain ⟨hindex, hc, hr⟩ := hs
  obtain ⟨j, rfl⟩ := Int.eq_ofNat_of_zero_le hj
  dsimp only at hindex
  have hlt : j < 2 ^ 31 := by exact_mod_cast hindex
  have hsucc : ((j : ℤ) + 1).toNat = j + 1 := by omega
  have hone : int32 ((j : ℤ) - 1) = j - 1 := int32_of_lt (by omega) (by omega)
  have hwindow : int32 ((j : ℤ) - w) = j - w := int32_of_lt (by omega) (by omega)
  simp only [hsucc] at hc hr
  simp only [windowStep, size64_index hlt, hone, hwindow]
  by_cases heq : c = extractBits n j w >>> (w - 1) % 2
  · rw [if_pos heq]
    refine ⟨_, rfl, ⟨by simp only; omega, hc, ?_⟩, by simp only; omega⟩
    have hbit := extractBits_top n j (show 1 ≤ w by omega) hw'
    rw [← heq] at hbit
    have hpred : ((j : ℤ) - 1 + 1).toNat = j := by omega
    simp only [hpred]
    rw [h.nudupl, hr, hbit, ← pow_add]
    congr 1
    omega
  · rw [if_neg heq]
    have hm := extractBits_lt n j (show 1 ≤ w by omega) hw'
    obtain ⟨hlow, hup, heven⟩ := windowValue_bounds hw hm hc heq
    have hpos := (Nat.two_pow_pos (w - 1)).trans_le hlow
    have hd := windowDigit hw hw' hlow hup heven
    obtain ⟨hpad, hexp⟩ := window_exponent n j hw hw' hc heq hd
    have hvalue : (if c ≠ 0 then 2 ^ w - (extractBits n j w + extractBits n j w % 2)
        else extractBits n j w + extractBits n j w % 2) = windowValue w c (extractBits n j w) := rfl
    rw [hvalue, if_pos hpos]
    generalize windowValue w c (extractBits n j w) = T at *
    generalize T >>> windowTau w (scan1 T) = d at *
    generalize windowTau w (scan1 T) = tau at *
    obtain ⟨g, hg, hcls⟩ := h.windowPower_eq f hd.entry
    rw [hg]
    refine ⟨_, rfl, ⟨by simp only; omega, Nat.mod_lt _ two_pos, ?_⟩, by simp only; omega⟩
    have hshift : ((j : ℤ) - w + 1).toNat = j + 1 - w := by omega
    simp only [hshift]
    rw [h.nudupl_iterate, h.nucomp, h.nudupl_iterate, hr, hcls,
      windowDoublings_eq hpad hd.lt hw' hlt]
    have hh := window_power (cls f) _ _ _ _ hexp
    rw [zpow_natCast, zpow_natCast] at hh
    rw [← hh]
    by_cases h0 : c = 0
    · simp [h0]
    · simp [h0]

theorem shiftRight_nbits (n : Mpz) : n.natAbs >>> nbits n = 0 := by
  rw [Nat.shiftRight_eq_div_pow]
  exact Nat.div_eq_of_lt Nat.lt_log2_self

theorem top_bit {n : Mpz} (hn : n ≠ 0) : n.natAbs >>> (nbits n - 1) = 1 := by
  have hne := Int.natAbs_ne_zero.mpr hn
  have hpow : 2 ^ nbits n = 2 * 2 ^ n.natAbs.log2 := pow_succ' 2 _
  have hlow := Nat.log2_self_le hne
  have hup : n.natAbs < 2 ^ nbits n := Nat.lt_log2_self
  rw [Nat.shiftRight_eq_div_pow, nbits, Nat.add_sub_cancel]
  apply Nat.div_eq_of_lt_le
  · rwa [one_mul]
  · rwa [one_add_one_eq_two, ← hpow]

theorem windowStart_spec (h : ops.Lawful cls) {f : Q} {n : Mpz} (hn : n ≠ 0) (hfits : FitsInt n)
    {w : ℕ} (hw : 2 ≤ w) (hw' : w < 64) :
    ∃ s, windowStart ops n w (ops.nudupl f) (oddPowers ops f (ops.nudupl f) (2 ^ (w - 2))) =
      some s ∧ s.Inv cls (cls f) n.natAbs ∧ s.j < nbits n := by
  have hbits : 1 ≤ nbits n := Nat.le_add_left 1 _
  have hlt : nbits n - 1 < 2 ^ 31 := Nat.sub_one_lt_of_le hbits hfits
  have hpred : int32 ((nbits n : ℤ) - 1) = ((nbits n - 1 : ℕ) : ℤ) := by
    rw [int32_of_lt (by omega) (by omega)]
    omega
  have hwindow : int32 (((nbits n - 1 : ℕ) : ℤ) - w) = ((nbits n - 1 : ℕ) : ℤ) - w :=
    int32_of_lt (by omega) (by omega)
  have htop := extractBits_top n (nbits n - 1) (show 1 ≤ w by omega) hw'
  rw [Nat.sub_add_cancel hbits, shiftRight_nbits, top_bit hn] at htop
  have hm := extractBits_lt n (nbits n - 1) (show 1 ≤ w by omega) hw'
  have hne : 0 ≠ extractBits n (nbits n - 1) w >>> (w - 1) % 2 := by omega
  obtain ⟨hlow, hup, heven⟩ := windowValue_bounds hw hm two_pos hne
  have hd := windowDigit hw hw' hlow hup heven
  obtain ⟨hpad, hexp⟩ := window_exponent n (nbits n - 1) hw hw' two_pos hne hd
  have hvalue : extractBits n (nbits n - 1) w + extractBits n (nbits n - 1) w % 2 =
      windowValue w 0 (extractBits n (nbits n - 1) w) := rfl
  unfold windowStart
  rw [hpred]
  simp only [size64_index hlt, hwindow]
  rw [hvalue]
  generalize windowValue w 0 (extractBits n (nbits n - 1) w) = T at *
  generalize T >>> windowTau w (scan1 T) = d at *
  generalize windowTau w (scan1 T) = tau at *
  obtain ⟨g, hg, hcls⟩ := h.windowPower_eq f hd.entry
  rw [hg]
  refine ⟨_, rfl, ⟨by simp only; omega, Nat.mod_lt _ two_pos, ?_⟩, by simp only; omega⟩
  have hshift : (((nbits n - 1 : ℕ) : ℤ) - w + 1).toNat = nbits n - 1 + 1 - w := by omega
  simp only [hshift]
  rw [h.nudupl_iterate, hcls, windowDoublings_eq hpad hd.lt hw' hlt, ← pow_mul]
  congr 1
  rw [Nat.sub_add_cancel hbits, shiftRight_nbits] at hexp
  simp only [ne_eq, not_true_eq_false, if_false, Nat.cast_zero, zero_mul, zero_add] at hexp
  exact_mod_cast hexp

theorem windowFinish_spec (h : ops.Lawful cls) {f : Q} {n : Mpz} {w : ℕ} {s : WindowState Q}
    (hc : s.c < 2) (hr : cls s.r = cls f ^ (n.natAbs + s.c)) :
    ∃ r, windowFinish ops n (oddPowers ops f (ops.nudupl f) (2 ^ (w - 2))) s = some r ∧
      cls r = cls f ^ n := by
  have htable : (oddPowers ops f (ops.nudupl f) (2 ^ (w - 2)))[0]? = some f :=
    List.getElem?_iterate _ _ _ _ (Nat.two_pow_pos _)
  have hcarry : ∃ r, (if s.c ≠ 0 then ((oddPowers ops f (ops.nudupl f) (2 ^ (w - 2)))[0]?).map
      (ops.nucomp s.r · true) else some s.r) = some r ∧ cls r = cls f ^ n.natAbs := by
    by_cases hc0 : s.c = 0
    · rw [if_neg (not_not.mpr hc0)]
      exact ⟨_, rfl, by rw [hr, hc0, Nat.add_zero]⟩
    · rw [if_pos hc0, htable]
      refine ⟨_, rfl, ?_⟩
      have hc1 : s.c = 1 := by omega
      rw [h.nucomp, hr, hc1, pow_succ, if_pos rfl, mul_inv_cancel_right]
  obtain ⟨r, hr, hcls⟩ := hcarry
  rw [windowFinish, hr]
  refine ⟨_, rfl, ?_⟩
  by_cases hsign : n < 0
  · have habs := Int.ofNat_natAbs_of_nonpos hsign.le
    rw [← neg_eq_iff_eq_neg] at habs
    simp only [if_pos hsign]
    rw [h.neg, hcls, ← habs, zpow_neg, zpow_natCast, habs]
  · have habs := Int.natAbs_of_nonneg (not_lt.mp hsign)
    simp only [if_neg hsign]
    rw [hcls, ← zpow_natCast, habs]

/-- Exponentiation gives the power, for every window that fits in a limb and every exponent whose
bits the index can count. -/
theorem nupowWindow_spec (h : ops.Lawful cls) (f : Q) {n : Mpz} (hfits : FitsInt n) {w : ℕ}
    (hw : 2 ≤ w) (hw' : w < 64) :
    ∃ r, nupowWindow ops f n w = some r ∧ cls r = cls f ^ n := by
  unfold nupowWindow
  by_cases hn : n = 0
  · rw [if_pos hn]
    exact ⟨_, rfl, by rw [h.one, hn, zpow_zero]⟩
  · rw [if_neg hn]
    obtain ⟨s, hs, hinv, hlt⟩ := windowStart_spec h hn hfits hw hw'
    have hround : ∀ s : WindowState Q, s.Inv cls (cls f) n.natAbs → decide (0 ≤ s.j) = true →
        ∃ s', windowStep ops n w (ops.nudupl f) (oddPowers ops f (ops.nudupl f) (2 ^ (w - 2))) s =
          some s' ∧ s'.Inv cls (cls f) n.natAbs ∧ (s'.j + 1).toNat < (s.j + 1).toNat := by
      intro s hs hguard
      have hj := of_decide_eq_true hguard
      obtain ⟨s', hstep, hs', hlt⟩ := windowStep_spec h hw hw' hs hj
      exact ⟨s', hstep, hs', by omega⟩
    obtain ⟨s', hrun, ⟨-, hc, hpower⟩, hexit⟩ := WhileLoop.run_partial
      (fun s : WindowState Q => (s.j + 1).toNat) hround hinv (show (s.j + 1).toNat ≤ nbits n by omega)
    have hneg := of_decide_eq_false hexit
    have hzero : (s'.j + 1).toNat = 0 := by omega
    rw [hzero, Nat.shiftRight_zero] at hpower
    have hloop : WhileLoop.run windowRunning (·.bind (windowStep ops n w (ops.nudupl f)
        (oddPowers ops f (ops.nudupl f) (2 ^ (w - 2))))) (nbits n) (some s) = some (some s') := hrun
    simp only [hs, hloop, Option.join_some, Option.bind_some]
    exact windowFinish_spec h hc hpower

theorem windowSize_bounds (k : ℕ) : 2 ≤ windowSize k ∧ windowSize k < 64 := by
  unfold windowSize
  split_ifs <;> omega

theorem nupow_spec (h : ops.Lawful cls) (f : Q) {n : Mpz} (hfits : FitsInt n) :
    ∃ r, nupow ops f n = some r ∧ cls r = cls f ^ n :=
  nupowWindow_spec h f hfits (windowSize_bounds _).1 (windowSize_bounds _).2

end

namespace ClassGroup

variable {cl : ClassGroup}

/-- A Euclid that stops at once. -/
def idleEuclid : Euclid where
  run _ a b := ⟨1, 0, 0, 1, a, b⟩
  contract _ _ _ _ _ := ⟨by ring, by ring, by ring, one_pos, one_pos⟩

end ClassGroup

end RfClassGroups.Bicycl
