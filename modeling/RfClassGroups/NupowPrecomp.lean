import RfClassGroups.Jsf

/-! Exponentiation with precomputed powers: a comb of two teeth over the joint sparse
form of the two halves of the exponent. A form that nothing was assigned to is `none`. -/

namespace RfClassGroups.Bicycl

open SignedDigits

structure QFIPrecomp (Q : Type*) where
  d : ℕ
  e : ℕ
  ge : Option Q
  gd : Option Q
  gde : Q

section

variable {Q : Type*} (ops : FormOps Q)

def QFIPrecomp.round (s : QFIPrecomp Q) (i : ℕ) : QFIPrecomp Q :=
  { s with
    ge := if i = s.e then some s.gde else s.ge
    gd := if i = s.d then some s.gde else s.gd
    gde := ops.nudupl s.gde }

def evenUp (d : ℕ) : ℕ := if d % 2 ≠ 0 then d + 1 else d

/-- `QFIPrecomp::QFIPrecomp`. -/
def QFIPrecomp.of (g : Q) (expBitsize : ℕ) : QFIPrecomp Q :=
  let d := evenUp ((expBitsize + 1) / 2)
  let e := d / 2
  (List.range (d + e)).foldl (QFIPrecomp.round ops) ⟨d, e, none, none, g⟩

def nucompEntries (f g : Option Q) (negf2 : Bool) : Option Q :=
  f.bind fun f => g.map fun g => ops.nucomp f g negf2

def combEntries (pow3 : ℕ) (tab : ℕ → Option Q) (k : ℕ) : ℕ → Option Q :=
  let tab := Function.update tab (pow3 + k) (nucompEntries ops (tab (pow3 - 1)) (tab k) false)
  Function.update tab (pow3 - k - 2) (nucompEntries ops (tab (pow3 - 1)) (tab k) true)

def combLevels : ℕ → ℕ → ℕ → (ℕ → Option Q) → ℕ → Option Q
  | 0, _, _, tab => tab
  | i + 1, B, pow3, tab =>
    combLevels i (B + pow3) (pow3 * 3) ((List.range B).foldl (combEntries ops pow3) tab)

/-- `tab[i]` is the power by the digits of `i + 1` in base 3 with digits -1, 0, 1. -/
def combTable (f gd ge gde : Option Q) : ℕ → Option Q :=
  combLevels ops 3 1 3 fun i =>
    if i = 0 then f else if i = 2 then gd else if i = 8 then ge else if i = 26 then gde else none

def combTerm (dig neg pos : ℕ) (weight : ℤ) : ℤ :=
  if dig &&& neg ≠ 0 then -weight else if dig &&& pos ≠ 0 then weight else 0

/-- Address decoding. -/
def combIndex (digl digh : ℕ) : ℤ :=
  combTerm digl 0x02 0x01 1 + combTerm digl 0x20 0x10 3 + combTerm digh 0x02 0x01 9 +
    combTerm digh 0x20 0x10 27

def combCompose (tab : ℕ → Option Q) (digl digh : ℕ) (r : Q) : Option Q :=
  if digh ≠ 0 ∨ digl ≠ 0 then
    let idx := combIndex digl digh
    (tab (idx.natAbs - 1)).map fun g => ops.nucomp r g (idx < 0)
  else some r

def combRound (tab : ℕ → Option Q) (jsf : List ℕ) (e i : ℕ) (r : Option Q) : Option Q :=
  r.bind fun r => combCompose ops tab (jsf.getD i 0) (jsf.getD (e + i) 0) (ops.nudupl r)

/-- `QFI::nupow` with precomputations. -/
def nupowPrecomp (f : Q) (n : Mpz) (pre : QFIPrecomp Q) : Option Q :=
  if n = 0 then some ops.one
  else if nbits n < pre.e then nupow ops f n
  else
    let nLow := mod2k n pre.d
    let nHigh := divby2k n pre.d
    let extra := if 2 * pre.d < nbits n then divby2k nHigh pre.d else 0
    let nHigh := if 2 * pre.d < nbits n then mod2k nHigh pre.d else nHigh
    let jsf := jsf nLow nHigh
    let tab := combTable ops (some f) pre.gd pre.ge (some pre.gde)
    let r :=
      if 2 * pre.e < jsf.length then
        combCompose ops tab 0 (jsf.getD (2 * pre.e) 0) (ops.nudupl ops.one)
      else some ops.one
    let r :=
      if extra ≠ 0 then
        r.bind fun r => (nupowWindow ops pre.gde extra 5).map fun g => ops.nucomp r g false
      else r
    (List.range pre.e).foldr (combRound ops tab jsf pre.e) r

end

/-- The exponents of `f`, `gd`, `ge` and `gde` in a power. -/
abbrev CombVector : Type := ℤ × ℤ × ℤ × ℤ

def CombVector.ops : FormOps CombVector where
  one := 0
  nucomp v w negf2 := if negf2 then v - w else v + w
  nudupl v := v + v
  neg v := -v

/-- The table of exponents. -/
def combVectors : ℕ → Option CombVector :=
  combTable CombVector.ops (some (1, 0, 0, 0)) (some (0, 1, 0, 0)) (some (0, 0, 1, 0))
    (some (0, 0, 0, 1))

def digitOf : Fin 3 → ℕ
  | 0 => 0
  | 1 => 1
  | 2 => 3

/-- Every pair of columns finds its exponents in the table. -/
theorem combCompose_vectors : ∀ l0 l1 h0 h1 : Fin 3,
    combCompose CombVector.ops combVectors (16 * digitOf l1 + digitOf l0)
      (16 * digitOf h1 + digitOf h0) 0 = some (digitValue (digitOf l0), digitValue (digitOf l1),
        digitValue (digitOf h0), digitValue (digitOf h1)) := by
  decide +kernel

section

variable {Q G : Type*} [CommGroup G] {ops : FormOps Q} {cls : Q → G}

/-- The power that a vector of exponents stands for. -/
def CombVector.power (F : G) (d e : ℕ) (v : CombVector) : G :=
  F ^ (v.1 + 2 ^ d * v.2.1 + 2 ^ e * v.2.2.1 + 2 ^ (d + e) * v.2.2.2)

theorem CombVector.power_nucomp (F : G) (d e : ℕ) (v w : CombVector) (negf2 : Bool) :
    (CombVector.ops.nucomp v w negf2).power F d e =
      v.power F d e * if negf2 then (w.power F d e)⁻¹ else w.power F d e := by
  unfold CombVector.power
  cases negf2 with
  | false =>
    simp only [ops, Bool.false_eq_true, if_false, ← zpow_add]
    congr 1
    simp only [Prod.fst_add, Prod.snd_add]
    ring
  | true =>
    simp only [ops, if_true, ← zpow_neg, ← zpow_add]
    congr 1
    simp only [Prod.fst_sub, Prod.snd_sub]
    ring

/-- A form is there when its exponents are, and stands for them. -/
def Tabulated (cls : Q → G) (F : G) (d e : ℕ) (o : Option Q) (v : Option CombVector) : Prop :=
  ∀ w, v = some w → ∃ g, o = some g ∧ cls g = w.power F d e

variable {F : G} {d e : ℕ}

theorem Tabulated.nucompEntries (h : ops.Lawful cls) {o o' : Option Q} {v v' : Option CombVector}
    (ho : Tabulated cls F d e o v) (ho' : Tabulated cls F d e o' v') (negf2 : Bool) :
    Tabulated cls F d e (nucompEntries ops o o' negf2)
      (Bicycl.nucompEntries CombVector.ops v v' negf2) := by
  intro w hw
  cases v with
  | none => simp [Bicycl.nucompEntries] at hw
  | some v =>
    cases v' with
    | none => simp [Bicycl.nucompEntries] at hw
    | some v' =>
      obtain ⟨g, rfl, hg⟩ := ho v rfl
      obtain ⟨g', rfl, hg'⟩ := ho' v' rfl
      obtain rfl := Option.some.inj hw
      exact ⟨_, rfl, by rw [h.nucomp, hg, hg', CombVector.power_nucomp]⟩

theorem tabulated_combEntries (h : ops.Lawful cls) {tab : ℕ → Option Q}
    {vectors : ℕ → Option CombVector} (htab : ∀ i, Tabulated cls F d e (tab i) (vectors i))
    (pow3 k i : ℕ) : Tabulated cls F d e (combEntries ops pow3 tab k i)
      (combEntries CombVector.ops pow3 vectors k i) := by
  have hfirst : ∀ i, Tabulated cls F d e
      (Function.update tab (pow3 + k) (nucompEntries ops (tab (pow3 - 1)) (tab k) false) i)
      (Function.update vectors (pow3 + k)
        (nucompEntries CombVector.ops (vectors (pow3 - 1)) (vectors k) false) i) := by
    intro i
    by_cases hi : i = pow3 + k
    · rw [hi, Function.update_self, Function.update_self]
      exact (htab _).nucompEntries h (htab _) false
    · rw [Function.update_of_ne hi, Function.update_of_ne hi]
      exact htab i
  unfold combEntries
  by_cases hi : i = pow3 - k - 2
  · rw [hi, Function.update_self, Function.update_self]
    exact (hfirst _).nucompEntries h (hfirst _) true
  · rw [Function.update_of_ne hi, Function.update_of_ne hi]
    exact hfirst i

theorem tabulated_combLevels (h : ops.Lawful cls) (levels B pow3 : ℕ) {tab : ℕ → Option Q}
    {vectors : ℕ → Option CombVector} (htab : ∀ i, Tabulated cls F d e (tab i) (vectors i)) (i : ℕ) :
    Tabulated cls F d e (combLevels ops levels B pow3 tab i)
      (combLevels CombVector.ops levels B pow3 vectors i) := by
  induction levels generalizing B pow3 tab vectors with
  | zero => exact htab i
  | succ levels ih =>
    apply ih
    induction B with
    | zero => exact htab
    | succ B ihB =>
      rw [List.range_succ, List.foldl_append, List.foldl_append]
      exact tabulated_combEntries h ihB pow3 B

theorem tabulated_combTable (h : ops.Lawful cls) {f gd ge gde : Q} (hgd : cls gd = cls f ^ 2 ^ d)
    (hge : cls ge = cls f ^ 2 ^ e) (hgde : cls gde = cls f ^ 2 ^ (d + e)) (i : ℕ) :
    Tabulated cls (cls f) d e (combTable ops (some f) (some gd) (some ge) (some gde) i)
      (combVectors i) := by
  apply tabulated_combLevels h
  intro i w hw
  split_ifs at hw ⊢
  · obtain rfl := Option.some.inj hw
    exact ⟨f, rfl, by simp [CombVector.power]⟩
  · obtain rfl := Option.some.inj hw
    exact ⟨gd, rfl, by simp [CombVector.power, hgd, ← zpow_natCast]⟩
  · obtain rfl := Option.some.inj hw
    exact ⟨ge, rfl, by simp [CombVector.power, hge, ← zpow_natCast]⟩
  · obtain rfl := Option.some.inj hw
    exact ⟨gde, rfl, by simp [CombVector.power, hgde, ← zpow_natCast]⟩

theorem CombVector.power_zero (F : G) (d e : ℕ) : (0 : CombVector).power F d e = 1 := by
  simp [CombVector.power]

theorem exists_digitOf {u : ℕ} (hu : u = 0 ∨ u = 1 ∨ u = 3) : ∃ i, digitOf i = u := by
  rcases hu with rfl | rfl | rfl
  · exact ⟨0, rfl⟩
  · exact ⟨1, rfl⟩
  · exact ⟨2, rfl⟩

/-- A pair of columns multiplies by the powers of its digits. -/
theorem combCompose_spec (h : ops.Lawful cls) {tab : ℕ → Option Q}
    (htab : ∀ i, Tabulated cls F d e (tab i) (combVectors i)) {u0 u1 v0 v1 : ℕ}
    (hu0 : u0 = 0 ∨ u0 = 1 ∨ u0 = 3) (hu1 : u1 = 0 ∨ u1 = 1 ∨ u1 = 3)
    (hv0 : v0 = 0 ∨ v0 = 1 ∨ v0 = 3) (hv1 : v1 = 0 ∨ v1 = 1 ∨ v1 = 3) (r : Q) :
    ∃ r', combCompose ops tab (16 * u1 + u0) (16 * v1 + v0) r = some r' ∧
      cls r' = cls r * CombVector.power F d e
        (digitValue u0, digitValue u1, digitValue v0, digitValue v1) := by
  obtain ⟨i0, rfl⟩ := exists_digitOf hu0
  obtain ⟨i1, rfl⟩ := exists_digitOf hu1
  obtain ⟨j0, rfl⟩ := exists_digitOf hv0
  obtain ⟨j1, rfl⟩ := exists_digitOf hv1
  have hvector := combCompose_vectors i0 i1 j0 j1
  unfold combCompose at hvector ⊢
  split_ifs at hvector ⊢
  · obtain ⟨w, hw, hsum⟩ := Option.map_eq_some_iff.mp hvector
    obtain ⟨g, hg, hcls⟩ := htab _ w hw
    dsimp only
    rw [hg]
    refine ⟨_, rfl, ?_⟩
    rw [← hsum, CombVector.power_nucomp, CombVector.power_zero, one_mul, h.nucomp, hcls]
  · rw [← Option.some.inj hvector, CombVector.power_zero, mul_one]
    exact ⟨r, rfl, rfl⟩

/-- The precomputed forms are the powers that the comb needs. -/
structure QFIPrecomp.Valid (cls : Q → G) (f : Q) (pre : QFIPrecomp Q) : Prop where
  pos : 1 ≤ pre.e
  half : pre.d = pre.e + pre.e
  ge : ∃ g, pre.ge = some g ∧ cls g = cls f ^ 2 ^ pre.e
  gd : ∃ g, pre.gd = some g ∧ cls g = cls f ^ 2 ^ pre.d
  gde : cls pre.gde = cls f ^ 2 ^ (pre.d + pre.e)

/-- After `k` squarings. -/
structure QFIPrecomp.Squared (cls : Q → G) (f : Q) (d e k : ℕ) (s : QFIPrecomp Q) : Prop where
  d_eq : s.d = d
  e_eq : s.e = e
  ge : e < k → ∃ g, s.ge = some g ∧ cls g = cls f ^ 2 ^ e
  gd : d < k → ∃ g, s.gd = some g ∧ cls g = cls f ^ 2 ^ d
  gde : cls s.gde = cls f ^ 2 ^ k

theorem QFIPrecomp.squared_round (h : ops.Lawful cls) {f : Q} {k : ℕ} {s : QFIPrecomp Q}
    (hs : s.Squared cls f d e k) : (s.round ops k).Squared cls f d e (k + 1) := by
  obtain ⟨hd, he, hge, hgd, hgde⟩ := hs
  refine ⟨hd, he, fun hk => ?_, fun hk => ?_, ?_⟩
  · by_cases heq : k = e
    · exact ⟨s.gde, by rw [QFIPrecomp.round, he, if_pos heq], heq ▸ hgde⟩
    · obtain ⟨g, hg, hcls⟩ := hge (by omega)
      exact ⟨g, by rw [QFIPrecomp.round, he, if_neg heq, hg], hcls⟩
  · by_cases heq : k = d
    · exact ⟨s.gde, by rw [QFIPrecomp.round, hd, if_pos heq], heq ▸ hgde⟩
    · obtain ⟨g, hg, hcls⟩ := hgd (by omega)
      exact ⟨g, by rw [QFIPrecomp.round, hd, if_neg heq, hg], hcls⟩
  · rw [QFIPrecomp.round, h.nudupl, hgde, ← pow_add, pow_succ, mul_two]

theorem QFIPrecomp.valid_of (h : ops.Lawful cls) (f : Q) {expBitsize : ℕ} (hbits : 1 ≤ expBitsize) :
    (QFIPrecomp.of ops f expBitsize).Valid cls f := by
  have heven : evenUp ((expBitsize + 1) / 2) = evenUp ((expBitsize + 1) / 2) / 2 +
      evenUp ((expBitsize + 1) / 2) / 2 ∧ 1 ≤ evenUp ((expBitsize + 1) / 2) / 2 := by
    unfold evenUp
    split <;> omega
  unfold QFIPrecomp.of
  generalize evenUp ((expBitsize + 1) / 2) = d at *
  dsimp only
  generalize d / 2 = e at *
  have hrun : ∀ k, ((List.range k).foldl (QFIPrecomp.round ops) ⟨d, e, none, none, f⟩).Squared
      cls f d e k := by
    intro k
    induction k with
    | zero => exact ⟨rfl, rfl, by simp, by simp, by simp⟩
    | succ k ih =>
      rw [List.range_succ, List.foldl_append]
      exact QFIPrecomp.squared_round h ih
  obtain ⟨hd, he, hge, hgd, hgde⟩ := hrun (d + e)
  refine ⟨by omega, by omega, ?_, ?_, ?_⟩
  · rw [he]
    exact hge (by omega)
  · rw [hd]
    exact hgd (by omega)
  · rw [hd, he]
    exact hgde

theorem jsf_getD_digits (n0 n1 : ℕ) (i : ℕ) : ∃ u0 u1, (jsf n0 n1).getD i 0 = 16 * u1 + u0 ∧
    (u0 = 0 ∨ u0 = 1 ∨ u0 = 3) ∧ (u1 = 0 ∨ u1 = 1 ∨ u1 = 3) := by
  rcases lt_or_ge i (jsf n0 n1).length with hi | hi
  · have hmem := List.getElem_mem hi
    rw [← List.getD_eq_getElem _ 0 hi, jsf_eq] at hmem
    obtain ⟨j, -, hj⟩ := List.mem_map.mp hmem
    rw [jsf_eq, ← hj]
    exact jsfColumn_digits n0 n1 j
  · rw [List.getD_eq_default _ _ hi]
    exact ⟨0, 0, rfl, Or.inl rfl, Or.inl rfl⟩

theorem length_jsf {n0 n1 d : ℕ} (hd : 1 ≤ d) (h0 : n0 < 2 ^ d) (h1 : n1 < 2 ^ d) :
    (jsf n0 n1).length ≤ d + 1 := by
  have hlen : jsfLength n0 n1 ≤ d := max_le (nbits_le hd h0) (nbits_le hd h1)
  rw [jsf_eq, List.length_map, List.length_range]
  split <;> omega

/-- The exponent of a pair of columns. -/
def combExponent (d e : ℕ) (jsf : List ℕ) (i : ℕ) : ℤ :=
  lowValue (jsf.getD i 0) + 2 ^ d * highValue (jsf.getD i 0) + 2 ^ e * lowValue (jsf.getD (e + i) 0) +
    2 ^ (d + e) * highValue (jsf.getD (e + i) 0)

def StandsFor (cls : Q → G) (F : G) (o : Option Q) (a : ℤ) : Prop := ∃ r, o = some r ∧ cls r = F ^ a

theorem columnValues {c u0 u1 : ℕ} (hc : c = 16 * u1 + u0) (hu0 : u0 = 0 ∨ u0 = 1 ∨ u0 = 3) :
    lowValue c = digitValue u0 ∧ highValue c = digitValue u1 := by
  rw [lowValue, highValue]
  constructor
  · congr 1
    omega
  · congr 1
    omega

theorem combRound_spec (h : ops.Lawful cls) {tab : ℕ → Option Q}
    (htab : ∀ i, Tabulated cls F d e (tab i) (combVectors i)) (n0 n1 i : ℕ) {o : Option Q} {a : ℤ}
    (ho : StandsFor cls F o a) : StandsFor cls F (combRound ops tab (jsf n0 n1) e i o)
      (combExponent d e (jsf n0 n1) i + (2 : ℤ) • a) := by
  obtain ⟨r, rfl, hr⟩ := ho
  obtain ⟨u0, u1, hdigl, hu0, hu1⟩ := jsf_getD_digits n0 n1 i
  obtain ⟨v0, v1, hdigh, hv0, hv1⟩ := jsf_getD_digits n0 n1 (e + i)
  obtain ⟨r', hr', hcls⟩ := combCompose_spec h htab hu0 hu1 hv0 hv1 (ops.nudupl r)
  obtain ⟨hlow, hlow'⟩ := columnValues hdigl hu0
  obtain ⟨hhigh, hhigh'⟩ := columnValues hdigh hv0
  refine ⟨r', ?_, ?_⟩
  · rw [combRound, Option.bind_some, hdigl, hdigh, hr']
  · rw [hcls, h.nudupl, hr, ← zpow_add, CombVector.power, ← zpow_add, combExponent, hlow, hlow',
      hhigh, hhigh', smul_eq_mul]
    congr 1
    ring

/-- The pairs of columns and the digit above them are the two halves. -/
theorem combExponent_sum {n0 n1 : ℕ} (hlen : (jsf n0 n1).length ≤ e + e + 1) :
    value ((List.range e).map (combExponent d e (jsf n0 n1))) +
      2 ^ e * (2 ^ e * lowValue ((jsf n0 n1).getD (e + e) 0) +
        2 ^ (d + e) * highValue ((jsf n0 n1).getD (e + e) 0)) = n0 + 2 ^ d * n1 := by
  obtain ⟨hlow, hhigh⟩ := jsf_values n0 n1
  rw [← value_getD (show lowValue 0 = 0 from rfl) _ hlen, value_range_succ, value_range_add] at hlow
  rw [← value_getD (show highValue 0 = 0 from rfl) _ hlen, value_range_succ, value_range_add]
    at hhigh
  have hsplit : combExponent d e (jsf n0 n1) = fun i =>
      lowValue ((jsf n0 n1).getD i 0) + (2 : ℤ) ^ d • highValue ((jsf n0 n1).getD i 0) +
        (2 : ℤ) ^ e • lowValue ((jsf n0 n1).getD (e + i) 0) +
        (2 : ℤ) ^ (d + e) • highValue ((jsf n0 n1).getD (e + i) 0) := rfl
  rw [hsplit, value_map_add, value_map_add, value_map_add, value_map_smul, value_map_smul,
    value_map_smul]
  simp only [smul_eq_mul, pow_add] at hlow hhigh ⊢
  linear_combination hlow + 2 ^ d * hhigh

/-- The extra bits of an exponent of more than `2*d` bits, and its two halves. -/
theorem exponent_parts (N d : ℕ) :
    ∃ low high extra : ℕ, low < 2 ^ d ∧ high < 2 ^ d ∧ N = low + 2 ^ d * (high + 2 ^ d * extra) ∧
      mod2k N d = low ∧
      (if 2 * d < nbits N then divby2k (divby2k N d) d else 0) = extra ∧
      (if 2 * d < nbits N then mod2k (divby2k N d) d else divby2k N d) = high := by
  have hmod : mod2k N d = (N % 2 ^ d : ℕ) := by
    rw [mod2k]
    norm_cast
  have hdiv : divby2k N d = (N / 2 ^ d : ℕ) := by
    rw [divby2k]
    norm_cast
  have hlow := Nat.mod_lt N (Nat.two_pow_pos d)
  have hsum := Nat.mod_add_div N (2 ^ d)
  by_cases hlong : 2 * d < nbits N
  · have hmod' : mod2k (N / 2 ^ d : ℕ) d = (N / 2 ^ d % 2 ^ d : ℕ) := by
      rw [mod2k]
      norm_cast
    have hdiv' : divby2k (N / 2 ^ d : ℕ) d = (N / 2 ^ d / 2 ^ d : ℕ) := by
      rw [divby2k]
      norm_cast
    rw [if_pos hlong, if_pos hlong, hdiv, hmod', hdiv']
    refine ⟨_, _, _, hlow, Nat.mod_lt _ (Nat.two_pow_pos d), ?_, hmod, rfl, rfl⟩
    rw [Nat.mod_add_div, hsum]
  · rw [if_neg hlong, if_neg hlong, hdiv]
    refine ⟨_, _, 0, hlow, ?_, ?_, hmod, rfl, rfl⟩
    · have hN : N < 2 ^ nbits N := Nat.lt_log2_self
      have hle := Nat.pow_le_pow_right two_pos (not_lt.mp hlong)
      rw [Nat.div_lt_iff_lt_mul (Nat.two_pow_pos d), ← pow_add, ← two_mul]
      exact hN.trans_le hle
    · rw [mul_zero, add_zero, hsum]

/-- The digit above the comb. -/
theorem combFirst_spec (h : ops.Lawful cls) {tab : ℕ → Option Q}
    (htab : ∀ i, Tabulated cls F d e (tab i) (combVectors i)) (n0 n1 : ℕ) :
    StandsFor cls F
      (if 2 * e < (jsf n0 n1).length then
        combCompose ops tab 0 ((jsf n0 n1).getD (2 * e) 0) (ops.nudupl ops.one)
      else some ops.one)
      (2 ^ e * lowValue ((jsf n0 n1).getD (e + e) 0) +
        2 ^ (d + e) * highValue ((jsf n0 n1).getD (e + e) 0)) := by
  rw [two_mul]
  by_cases hlong : e + e < (jsf n0 n1).length
  · rw [if_pos hlong]
    obtain ⟨v0, v1, hdigh, hv0, hv1⟩ := jsf_getD_digits n0 n1 (e + e)
    obtain ⟨r, hr, hcls⟩ :=
      combCompose_spec h htab (Or.inl rfl) (Or.inl rfl) hv0 hv1 (ops.nudupl ops.one)
    obtain ⟨hlow, hhigh⟩ := columnValues hdigh hv0
    rw [hlow, hhigh]
    refine ⟨r, by rw [hdigh, ← hr], ?_⟩
    rw [hcls, h.nudupl, h.one, one_mul, one_mul, CombVector.power, digitValue]
    simp
  · rw [if_neg hlong, List.getD_eq_default _ _ (not_lt.mp hlong)]
    refine ⟨_, rfl, ?_⟩
    simp [h.one, lowValue, highValue, digitValue]

/-- The bits above the two halves. -/
theorem combExtra_spec (h : ops.Lawful cls) {gde : Q} (hgde : cls gde = F ^ 2 ^ (d + e)) {extra : ℕ}
    (hfits : FitsInt extra) {o : Option Q} {a : ℤ} (ho : StandsFor cls F o a) :
    StandsFor cls F
      (if (extra : Mpz) ≠ 0 then
        o.bind fun r => (nupowWindow ops gde extra 5).map fun g => ops.nucomp r g false
      else o) (a + 2 ^ (d + e) * extra) := by
  by_cases h0 : (extra : Mpz) = 0
  · rw [if_neg (not_not.mpr h0), h0, mul_zero, add_zero]
    exact ho
  · rw [if_pos h0]
    obtain ⟨r, rfl, hr⟩ := ho
    obtain ⟨g, hg, hcls⟩ := nupowWindow_spec h gde hfits (show 2 ≤ 5 by norm_num) (by norm_num)
    refine ⟨ops.nucomp r g false, by rw [Option.bind_some, hg, Option.map_some], ?_⟩
    rw [h.nucomp, hr, hcls, hgde, zpow_add, zpow_mul]
    norm_cast

/-- The comb gives the power, for every nonnegative exponent whose bits can be counted. -/
theorem nupowPrecomp_spec (h : ops.Lawful cls) {f : Q} {pre : QFIPrecomp Q} (hpre : pre.Valid cls f)
    {n : Mpz} (hn : 0 ≤ n) (hfits : FitsInt n) :
    ∃ r, nupowPrecomp ops f n pre = some r ∧ cls r = cls f ^ n := by
  unfold nupowPrecomp
  by_cases h0 : n = 0
  · rw [if_pos h0, h0]
    exact ⟨_, rfl, by rw [h.one, zpow_zero]⟩
  rw [if_neg h0]
  by_cases hshort : nbits n < pre.e
  · rw [if_pos hshort]
    exact nupow_spec h f hfits
  rw [if_neg hshort]
  obtain ⟨n, rfl⟩ := Int.eq_ofNat_of_zero_le hn
  obtain ⟨hpos, hhalf, ⟨ge, hge, hgecls⟩, ⟨gd, hgd, hgdcls⟩, hgde⟩ := hpre
  obtain ⟨d, e, _, _, gde⟩ := pre
  dsimp only at hpos hhalf hge hgd hgecls hgdcls hgde hshort ⊢
  subst hge hgd
  obtain ⟨low, high, extra, hlow, hhigh, hparts, hmod, hextra, hdiv⟩ :=
    exponent_parts n d
  have hlen := length_jsf (by omega) hlow hhigh
  have htab := tabulated_combTable h hgdcls hgecls hgde
  have hle : extra ≤ n := by
    have hinner := Nat.le_mul_of_pos_left extra (Nat.two_pow_pos d)
    have houter := Nat.le_mul_of_pos_left (high + 2 ^ d * extra) (Nat.two_pow_pos d)
    omega
  have hextraFits : FitsInt extra := hfits.mono hle
  have hfirst := combExtra_spec h hgde hextraFits (combFirst_spec h htab low high)
  have hround : ∀ i ∈ List.range e, ∀ o a, StandsFor cls (cls f) o a → StandsFor cls (cls f)
      (combRound ops (combTable ops (some f) (some gd) (some ge) (some gde)) (jsf low high) e i o)
      (combExponent d e (jsf low high) i + (2 : ℤ) • a) :=
    fun i _ o a ho => combRound_spec h htab low high i ho
  obtain ⟨r, hr, hcls⟩ := foldr_rep hfirst hround
  have hexponent := combExponent_sum (d := d) (hhalf ▸ hlen)
  refine ⟨r, ?_, ?_⟩
  · rw [hmod, hextra, hdiv]
    exact hr
  · rw [hcls]
    congr 1
    rw [List.length_range, smul_eq_mul, hparts]
    push_cast
    have hd : (2 : ℤ) ^ d * 2 ^ d = 2 ^ e * 2 ^ (d + e) := by
      rw [← pow_add, ← pow_add]
      congr 1
      omega
    linear_combination hexponent - (extra : ℤ) * hd

end

namespace ClassGroup

variable {cl : ClassGroup}

end ClassGroup

end RfClassGroups.Bicycl
