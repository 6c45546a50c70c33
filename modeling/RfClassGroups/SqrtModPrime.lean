import Mathlib.NumberTheory.LegendreSymbol.JacobiSymbol
import Mathlib.Tactic.NormNum.Prime
import RfClassGroups.Lib.TonelliShanks
import RfClassGroups.Lib.WhileLoop
import RfClassGroups.Mpz

/-! The square root modulo a prime, by the algorithm of Tonelli and Shanks. -/

open CoeffList

namespace RfClassGroups.Bicycl

/-- `mpz_kronecker`, for a prime `l`. -/
def kronecker (a : Mpz) (l : ℕ) : ℤ := if l = 2 then ZMod.χ₈ a else jacobiSym a l

/-- `for (M = 0; Q.is_even(); M++, divby2 (Q, Q))` -/
def twoPart (n : ℕ) : Option (ℕ × ℕ) :=
  WhileLoop.run (fun s => s.1 % 2 == 0) (fun s => (s.1 / 2, s.2 + 1)) n (n, 0)

/-- `for (z = 1UL; z.kronecker (l) != -1; add (z, z, 1UL))` -/
def nonResidue (l : ℕ) : Option ℕ :=
  WhileLoop.run (fun z : ℕ => decide (kronecker z l ≠ -1)) (· + 1) (l + 1) 1

structure SqrtState where
  M : ℕ
  c : Mpz
  t : Mpz
  r : Mpz

def squaringsToOne (t l : Mpz) (M : ℕ) : Option ℕ :=
  (WhileLoop.run (fun s : ℕ × Mpz => s.2 != 1) (fun s => (s.1 + 1, s.2 * s.2 % l)) M (0, t)).map
    (·.1)

/-- The shift by `M - i - 1` has no result where the difference of the two sizes wraps around. -/
inductive SqrtError
  | shiftWraps
  deriving DecidableEq

def sqrtRound (l : Mpz) (s : SqrtState) : Option (Except SqrtError SqrtState) :=
  (squaringsToOne s.t l s.M).map fun i =>
    if i < s.M then
      let b := powMod s.c (2 ^ (s.M - i - 1) : ℕ) l
      let c := b * b % l
      .ok ⟨i, c, s.t * c % l, s.r * b % l⟩
    else .error .shiftWraps

def sqrtTest : Except SqrtError SqrtState → Bool
  | .ok s => s.t != 0 && s.t != 1
  | .error _ => false

def sqrtNext (l : Mpz) : Except SqrtError SqrtState → Option (Except SqrtError SqrtState)
  | .ok s => sqrtRound l s
  | .error e => some (.error e)

def sqrtStart (s : Mpz) (l Q M z : ℕ) : SqrtState :=
  ⟨M, powMod z Q l, powMod s Q l, powMod s ((Q + 1) / 2 : ℕ) l⟩

def sqrtFinish (s : SqrtState) : Mpz := if s.t = 0 then 0 else s.r

/-- `Mpz::sqrt_mod_prime`, where `none` says that one of its loops has not ended. -/
def sqrtModPrime (s : Mpz) (l : ℕ) : Option (Except SqrtError Mpz) :=
  (twoPart (l - 1)).bind fun (Q, M) => (nonResidue l).bind fun z =>
    (WhileLoop.run (fun o : Option (Except SqrtError SqrtState) => o.any sqrtTest)
      (·.bind (sqrtNext l)) M (some (.ok (sqrtStart s l Q M z)))).join.map (Except.map sqrtFinish)

theorem modulus_cast (l : ℕ) : ((l : ℤ) : ZMod l) = 0 := by
  rw [Int.cast_natCast, ZMod.natCast_self]

theorem twoPart_spec {n : ℕ} (hn : 0 < n) : ∃ Q M, twoPart n = some (Q, M) ∧ n = Q * 2 ^ M ∧ Q % 2 = 1 := by
  let Inv : ℕ × ℕ → Prop := fun s => n = s.1 * 2 ^ s.2 ∧ 0 < s.1
  have hstep : ∀ s : ℕ × ℕ, Inv s → (s.1 % 2 == 0) = true →
      Inv (s.1 / 2, s.2 + 1) ∧ s.1 / 2 < s.1 := by
    intro s hs hguard
    obtain ⟨hprod, hpos⟩ := hs
    have heven : s.1 % 2 = 0 := by simpa using hguard
    have hhalf : s.1 = s.1 / 2 * 2 := by omega
    refine ⟨⟨?_, by dsimp only; omega⟩, by omega⟩
    dsimp only
    rw [pow_succ, mul_comm _ 2, ← mul_assoc, ← hhalf]
    exact hprod
  obtain ⟨⟨Q, M⟩, hrun, hinv, hexit⟩ := WhileLoop.run_terminates (fun s : ℕ × ℕ => s.1) hstep
    (s := (n, 0)) (show Inv (n, 0) from ⟨by simp, hn⟩) le_rfl
  refine ⟨Q, M, hrun, hinv.1, ?_⟩
  have hodd : Q % 2 ≠ 0 := by simpa using hexit
  omega

section

variable {l : ℕ} [Fact l.Prime]

theorem kronecker_odd (h2 : l ≠ 2) (a : ℤ) : kronecker a l = legendreSym l a := by
  rw [kronecker, if_neg h2, jacobiSym.legendreSym.to_jacobiSym]

/-- The search for an element without a root ends. -/
theorem nonResidue_spec (h2 : l ≠ 2) : ∃ z : ℕ, nonResidue l = some z ∧ legendreSym l z = -1 := by
  obtain ⟨a, ha⟩ := FiniteField.exists_nonsquare (F := ZMod l) (by rwa [ZMod.ringChar_zmod_n])
  have hval : legendreSym l (a.val : ℤ) = -1 := by
    rw [legendreSym.eq_neg_one_iff]
    simpa using ha
  have hne : a.val ≠ 0 := by
    intro h0
    rw [h0] at hval
    simp [legendreSym.at_zero] at hval
  let Inv : ℕ → Prop := fun z => z ≤ a.val
  have hstep : ∀ z, Inv z → decide (kronecker z l ≠ -1) = true →
      Inv (z + 1) ∧ a.val - (z + 1) < a.val - z := by
    intro z hz hguard
    have hza : z ≠ a.val := by
      rintro rfl
      rw [decide_eq_true_eq, kronecker_odd h2] at hguard
      exact hguard hval
    have hz' : z ≤ a.val := hz
    exact ⟨show z + 1 ≤ a.val by omega, by omega⟩
  have hlt := ZMod.val_lt a
  have hstart : Inv 1 := Nat.one_le_iff_ne_zero.mpr hne
  have hrounds : a.val - 1 ≤ l + 1 := by omega
  obtain ⟨z, hrun, -, hexit⟩ :=
    WhileLoop.run_terminates (fun z => a.val - z) hstep hstart hrounds
  refine ⟨z, hrun, ?_⟩
  rw [decide_eq_false_iff_not, not_not, kronecker_odd h2] at hexit
  exact hexit

theorem eq_iff_cast {x y : ℤ} (hx : 0 ≤ x ∧ x < l) (hy : 0 ≤ y ∧ y < l) :
    x = y ↔ (x : ZMod l) = y := by
  constructor
  · intro h
    rw [h]
  · intro h
    have hmod := (ZMod.intCast_eq_intCast_iff x y l).mp h
    rwa [Int.ModEq, Int.emod_eq_of_lt hx.1 hx.2, Int.emod_eq_of_lt hy.1 hy.2] at hmod

theorem one_range : (0 : ℤ) ≤ 1 ∧ (1 : ℤ) < l := by
  have h := (Fact.out : l.Prime).one_lt
  omega

theorem emod_range (x : ℤ) : 0 ≤ x % l ∧ x % l < l := by
  have hpos : (0 : ℤ) < l := by exact_mod_cast (Fact.out : l.Prime).pos
  exact ⟨Int.emod_nonneg x hpos.ne', Int.emod_lt_of_pos x hpos⟩

theorem powMod_range (b e : ℤ) : 0 ≤ powMod b e l ∧ powMod b e l < l :=
  powModNat_range (by exact_mod_cast (Fact.out : l.Prime).pos) b e.toNat

/-- The inner loop finds the least exponent. -/
theorem squaringsToOne_spec {t : ℤ} (ht : 0 ≤ t ∧ t < l) {M N : ℕ} (hN : N ≤ M)
    (horder : (t : ZMod l) ^ 2 ^ N = 1) : ∃ i, squaringsToOne t l M = some i ∧
      (t : ZMod l) ^ 2 ^ i = 1 ∧ ∀ j < i, (t : ZMod l) ^ 2 ^ j ≠ 1 := by
  let Inv : ℕ × ℤ → Prop := fun s => (0 ≤ s.2 ∧ s.2 < l) ∧ (s.2 : ZMod l) = (t : ZMod l) ^ 2 ^ s.1 ∧
    ∀ j < s.1, (t : ZMod l) ^ 2 ^ j ≠ 1
  have hstep : ∀ s : ℕ × ℤ, Inv s → (s.2 != 1) = true →
      Inv (s.1 + 1, s.2 * s.2 % l) ∧ M - (s.1 + 1) < M - s.1 := by
    intro s hs hguard
    obtain ⟨hrange, hcast, hlow⟩ := hs
    have hne : (t : ZMod l) ^ 2 ^ s.1 ≠ 1 := by
      intro h
      have hone : s.2 = 1 := (eq_iff_cast hrange one_range).mpr (by rw [hcast, h, Int.cast_one])
      simp [hone] at hguard
    have hlt : s.1 < N := by
      by_contra hge
      by_cases heq : s.1 = N
      · exact hne (heq ▸ horder)
      · exact hlow N (by omega) horder
    refine ⟨⟨emod_range _, ?_, ?_⟩, by omega⟩
    · rw [cast_emod (modulus_cast l), Int.cast_mul, hcast, TonelliShanks.pow_two_pow_succ]
    · intro j hj
      by_cases heq : j = s.1
      · rwa [heq]
      · exact hlow j (by omega)
  have hstart : Inv (0, t) := ⟨ht, by simp, by simp⟩
  have hrounds : M - 0 ≤ M := Nat.sub_le M 0
  obtain ⟨⟨i, x⟩, hrun, ⟨hrange, hcast, hlow⟩, hexit⟩ :=
    WhileLoop.run_terminates (fun s : ℕ × ℤ => M - s.1) hstep hstart hrounds
  refine ⟨i, by rw [squaringsToOne, hrun]; rfl, ?_, hlow⟩
  have hone : x = 1 := by simpa using hexit
  rw [← hcast]
  dsimp only
  rw [hone, Int.cast_one]

/-- What the loop keeps, read modulo `l`. -/
structure SqrtState.Inv (s : ℤ) (l : ℕ) [Fact l.Prime] (st : SqrtState) : Prop where
  t_range : 0 ≤ st.t ∧ st.t < l
  r_range : 0 ≤ st.r ∧ st.r < l
  state : TonelliShanks (s : ZMod l) st.M (st.c : ZMod l) (st.t : ZMod l) (st.r : ZMod l)

theorem sqrtRound_spec {s : ℤ} {st : SqrtState} (h : st.Inv s l) (ht : st.t ≠ 1) :
    ∃ st', sqrtRound l st = some (.ok st') ∧ st'.Inv s l ∧ st'.M < st.M := by
  obtain ⟨htr, hrr, hstate⟩ := h
  obtain ⟨i, hi, hone, hlow⟩ := squaringsToOne_spec htr (Nat.sub_le st.M 1) hstate.order
  have hb : ((powMod st.c (2 ^ (st.M - i - 1) : ℕ) l : ℤ) : ZMod l) =
      (st.c : ZMod l) ^ 2 ^ (st.M - i - 1) := by
    rw [powMod_cast (modulus_cast l), Int.toNat_natCast]
  have ht' : (st.t : ZMod l) ≠ 1 := by
    intro h1
    exact ht ((eq_iff_cast htr one_range).mpr (by rw [h1, Int.cast_one]))
  obtain ⟨hlt, hnext⟩ := hstate.step hone hlow ht' hb
  refine ⟨_, by rw [sqrtRound, hi, Option.map_some, if_pos hlt], ⟨emod_range _, emod_range _, ?_⟩,
    hlt⟩
  simp only [cast_emod (modulus_cast l), Int.cast_mul]
  exact hnext

omit [Fact l.Prime] in
theorem sqrtModPrime_eq (s : ℤ) {Q M z : ℕ} (hQ : twoPart (l - 1) = some (Q, M))
    (hz : nonResidue l = some z) : sqrtModPrime s l =
      (WhileLoop.run (fun o : Option (Except SqrtError SqrtState) => o.any sqrtTest)
        (·.bind (sqrtNext l)) M (some (.ok (sqrtStart s l Q M z)))).join.map
          (Except.map sqrtFinish) := by
  rw [sqrtModPrime, hQ, Option.bind_some]
  dsimp only
  rw [hz, Option.bind_some]

omit [Fact l.Prime] in
/-- Where the first `t` is zero or one no round is made. -/
theorem sqrtModPrime_of_test (s : ℤ) {Q M z : ℕ} (hQ : twoPart (l - 1) = some (Q, M))
    (hz : nonResidue l = some z) (htest : sqrtTest (.ok (sqrtStart s l Q M z)) = false) :
    sqrtModPrime s l = some (.ok (sqrtFinish (sqrtStart s l Q M z))) := by
  rw [sqrtModPrime_eq s hQ hz]
  cases M <;> simp [WhileLoop.run, htest, Except.map]

theorem sqrtModPrime_zero {s : ℤ} (hs : (s : ZMod l) = 0) {Q M z : ℕ}
    (hQ : twoPart (l - 1) = some (Q, M)) (hQ1 : Q % 2 = 1) (hz : nonResidue l = some z) :
    sqrtModPrime s l = some (.ok 0) := by
  have ht : (sqrtStart s l Q M z).t = 0 := by
    apply (eq_iff_cast (powMod_range s Q) ⟨le_rfl, by have := one_range (l := l); omega⟩).mpr
    rw [powMod_cast (modulus_cast l), hs, Int.toNat_natCast, zero_pow (by omega), Int.cast_zero]
  rw [sqrtModPrime_of_test s hQ hz (by simp [sqrtTest, ht]), sqrtFinish, if_pos ht]

/-- Half of an odd prime, by the parts of `l - 1`. -/
theorem half_eq (h2 : l ≠ 2) {Q M : ℕ} (hprod : l - 1 = Q * 2 ^ M) (hQ : Q % 2 = 1) :
    ∃ k, M = k + 1 ∧ l / 2 = Q * 2 ^ k := by
  have hodd := (Fact.out : l.Prime).eq_two_or_odd.resolve_left h2
  cases M with
  | zero =>
    rw [pow_zero, mul_one] at hprod
    omega
  | succ k =>
    rw [pow_succ, ← mul_assoc] at hprod
    exact ⟨k, rfl, by omega⟩

theorem sqrtStart_inv {s : ℤ} (h2 : l ≠ 2) (hs0 : (s : ZMod l) ≠ 0) (hs : IsSquare (s : ZMod l))
    {Q M z : ℕ} (hprod : l - 1 = Q * 2 ^ M) (hQ : Q % 2 = 1) (hz : legendreSym l z = -1) :
    (sqrtStart s l Q M z).Inv s l := by
  obtain ⟨k, rfl, hhalf⟩ := half_eq h2 hprod hQ
  refine ⟨powMod_range _ _, powMod_range _ _, ?_⟩
  simp only [sqrtStart, powMod_cast (modulus_cast l), Int.toNat_natCast]
  apply TonelliShanks.start (Nat.le_add_left 1 k) hQ
  · rw [Nat.add_sub_cancel, ← hhalf]
    exact (ZMod.euler_criterion l hs0).mp hs
  · rw [Nat.add_sub_cancel, ← hhalf, ← legendreSym.eq_pow, hz]
    push_cast
    rfl

theorem zmod_two_eq_one : ∀ x : ZMod 2, x ≠ 0 → x = 1 := by decide

theorem zmod_two_isSquare : ∀ x : ZMod 2, IsSquare x := by decide

theorem nonResidue_two : nonResidue 2 = some 3 := by decide

theorem exists_nonResidue : ∃ z, nonResidue l = some z := by
  by_cases h2 : l = 2
  · rw [h2]
    exact ⟨3, nonResidue_two⟩
  · obtain ⟨z, hz, -⟩ := nonResidue_spec h2
    exact ⟨z, hz⟩

/-- Each round makes the size smaller. -/
def sqrtRoundsLeft : Except SqrtError SqrtState → ℕ
  | .ok st => st.M
  | .error _ => 0

theorem sqrtNext_spec {s : ℤ} {e : Except SqrtError SqrtState}
    (he : ∃ st, e = .ok st ∧ st.Inv s l) (htest : sqrtTest e = true) :
    ∃ e', sqrtNext l e = some e' ∧ (∃ st, e' = .ok st ∧ st.Inv s l) ∧
      sqrtRoundsLeft e' < sqrtRoundsLeft e := by
  obtain ⟨st, rfl, hst⟩ := he
  have ht : st.t ≠ 1 := by
    rintro h1
    simp [sqrtTest, h1] at htest
  obtain ⟨st', hst', hinv, hlt⟩ := sqrtRound_spec hst ht
  exact ⟨.ok st', hst', ⟨st', rfl, hinv⟩, hlt⟩

/-- For a square the loop ends with a root in the range. -/
theorem sqrtModPrime_spec {s : ℤ} (hs : IsSquare (s : ZMod l)) : ∃ r : ℤ,
    sqrtModPrime s l = some (.ok r) ∧ (0 ≤ r ∧ r < l) ∧ (r : ZMod l) * r = s := by
  have hone := one_range (l := l)
  obtain ⟨Q, M, hQM, hprod, hQ⟩ := twoPart_spec (n := l - 1) (by omega)
  by_cases h0 : (s : ZMod l) = 0
  · obtain ⟨z, hz⟩ := exists_nonResidue (l := l)
    refine ⟨0, sqrtModPrime_zero h0 hQM hQ hz, by omega, ?_⟩
    rw [h0, Int.cast_zero, mul_zero]
  by_cases h2 : l = 2
  · subst h2
    have h1 : (s : ZMod 2) = 1 := zmod_two_eq_one s h0
    have hQ1 : Q = 1 := Nat.eq_one_of_mul_eq_one_right hprod.symm
    have ht : (sqrtStart s 2 Q M 3).t = 1 := by
      apply (eq_iff_cast (powMod_range s Q) hone).mpr
      rw [powMod_cast (modulus_cast 2), h1, one_pow, Int.cast_one]
    refine ⟨_, sqrtModPrime_of_test s hQM nonResidue_two (by simp [sqrtTest, ht]), ?_, ?_⟩
    · rw [sqrtFinish, ht, if_neg one_ne_zero]
      exact powMod_range s _
    · rw [sqrtFinish, ht, if_neg one_ne_zero, sqrtStart, powMod_cast (modulus_cast 2), h1,
        one_pow, mul_one]
  obtain ⟨z, hz, hleg⟩ := nonResidue_spec h2
  have hrounds : sqrtRoundsLeft (.ok (sqrtStart s l Q M z)) ≤ M := le_rfl
  obtain ⟨_, hrun, ⟨st, rfl, hst⟩, hexit⟩ := WhileLoop.run_partial sqrtRoundsLeft
    (fun _ => sqrtNext_spec) ⟨_, rfl, sqrtStart_inv h2 h0 hs hprod hQ hleg⟩ hrounds
  have hne : st.t ≠ 0 := by
    intro hzero
    have horder := hst.state.order
    rw [hzero, Int.cast_zero, zero_pow (by positivity)] at horder
    exact zero_ne_one horder
  have ht : st.t = 1 := by
    have hexit' : ¬ (st.t ≠ 0 ∧ st.t ≠ 1) := by simpa [sqrtTest] using hexit
    by_contra h1
    exact hexit' ⟨hne, h1⟩
  refine ⟨st.r, ?_, hst.r_range, ?_⟩
  · rw [sqrtModPrime_eq s hQM hz, hrun, Option.join_some, Option.map_some, Except.map, sqrtFinish,
      if_neg hne]
  · rw [hst.state.root, ht, Int.cast_one, one_mul]

/-- Where the last squaring but one gives `-1`, none of those allowed gives `1`. -/
theorem sqrtNext_wraps (h2 : l ≠ 2) {st : SqrtState} (hrange : 0 ≤ st.t ∧ st.t < l) {k : ℕ}
    (hM : st.M = k + 1) (htk : (st.t : ZMod l) ^ 2 ^ k = -1) :
    sqrtTest (.ok st) = true ∧ sqrtNext l (.ok st) = some (.error .shiftWraps) := by
  have hlarge : Fact (2 < l) := ⟨by have := (Fact.out : l.Prime).two_le; omega⟩
  have hne1 : (-1 : ZMod l) ≠ 1 := ZMod.neg_one_ne_one
  have ht0 : st.t ≠ 0 := by
    intro h
    rw [h, Int.cast_zero, zero_pow (by positivity)] at htk
    exact neg_ne_zero.mpr one_ne_zero htk.symm
  have ht1 : st.t ≠ 1 := by
    intro h
    rw [h, Int.cast_one, one_pow] at htk
    exact hne1 htk.symm
  have hnext : (st.t : ZMod l) ^ 2 ^ (k + 1) = 1 := by
    rw [TonelliShanks.pow_two_pow_succ, htk, neg_one_mul, neg_neg]
  obtain ⟨i, hi, hi1, -⟩ := squaringsToOne_spec hrange hM.ge hnext
  have hge : ¬ i < k + 1 := by
    intro hlt
    have hpow : 2 ^ k = 2 ^ i * 2 ^ (k - i) := by
      rw [← pow_add]
      congr 1
      omega
    rw [hpow, pow_mul, hi1, one_pow] at htk
    exact hne1 htk.symm
  refine ⟨by simp [sqrtTest, ht0, ht1], ?_⟩
  rw [sqrtNext, sqrtRound, hi, Option.map_some, hM, if_neg hge]

/-- Without a root the first round shifts by a difference that wraps around. -/
theorem sqrtModPrime_nonsquare {s : ℤ} (hs : ¬ IsSquare (s : ZMod l)) :
    sqrtModPrime s l = some (.error .shiftWraps) := by
  have hone := one_range (l := l)
  have h0 : (s : ZMod l) ≠ 0 := by
    rintro h0
    exact hs (h0 ▸ IsSquare.zero)
  have h2 : l ≠ 2 := by
    rintro rfl
    exact hs (zmod_two_isSquare s)
  obtain ⟨Q, M, hQM, hprod, hQ⟩ := twoPart_spec (n := l - 1) (by omega)
  obtain ⟨z, hz, -⟩ := nonResidue_spec h2
  obtain ⟨k, rfl, hhalf⟩ := half_eq h2 hprod hQ
  have hminus : (s : ZMod l) ^ (Q * 2 ^ k) = -1 := by
    rw [← hhalf]
    exact (ZMod.pow_div_two_eq_neg_one_or_one l h0).resolve_left
      (mt (ZMod.euler_criterion l h0).mpr hs)
  have htk : ((sqrtStart s l Q (k + 1) z).t : ZMod l) ^ 2 ^ k = -1 := by
    rw [sqrtStart, powMod_cast (modulus_cast l), Int.toNat_natCast, ← pow_mul, hminus]
  obtain ⟨htest, hround⟩ := sqrtNext_wraps h2 (powMod_range s Q) rfl htk
  rw [sqrtModPrime_eq s hQM hz, WhileLoop.run]
  simp only [Option.any_some, htest, if_true, Option.bind_some, hround]
  cases k <;> rfl

end

/-- The algorithm ends for every integer: with a root where there is one, and where there is none
in the shift that wraps around. -/
theorem sqrtModPrime_answers {l : ℕ} (hl : l.Prime) (s : ℤ) :
    ∃ o, sqrtModPrime s l = some o ∧ (o = .error .shiftWraps ↔ ¬ IsSquare (s : ZMod l)) ∧
      ∀ r : ℤ, o = .ok r → 0 ≤ r ∧ r < l ∧ (l : ℤ) ∣ r * r - s := by
  have hfact : Fact l.Prime := ⟨hl⟩
  by_cases hs : IsSquare (s : ZMod l)
  · obtain ⟨r, hr, hrange, hroot⟩ := sqrtModPrime_spec hs
    refine ⟨_, hr, by simp [hs], ?_⟩
    rintro r' h'
    cases h'
    refine ⟨hrange.1, hrange.2, (ZMod.intCast_zmod_eq_zero_iff_dvd _ l).mp ?_⟩
    push_cast
    rw [hroot, sub_self]
  · exact ⟨_, sqrtModPrime_nonsquare hs, by simp [hs], fun r h => by cases h⟩

theorem sqrtModPrime_answers_seventeen :
    ∃ o, sqrtModPrime (-8) 17 = some o ∧
      (o = .error .shiftWraps ↔ ¬ IsSquare ((-8 : ℤ) : ZMod 17)) ∧
      ∀ r : ℤ, o = .ok r → 0 ≤ r ∧ r < 17 ∧ (17 : ℤ) ∣ r * r - -8 :=
  sqrtModPrime_answers (by norm_num) (-8)

end RfClassGroups.Bicycl
