import RfClassGroups.FormScheme
import RfClassGroups.Lib.GenusCharacter
import RfClassGroups.ZkProof

/-! The genus of a form: its characters at `q` and at `p`. It is multiplicative, so that the
check of it passes every square, and the verifier accepts honest proofs over computed forms. -/

open BinaryForm

namespace RfClassGroups.Bicycl

/-- NUCOMP of two forms starts from a matrix that composes them. -/
theorem exists_composition {D : ℤ} {f g : BinaryForm} (hf : f.Proper D) (hg : g.Proper D) :
    ∃ M : CompositionMatrix, M.left = f ∧ M.right = g := by
  obtain ⟨-, -, -, Cx, Dx, hleft, hright, -⟩ :=
    QFI.nucompStart_spec hf.disc hg.disc hf.pos false
  exact ⟨_, hleft, hright⟩

namespace Forms

variable {cl : ClassGroup} {E : Euclid} {r : ℕ} [Fact r.Prime]

theorem genusCharacter_mul (hr : r ≠ 2) (hrD : (r : ℤ) ∣ cl.discriminant) (x y : Forms cl E) :
    (x * y).form.genusCharacter r = x.form.genusCharacter r * y.form.genusCharacter r := by
  obtain ⟨M, hleft, hright⟩ := exists_composition x.proper y.proper
  have hl : M.left.Proper cl.discriminant := hleft ▸ x.proper
  have hrt : M.right.Proper cl.discriminant := hright ▸ y.proper
  have hform := CompositionMatrix.proper_form hl hrt
  have hclass : classOf cl.discriminant M.form = classOf cl.discriminant (x * y).form := by
    rw [CompositionMatrix.classOf_form hl hrt, hleft, hright]
    exact (toClass_mul x y).symm
  have hequiv := (classOf_eq_iff hform (x * y).proper).mp hclass
  rw [genusCharacter_equivalent hr hform hrD hequiv, genusCharacter_form hr hl hrt hrD, hleft,
    hright]

theorem genusCharacter_unit (x : Forms cl E) :
    x.form.genusCharacter r = 1 ∨ x.form.genusCharacter r = -1 := by
  obtain ⟨z, w, hzw, hchi⟩ := exists_value (r := r) x.proper.primitive
  rw [hchi]
  exact legendreSym.eq_one_or_neg_one r (mt (ZMod.intCast_zmod_eq_zero_iff_dvd _ r).mp hzw)

end Forms

namespace CLHSMq

variable (cs : CLHSMq)

/-- `CL_HSMqk::genus` -/
def genus (f : QFI) : ℤ × ℤ :=
  let chiQ := jacobiSym f.a cs.q
  let chiQ := if chiQ = 0 then jacobiSym f.c cs.q else chiQ
  let chiP := jacobiSym f.a cs.p
  let chiP := if chiP = 0 then jacobiSym f.c cs.p else chiP
  if chiP = 0 ∨ chiQ = 0 then
    let t := f.a + f.b + f.c
    (if chiQ = 0 then jacobiSym t cs.q else chiQ, if chiP = 0 then jacobiSym t cs.p else chiP)
  else (chiQ, chiP)

theorem genus_eq (f : QFI) : cs.genus f = (f.genusCharacter cs.q, f.genusCharacter cs.p) := by
  simp only [genus, genusCharacter]
  generalize (if jacobiSym f.a cs.q = 0 then jacobiSym f.c cs.q else jacobiSym f.a cs.q) = chiQ
  generalize (if jacobiSym f.a cs.p = 0 then jacobiSym f.c cs.p else jacobiSym f.a cs.p) = chiP
  by_cases h : chiP = 0 ∨ chiQ = 0
  · rw [if_pos h]
  · obtain ⟨hP, hQ⟩ := not_or.mp h
    rw [if_neg h, if_neg hP, if_neg hQ]

theorem q_ne_two : cs.q ≠ 2 := by
  have hodd := cs.q_odd
  omega

theorem p_ne_two : cs.p ≠ 2 := by
  intro h2
  have hres := cs.residue
  rw [h2] at hres
  push_cast at hres
  omega

variable {cs} {cl : ClassGroup} {E : Euclid}

/-- The genus is a homomorphism to the signs. -/
theorem genus_mul (hq : (cs.q : ℤ) ∣ cl.discriminant) (hp : (cs.p : ℤ) ∣ cl.discriminant)
    (x y : Forms cl E) : cs.genus (x * y).form = cs.genus x.form * cs.genus y.form := by
  have hfact : Fact cs.q.Prime := ⟨cs.prime_q⟩
  rw [genus_eq, genus_eq, genus_eq, Prod.mk_mul_mk, Forms.genusCharacter_mul cs.q_ne_two hq]
  rcases cs.prime_p with h | h
  · simp [h, genusCharacter]
  · have hfactp : Fact cs.p.Prime := ⟨h⟩
    rw [Forms.genusCharacter_mul cs.p_ne_two hp]

theorem genus_mul_self (x : Forms cl E) : cs.genus x.form * cs.genus x.form = (1, 1) := by
  have hfact : Fact cs.q.Prime := ⟨cs.prime_q⟩
  have hQ : x.form.genusCharacter cs.q * x.form.genusCharacter cs.q = 1 :=
    mul_self_eq_one_iff.mpr (Forms.genusCharacter_unit x)
  rw [genus_eq, Prod.mk_mul_mk, hQ]
  rcases cs.prime_p with h | h
  · simp [h, genusCharacter]
  · have hfactp : Fact cs.p.Prime := ⟨h⟩
    rw [mul_self_eq_one_iff.mpr (Forms.genusCharacter_unit x)]

/-- Squares are in the principal genus. -/
theorem genus_square (hq : (cs.q : ℤ) ∣ cl.discriminant) (hp : (cs.p : ℤ) ∣ cl.discriminant)
    {x : Forms cl E} (hx : IsSquare x) : cs.genus x.form = (1, 1) := by
  obtain ⟨y, rfl⟩ := hx
  rw [genus_mul hq hp, genus_mul_self]

/-- The genus is one of the class: equivalent forms, reduced or not, have the same. -/
theorem genus_equivalent (hq : (cs.q : ℤ) ∣ cl.discriminant) (hp : (cs.p : ℤ) ∣ cl.discriminant)
    {f g : BinaryForm} (hf : f.Proper cl.discriminant) (h : Equivalent f g) :
    cs.genus g = cs.genus f := by
  have hfact : Fact cs.q.Prime := ⟨cs.prime_q⟩
  rw [genus_eq, genus_eq, genusCharacter_equivalent cs.q_ne_two hf hq h]
  rcases cs.prime_p with h1 | h1
  · simp [h1, genusCharacter]
  · have hfactp : Fact cs.p.Prime := ⟨h1⟩
    rw [genusCharacter_equivalent cs.p_ne_two hf hp h]

theorem q_dvd_deltaK (cs : CLHSMq) : (cs.q : ℤ) ∣ cs.clDeltaK.discriminant := ⟨-cs.p, by
  show -(cs.p * cs.q : ℤ) = cs.q * -cs.p
  ring⟩

theorem p_dvd_deltaK (cs : CLHSMq) : (cs.p : ℤ) ∣ cs.clDeltaK.discriminant := ⟨-cs.q, by
  show -(cs.p * cs.q : ℤ) = cs.p * -cs.q
  ring⟩

theorem deltaK_dvd_delta (cs : CLHSMq) : cs.clDeltaK.discriminant ∣ cs.clDelta.discriminant :=
  Dvd.intro_left (cs.q * cs.q : ℤ) rfl

/-- Over a class group the genus is a homomorphism from the classes to pairs of signs, and no
choice of a form in the class shows in it. -/
structure GenusCharacter (cs : CLHSMq) (cl : ClassGroup) (E : Euclid) : Prop where
  equivalent : ∀ f g : BinaryForm, f.Proper cl.discriminant → Equivalent f g →
    cs.genus g = cs.genus f
  mul : ∀ x y : Forms cl E, cs.genus (x * y).form = cs.genus x.form * cs.genus y.form
  sign : ∀ x : Forms cl E, cs.genus x.form * cs.genus x.form = (1, 1)

theorem genusCharacter_of_dvd (hq : (cs.q : ℤ) ∣ cl.discriminant)
    (hp : (cs.p : ℤ) ∣ cl.discriminant) : GenusCharacter cs cl E where
  equivalent _ _ hf h := genus_equivalent hq hp hf h
  mul := genus_mul hq hp
  sign := genus_mul_self

end CLHSMq

namespace Setup

variable (S : Setup) (E : Euclid)

/-- What the verifier of a ciphertext proof computes with. -/
def proofParams : CLHSMqk.ProofParams (S.GK E) (S.GD E) where
  randomnessBound := S.exponentBound
  lambdaDistance := S.distance
  genus
    | .unset => S.params.genus ⟨1, 1, 1⟩
    | .deltaK x => S.params.genus x.form
    | .delta x => S.params.genus x.form

variable {S E}

theorem genusOne_delta {y : S.GD E} (hy : IsSquare y) : S.params.genus y.form = (1, 1) :=
  CLHSMq.genus_square (S.params.q_dvd_deltaK.trans S.params.deltaK_dvd_delta)
    (S.params.p_dvd_deltaK.trans S.params.deltaK_dvd_delta) hy

theorem genusOne_deltaK {x : S.GK E} (hx : IsSquare x) : S.params.genus x.form = (1, 1) :=
  CLHSMq.genus_square S.params.q_dvd_deltaK S.params.p_dvd_deltaK hx

theorem isSquare_hDelta : IsSquare (S.params.hDelta E) := S.params.hDelta_square E

theorem isSquare_hDeltaK : IsSquare (S.params.hDeltaK E) :=
  (isSquare_hDelta.map (CLHSMq.toMaximalOrderHom S.params E)).zpow _

theorem genusOne_plainView (hc : S.compactVariant = false) :
    ((S.scheme E).plainView hc).GenusOne (S.proofParams E) where
  first _ hx := genusOne_delta hx
  second _ hy := genusOne_delta hy
  base := by
    have hh : S.h E = .delta ((S.scheme E).plainView hc).base := ((S.scheme E).plainView hc).h_eq
    rw [h, hc] at hh
    rw [← RfClassGroups.QFI.delta.inj hh]
    exact isSquare_hDelta

theorem genusOne_compactView (hc : S.compactVariant = true) :
    ((S.scheme E).compactView hc).GenusOne (S.proofParams E) where
  first _ hx := genusOne_deltaK hx
  second _ hy := genusOne_delta hy
  base := by
    have hh : S.h E = .deltaK ((S.scheme E).compactView hc).base :=
      ((S.scheme E).compactView hc).h_eq
    rw [h, hc] at hh
    rw [← RfClassGroups.QFI.deltaK.inj hh]
    exact isSquare_hDeltaK

variable (S E)

/-- A hash that depends on the first commitment. -/
def hash51 : HashAlgo (setup51.GK ClassGroup.idleEuclid) (setup51.GD ClassGroup.idleEuclid) where
  digestNbits := 4
  hash _ _ t1 _ :=
    match t1 with
    | .deltaK x => x.form.c.natAbs % 16
    | _ => 0
  hash_lt _ _ t1 _ := by
    cases t1 with
    | deltaK x => exact Nat.mod_lt _ (by decide)
    | unset => exact Nat.two_pow_pos 4
    | delta x => exact Nat.two_pow_pos 4

end Setup

end RfClassGroups.Bicycl
