import RfClassGroups.Psi

/-! Whole runs of one-way PSI: when they return, and what they return. -/

open Polynomial CoeffList ExceptList

namespace RfClassGroups

section

variable {ZZp ZZpX : Type} {backend : Option (Mpz → Ntl ZZp ZZpX)}

theorem nttPolyThreshold_of_polyMulModWith {env : Env} {a b r : List Mpz} {q : Mpz} (ha : a ≠ [])
    (hb : b ≠ []) (h : polyMulModWith backend env a b q = .ok r) :
    ∃ threshold, nttPolyThreshold env = .ok threshold := by
  rw [polyMulModWith, if_neg (not_or.mpr ⟨ha, hb⟩)] at h
  obtain ⟨_, _, h⟩ := bind_eq_ok.mp h
  obtain ⟨threshold, ht, _⟩ := bind_eq_ok.mp h
  exact ⟨threshold, ht⟩

theorem selects_of_polyFromRootsWith {env : Env} {roots r : List Mpz} {q : Mpz} (hne : roots ≠ [])
    (h : polyFromRootsWith backend env roots q = .ok r) : Selects backend env := by
  rw [polyFromRootsWith, if_neg hne] at h
  obtain ⟨sel, hs, _⟩ := bind_eq_ok.mp h
  exact selects_of_ok hs

def Evaluates (backend : Option (Mpz → Ntl ZZp ZZpX)) (env : Env) (n : ℕ) (q : Mpz) : Prop :=
  ∃ alpha, rfOpaEvalPoints env n q = .ok alpha ∧
    ∀ coeffs, coeffs.length ≤ n → ∃ r, polyEvalBatchAutoWith backend env coeffs alpha q = .ok r

theorem evaluates_of_config {q : ℕ} (hq : 1 < q) (hlib : LawfulBackend backend q) {env : Env}
    {threshold hornerMax n : ℕ} (ht : nttPolyThreshold env = .ok threshold)
    (hsel : Selects backend env) (hh : polyEvalAutoHornerMaxPoints env = .ok hornerMax)
    (hm : polyEvalMethodEnv env ≠ "ntt") (hn : n + 2 ≤ 2 ^ 63) : Evaluates backend env n q := by
  obtain ⟨alpha, halpha⟩ := publicEvalPointsCached_exists env (n := n) (by omega) (q : ℤ)
  have hlen := publicEvalPointsCached_length halpha
  exact ⟨alpha, halpha, fun coeffs _ =>
    polyEvalBatchAutoWith_exists hq hlib ht hsel hh hm (by omega)⟩

theorem polyEvalBatchProductTreeWith_transfer {q : ℕ} (hq : 1 < q) (hlib : LawfulBackend backend q)
    {env : Env} {coeffs points r : List Mpz}
    (h : polyEvalBatchProductTreeWith backend env coeffs points q = .ok r) (coeffs' : List Mpz) :
    ∃ r', polyEvalBatchProductTreeWith backend env coeffs' points q = .ok r' := by
  unfold polyEvalBatchProductTreeWith at h ⊢
  split at h
  · next hnil => exact ⟨[], by rw [if_pos hnil]; rfl⟩
  next hne =>
  rw [if_neg hne]
  obtain ⟨b, hb, h⟩ := bind_eq_ok.mp h
  rw [hb, ok_bind]
  cases b with
  | true =>
    simp only [if_true] at h ⊢
    obtain ⟨tree, htree, _⟩ := bind_eq_ok.mp h
    rw [htree, ok_bind]
    rw [publicProductTreeCachedWith, isPublicEvalPoints_true hb, ok_bind] at htree
    exact polyEvalBatchWithProductTree_exists hne (polyBuildProductTreeWith_spec hq hlib hne htree)
  | false =>
    simp only [Bool.false_eq_true, if_false] at h ⊢
    obtain ⟨tree, htree, _⟩ := bind_eq_ok.mp h
    rw [htree, ok_bind]
    exact polyEvalBatchWithProductTree_exists hne (polyBuildProductTreeWith_spec hq hlib hne htree)

theorem polyEvalBatchBySize_transfer {q : ℕ} (hq : 1 < q) (hlib : LawfulBackend backend q)
    {env : Env} {coeffs points r : List Mpz}
    (h : polyEvalBatchBySize backend env coeffs points q = .ok r)
    (hlen : coeffs.length ≤ points.length) {coeffs' : List Mpz}
    (hlen' : coeffs'.length ≤ points.length) :
    ∃ r', polyEvalBatchBySize backend env coeffs' points q = .ok r' := by
  unfold polyEvalBatchBySize at h ⊢
  have hcond : nttConditions env coeffs' points q = nttConditions env coeffs points q := by
    simp only [nttConditions, hlen, hlen']
  rw [hcond]
  obtain ⟨b, hb, h⟩ := bind_eq_ok.mp h
  rw [hb, ok_bind]
  cases b with
  | true =>
    obtain ⟨hsup, -, hpub⟩ := nttConditions_true rfl hb
    exact polyEvalBatchNtt_exists hlen' hsup hpub
  | false =>
    simp only [Bool.false_eq_true, if_false] at h ⊢
    obtain ⟨hornerMax, hmax, h⟩ := bind_eq_ok.mp h
    rw [hmax, ok_bind]
    split at h
    · next hle => exact ⟨_, by rw [if_pos hle]; rfl⟩
    · next hlt =>
      rw [if_neg hlt]
      -- the number of points decides on the library, not that of the coefficients
      rw [max_eq_right hlen] at h
      rw [max_eq_right hlen']
      obtain ⟨sel, hsel, h⟩ := bind_eq_ok.mp h
      rw [hsel, ok_bind]
      cases sel with
      | some lib => exact ⟨_, rfl⟩
      | none => exact polyEvalBatchProductTreeWith_transfer hq hlib h coeffs'

theorem polyEvalBatchAutoWith_transfer {q : ℕ} (hq : 1 < q) (hlib : LawfulBackend backend q)
    {env : Env} {coeffs points r : List Mpz}
    (h : polyEvalBatchAutoWith backend env coeffs points q = .ok r)
    (hlen : coeffs.length ≤ points.length) {coeffs' : List Mpz}
    (hlen' : coeffs'.length ≤ points.length) :
    ∃ r', polyEvalBatchAutoWith backend env coeffs' points q = .ok r' := by
  unfold polyEvalBatchAutoWith at h ⊢
  dsimp only at h ⊢
  split at h
  · next hm =>
    rw [if_pos hm]
    obtain ⟨b, hb, h⟩ := bind_eq_ok.mp h
    cases b with
    | false => simp at h
    | true =>
      simp only [hb, ok_bind, Bool.not_true, Bool.false_eq_true, if_false] at h ⊢
      refine polyEvalBatchNtt_exists hlen' ?_ hb
      by_contra hsup
      rw [Bool.not_eq_true] at hsup
      simp [polyEvalBatchNtt, hsup] at h
  next hm =>
  rw [if_neg hm]
  split at h
  · next hhorner => exact ⟨_, by rw [if_pos hhorner]; rfl⟩
  next hhorner =>
  rw [if_neg hhorner]
  split at h
  · exact ⟨_, rfl⟩
  split at h
  · next htree =>
    rw [if_pos htree]
    exact polyEvalBatchProductTreeWith_transfer hq hlib h coeffs'
  · next htree =>
    rw [if_neg htree]
    exact polyEvalBatchBySize_transfer hq hlib h hlen hlen'

/-- What one machine needs for the protocol on `mA` and `mB` elements. -/
structure PsiConfig (backend : Option (Mpz → Ntl ZZp ZZpX)) (env : Env) (q mA mB n : ℕ) : Prop where
  count : psiPointCount env mA mB q = .ok n
  le : n ≤ q
  threshold : ∃ threshold, nttPolyThreshold env = .ok threshold
  selects : Selects backend env
  evaluates : Evaluates backend env n q

end

theorem requirePublicEvalPointsDistinct_of_le (hn : n ≤ q) :
    requirePublicEvalPointsDistinct n q = .ok () := by
  by_cases h0 : n = 0
  · subst h0
    rfl
  · exact (requirePublicEvalPointsDistinct_eq (by omega)).1 hn

section

variable {ZZp ZZpX : Type} {backend backendA backendB : Option (Mpz → Ntl ZZp ZZpX)} {env : Env}
  {q mA mB n : ℕ}

theorem PsiConfig.bounds (hc : PsiConfig backend env q mA mB n) :
    mA + mB + 1 ≤ n ∧ n ≤ 2 ^ 24 := by
  obtain ⟨limit, _, hlimit, hle, hn⟩ := psiPointCount_bounds hc.count
  exact ⟨hle, hn.trans hlimit⟩

theorem PsiConfig.validate (hc : PsiConfig backend env q mA mB n) {values : List Mpz} {role : String}
    (hle : values.length ≤ mA + mB) (hne : values ≠ []) (hred : Reduced q values)
    (hnodup : values.Nodup) : validatePsiSet env values q role = .ok () := by
  obtain ⟨limit, hlimit, _, hn, hl⟩ := psiPointCount_bounds hc.count
  have hpos := List.length_pos_iff.mpr hne
  exact validatePsiSet_ok.mpr ⟨cgValidateCount_ok.mpr ⟨hpos, limit, hlimit, by omega⟩, hred, hnodup⟩

theorem PsiConfig.polyFromRoots (hq : 1 < q) (hlib : LawfulBackend backend q)
    (hc : PsiConfig backend env q mA mB n) {roots : List Mpz} (hle : roots.length ≤ mA + mB) :
    ∃ p, polyFromRootsWith backend env roots q = .ok p ∧ p.length = roots.length + 1 := by
  obtain ⟨threshold, ht⟩ := hc.threshold
  have hb := hc.bounds
  obtain ⟨p, hp⟩ := polyFromRootsWith_exists hq hlib ht hc.selects
    (show roots.length + 2 ≤ 2 ^ 63 by omega)
  obtain ⟨hcan, hprod⟩ := polyFromRootsWith_prod hq hlib hp
  exact ⟨p, hp, by rw [length_of_prod hq hcan hprod, Finset.card_range]⟩

theorem PsiConfig.masked [Fact q.Prime] (hlib : LawfulBackend backend q)
    (hc : PsiConfig backend env q mA mB n) {pA rAPrime : List Mpz} (hp : pA.length = mA + 1)
    (hr : rAPrime.length = mB + 1) :
    ∃ qA, polyMulModWith backend env pA rAPrime q = .ok qA ∧ qA.length ≤ n := by
  have hq := (Fact.out : q.Prime).pos
  obtain ⟨threshold, ht⟩ := hc.threshold
  have hb := hc.bounds
  obtain ⟨qA, hqA⟩ := polyMulModWith_exists ht hc.selects (a := pA) (b := rAPrime) (q := q) (by omega)
  obtain ⟨hcan, hprod⟩ := mulsMod_polyMulModWith hq hlib env _ _ _ hqA
  exact ⟨qA, hqA, (length_le_of_product hcan hprod (natDegree_toPoly_le hp.le) hr.le).trans hb.1⟩

theorem psiSender_exists [Fact q.Prime] (hlib : LawfulBackend backend q)
    {setA rA rAPrime : List Mpz} (hc : PsiConfig backend env q setA.length mB n) (role : String)
    (hne : setA ≠ []) (hred : Reduced q setA) (hnodup : setA.Nodup)
    (hr : rA.length = setA.length + 1) (hr' : rAPrime.length = mB + 1) :
    ∃ sent, psiSender backend env role setA mB rA rAPrime q = .ok sent := by
  have hq := (Fact.out : q.Prime).one_lt
  obtain ⟨pA, hpA, hplen⟩ := hc.polyFromRoots hq hlib (Nat.le_add_right setA.length mB)
  obtain ⟨qA, hqA, hqlen⟩ := hc.masked hlib hplen hr'
  obtain ⟨alpha, halpha, heval⟩ := hc.evaluates
  have hb := hc.bounds
  obtain ⟨bVals, hbv⟩ := heval qA hqlen
  obtain ⟨aVals, hav⟩ := heval rA (by omega)
  refine ⟨⟨alpha, bVals, aVals⟩, ?_⟩
  rw [psiSender, hc.validate (by omega) hne hred hnodup, ok_bind, hc.count, ok_bind, hpA, ok_bind,
    hqA, ok_bind, opaSendEvals, requirePublicEvalPointsDistinct_of_le hc.le, ok_bind, halpha,
    ok_bind, hbv, ok_bind, hav]
  rfl

theorem psiReceiverInputs_exists (hq : 1 < q) (hlib : LawfulBackend backend q) {setB : List Mpz}
    (hc : PsiConfig backend env q mA setB.length n) (role : String) (hne : setB ≠ [])
    (hred : Reduced q setB) (hnodup : setB.Nodup) :
    ∃ xVals, psiReceiverInputs backend env role mA setB q = .ok xVals := by
  obtain ⟨pB, hpB, hplen⟩ := hc.polyFromRoots hq hlib (Nat.le_add_left setB.length mA)
  obtain ⟨alpha, halpha, heval⟩ := hc.evaluates
  have hb := hc.bounds
  obtain ⟨xVals, hx⟩ := heval pB (by omega)
  refine ⟨xVals, ?_⟩
  rw [psiReceiverInputs, hc.validate (by omega) hne hred hnodup, ok_bind, hc.count, ok_bind, hpB,
    ok_bind, opaReceiveEvals, requirePublicEvalPointsDistinct_of_le hc.le, ok_bind, halpha, ok_bind]
  exact hx

theorem psiSender_config (hq : 1 < q) (hlib : LawfulBackend backend q) {role : String}
    {setA rA rAPrime : List Mpz} {sent : OpaSendEvals} (hr : rA.length = setA.length + 1)
    (hr' : rAPrime.length = mB + 1)
    (h : psiSender backend env role setA mB rA rAPrime q = .ok sent) :
    ∃ n, PsiConfig backend env q setA.length mB n := by
  obtain ⟨⟨⟩, hvalid, h⟩ := bind_eq_ok.mp h
  obtain ⟨n, hn, h⟩ := bind_eq_ok.mp h
  obtain ⟨pA, hpA, h⟩ := bind_eq_ok.mp h
  obtain ⟨qA, hqA, h⟩ := bind_eq_ok.mp h
  obtain ⟨⟨⟩, hdis, h⟩ := bind_eq_ok.mp h
  obtain ⟨alpha, halpha, h⟩ := bind_eq_ok.mp h
  obtain ⟨bVals, _, h⟩ := bind_eq_ok.mp h
  obtain ⟨aVals, hav, _⟩ := bind_eq_ok.mp h
  have hlen := publicEvalPointsCached_length halpha
  have hpos := (cgValidateCount_ok.mp (validatePsiSet_ok.mp hvalid).1).1
  obtain ⟨_, _, _, hle, _⟩ := psiPointCount_bounds hn
  have hrne : rAPrime ≠ [] := List.ne_nil_of_length_pos (by omega)
  refine ⟨n, hn, requirePublicEvalPointsDistinct_ok hdis,
    nttPolyThreshold_of_polyMulModWith (polyFromRootsWith_prod hq hlib hpA).1.ne_nil hrne hqA,
    selects_of_polyFromRootsWith (List.ne_nil_of_length_pos hpos) hpA, alpha, halpha,
    fun coeffs hcoeffs => ?_⟩
  exact polyEvalBatchAutoWith_transfer hq hlib hav (by omega) (by omega)

theorem psiRun_exists [Fact q.Prime] (hlibA : LawfulBackend backendA q)
    (hlibB : LawfulBackend backendB q) {envA envB : Env} {setA setB rA rAPrime : List Mpz}
    (hcA : PsiConfig backendA envA q setA.length setB.length n)
    (hcB : PsiConfig backendB envB q setA.length setB.length n) {coeffThreshold hornerMax : ℕ}
    (hcoeff : psiLagrangeToCoeffThreshold envB = .ok coeffThreshold)
    (hh : polyEvalAutoHornerMaxPoints envB = .ok hornerMax)
    (hm : polyEvalMethodEnv envB ≠ "ntt") (roleA roleB : String)
    (hA : setA ≠ [] ∧ Reduced q setA ∧ setA.Nodup) (hB : setB ≠ [] ∧ Reduced q setB ∧ setB.Nodup)
    (hr : rA.length = setA.length + 1) (hr' : rAPrime.length = setB.length + 1) :
    ∃ out, psiRun backendA backendB envA envB roleA roleB setA setB rA rAPrime q = .ok out := by
  have hq := (Fact.out : q.Prime).one_lt
  obtain ⟨sent, hsent⟩ := psiSender_exists hlibA hcA roleA hA.1 hA.2.1 hA.2.2 hr hr'
  obtain ⟨xVals, hx⟩ := psiReceiverInputs_exists hq hlibB hcB roleB hB.1 hB.2.1 hB.2.2
  have hview : psiView backendA backendB envA envB roleA roleB setA setB rA rAPrime q =
      .ok (oleOutputs sent.aVals sent.bVals xVals q) := by
    rw [psiView, hsent, ok_bind, hx, ok_bind]
    rfl
  obtain ⟨_, n', _, hn', _, hxl, _⟩ := psiReceiverInputs_ok hlibB hx
  obtain rfl : n = n' := psiOpaPointCount_unique rfl (psiPointCount_ok hcB.count) hn'
  have hlen : (oleOutputs sent.aVals sent.bVals xVals q).length = n := by simp [oleOutputs, hxl]
  obtain ⟨threshold, ht⟩ := hcB.threshold
  have hb := hcB.bounds
  obtain ⟨evalVals, hev⟩ := lagrangeEvalBatchAutoWith_exists hlibB ht hcB.selects hcoeff hh hm
    (y := oleOutputs sent.aVals sent.bVals xVals q) setB
    (hlen.trans_le hcB.le) (by omega) (by omega)
  refine ⟨((setB.zip evalVals).filter fun xv => xv.2 == 0).map Prod.fst, ?_⟩
  rw [psiRun, hview, ok_bind, psiReceiverOutput, hev, ok_bind]
  rfl

/-- The zeros of the polynomial behind the OLE outputs in the receiver's set. -/
theorem psiPolynomial_eval_zero [Fact q.Prime] {setA setB rA rAPrime : List Mpz}
    (hA : Reduced q setA) (hB : Reduced q setB) {x : Mpz} (hx : x ∈ setB) :
    (psiPolynomial q setA setB rA rAPrime).eval (x : ZMod q) = 0 ↔
      x ∈ setA ∨ polyValue rAPrime q x = 0 := by
  have hroot : (vanishing q setB).eval (x : ZMod q) = 0 :=
    (eval_vanishing_eq_zero hB (hB x hx)).mpr hx
  have hmask : (polyValue rAPrime q x = 0) ↔ (toPoly (ZMod q) rAPrime).eval (x : ZMod q) = 0 := by
    rw [← cast_polyValue natCast_modulus]
    refine ⟨fun h0 => by rw [h0, Int.cast_zero], fun h0 => ?_⟩
    have hrange := polyValue_range ((hB x hx).1.trans_lt (hB x hx).2) rAPrime x
    exact eq_of_cast_eq hrange ⟨le_rfl, hrange.1.trans_lt hrange.2⟩ (h0.trans Int.cast_zero.symm)
  rw [hmask, ← eval_vanishing_eq_zero hA (hB x hx), ← mul_eq_zero, psiPolynomial, eval_add, eval_mul,
    eval_mul, hroot, mul_zero, add_zero]

theorem psiRun_zeros [Fact q.Prime] (hlibA : LawfulBackend backendA q)
    (hlibB : LawfulBackend backendB q) {envA envB : Env}
    (hmode : nttRuntimeEnabled envA = nttRuntimeEnabled envB) {roleA roleB : String}
    {setA setB rA rAPrime out : List Mpz} (hr : rA.length = setA.length + 1)
    (hr' : rAPrime.length = setB.length + 1)
    (h : psiRun backendA backendB envA envB roleA roleB setA setB rA rAPrime q = .ok out) :
    (Reduced q setA ∧ Reduced q setB) ∧ out = setB.filter fun x : Mpz =>
      (((psiPolynomial q setA setB rA rAPrime).eval (x : ZMod q)).val : Mpz) == 0 := by
  obtain ⟨y, hy, h⟩ := bind_eq_ok.mp h
  obtain ⟨⟨hA, _⟩, ⟨hB, _⟩, hcount, hle, alpha, halpha, _, hval⟩ :=
    psiView_ok hlibA hlibB hmode hr hr' hy
  have hbound := (psiOpaPointCount_ok hcount).1
  obtain ⟨limit, hlimit, hle'⟩ := psiOpaPointCount_le hcount
  have hlimit24 := cgMaxItems_le hlimit
  have hne : y ≠ [] := List.ne_nil_of_length_pos (by omega)
  have hL : interpolant q y alpha = psiPolynomial q setA setB rA rAPrime := by
    refine (eq_interpolant hle halpha ?_ fun i hi => (hval i hi).symm).symm
    exact (degree_psiPolynomial_lt hr.le hr'.le).trans_le (by exact_mod_cast hbound)
  refine ⟨⟨hA, hB⟩, ?_⟩
  rw [psiReceiverOutput_ok hlibB hne (by omega) hle halpha h, ← hL]
  rfl

/-- One-way PSI returns the elements of the receiver's set that are in the
sender's set or are roots of the sender's mask, in the receiver's order, whatever
builds and settings the parties run. -/
theorem psiRun_intersection [Fact q.Prime] (hlibA : LawfulBackend backendA q)
    (hlibB : LawfulBackend backendB q) {envA envB : Env}
    (hmode : nttRuntimeEnabled envA = nttRuntimeEnabled envB) {roleA roleB : String}
    {setA setB rA rAPrime out : List Mpz} (hr : rA.length = setA.length + 1)
    (hr' : rAPrime.length = setB.length + 1)
    (h : psiRun backendA backendB envA envB roleA roleB setA setB rA rAPrime q = .ok out) :
    out = setB.filter fun x => x ∈ setA ∨
      (∑ j ∈ Finset.range rAPrime.length, rAPrime.getD j 0 * x ^ j) % (q : Mpz) = 0 := by
  obtain ⟨⟨hA, hB⟩, hout⟩ := psiRun_zeros hlibA hlibB hmode hr hr' h
  rw [hout]
  refine List.filter_congr fun x hx => ?_
  rw [Bool.eq_iff_iff, beq_iff_eq, decide_eq_true_iff, ← polyValue, Int.natCast_eq_zero,
    ZMod.val_eq_zero, psiPolynomial_eval_zero hA hB hx]

/-- Settings that force the library. -/
def forcedNtl : Env := fun name =>
  if name = "CG_POLY_EVAL_METHOD" then some "ntl"
  else if name = "CG_NTL_POLY_THRESHOLD" then some "0" else none

noncomputable def smallLibrary : Option (Mpz → Ntl (ZMod 7) (ZMod 7)[X]) := some fun _ => polynomialNtl 7

theorem smallLibrary_lawful : LawfulBackend smallLibrary 7 := fun lib hlib =>
  ⟨id, Option.some.inj hlib ▸ lawful_polynomialNtl (by decide)⟩

theorem smallLibrary_config : PsiConfig smallLibrary forcedNtl 7 2 3 6 :=
  ⟨rfl, by decide, ⟨512, rfl⟩, ntlSelected_exists fun _ => ⟨0, rfl⟩,
    evaluates_of_config (by decide) smallLibrary_lawful rfl (ntlSelected_exists fun _ => ⟨0, rfl⟩) rfl
      (by decide) (by decide)⟩

/-- The sender has the library and is told to use it, the receiver has none. The receiver keeps
`3` because it is in the sender's set and `1` because it is a root of the mask `6 + x`. -/
theorem psiRun_intersection_root :
    psiRun smallLibrary none forcedNtl (fun _ => none) "cg_psi_sender" "cg_psi_receiver" [3, 5]
      [1, 3, 4] [2, 0, 6] [6, 1, 0, 0] (7 : ℕ) = .ok [1, 3] := by
  have : Fact (Nat.Prime 7) := ⟨by decide⟩
  have hlib : LawfulBackend (none : Option (Mpz → Ntl (ZMod 7) (ZMod 7)[X])) 7 := by
    rintro lib ⟨⟩
  have hmode : nttRuntimeEnabled forcedNtl = nttRuntimeEnabled fun _ => none := rfl
  have hc : PsiConfig (none : Option (Mpz → Ntl (ZMod 7) (ZMod 7)[X])) (fun _ => none) 7 2 3 6 :=
    ⟨rfl, by decide, ⟨512, rfl⟩, fun _ => ⟨none, rfl⟩, evaluates_of_config (by decide) hlib rfl
      (fun _ => ⟨none, rfl⟩) rfl (by decide) (by decide)⟩
  have hA : ([3, 5] : List Mpz) ≠ [] ∧ Reduced (7 : ℕ) [3, 5] ∧ ([3, 5] : List Mpz).Nodup := by
    decide
  have hB : ([1, 3, 4] : List Mpz) ≠ [] ∧ Reduced (7 : ℕ) [1, 3, 4] ∧
      ([1, 3, 4] : List Mpz).Nodup := by
    decide
  obtain ⟨out, h⟩ := psiRun_exists smallLibrary_lawful hlib smallLibrary_config hc rfl rfl (by decide)
    "cg_psi_sender" "cg_psi_receiver" hA hB (rfl : ([2, 0, 6] : List Mpz).length = 3)
    (rfl : ([6, 1, 0, 0] : List Mpz).length = 4)
  have hout := psiRun_intersection smallLibrary_lawful hlib hmode rfl rfl h
  rw [h, hout]
  rfl

end

end RfClassGroups
