import Mathlib
import RfClassGroups.LagrangeAuto

/-! One-way PSI over an ideal OLE layer: the direct and the reverse-firewalled
executables differ only in the role of their messages and in the transport. Either party may
run a build with the polynomial library. -/

open Polynomial CoeffList ExceptList

namespace RfClassGroups

def validatePsiLoop (q : Mpz) (role : String) : List Mpz → List String → Except String Unit
  | [], _ => return ()
  | x :: values, seen =>
    if x < 0 ∨ q ≤ x then throw (role ++ ": PSI element outside Z_q")
    else if x.repr ∈ seen then throw (role ++ ": duplicate PSI element " ++ x.repr)
    else validatePsiLoop q role values (x.repr :: seen)

def validatePsiSet (env : Env) (values : List Mpz) (q : Mpz) (role : String) :
    Except String Unit := do
  cgValidateCount env values.length false
  validatePsiLoop q role values []

structure OpaSendEvals where
  alpha : List Mpz
  bVals : List Mpz
  aVals : List Mpz

/-- `psi_opa_point_count(cg_checked_add(cg_checked_add(m_A, m_B), 1), q)`. -/
def psiPointCount (env : Env) (mA mB : ℕ) (q : Mpz) : Except String ℕ := do
  let sum ← cgCheckedAdd env mA mB
  let bound ← cgCheckedAdd env sum 1
  psiOpaPointCount env bound q

def oleOutputs (aVals bVals xVals : List Mpz) (q : Mpz) : List Mpz :=
  (List.range xVals.length).map fun i =>
    (aVals.getD i 0 * xVals.getD i 0 + bVals.getD i 0) % q

section

variable {ZZp ZZpX : Type} (backend backendA backendB : Option (Mpz → Ntl ZZp ZZpX))

/-- The local half of `opa_receive_with_q` and `rf_opa_receive_with_q`. -/
def opaReceiveEvals (env : Env) (nPts : ℕ) (receiverPolyCoeffs : List Mpz) (q : Mpz) :
    Except String (List Mpz) := do
  requirePublicEvalPointsDistinct nPts q
  let alpha ← rfOpaEvalPoints env nPts q
  polyEvalBatchAutoWith backend env receiverPolyCoeffs alpha q

/-- The local half of `opa_send_with_q` and `rf_opa_send_with_q`. -/
def opaSendEvals (env : Env) (nPts : ℕ) (bPolyCoeffs aPolyCoeffs : List Mpz) (q : Mpz) :
    Except String OpaSendEvals := do
  requirePublicEvalPointsDistinct nPts q
  let alpha ← rfOpaEvalPoints env nPts q
  let bVals ← polyEvalBatchAutoWith backend env bPolyCoeffs alpha q
  let aVals ← polyEvalBatchAutoWith backend env aPolyCoeffs alpha q
  return ⟨alpha, bVals, aVals⟩

/-- The sender up to its OLE inputs; `rA` and `rAPrime` are the results of
`random_poly`. -/
def psiSender (env : Env) (role : String) (setA : List Mpz) (mB : ℕ) (rA rAPrime : List Mpz)
    (q : Mpz) : Except String OpaSendEvals := do
  validatePsiSet env setA q role
  let nPts ← psiPointCount env setA.length mB q
  let pA ← polyFromRootsWith backend env setA q
  let qA ← polyMulModWith backend env pA rAPrime q
  opaSendEvals backend env nPts qA rA q

def psiReceiverInputs (env : Env) (role : String) (mA : ℕ) (setB : List Mpz) (q : Mpz) :
    Except String (List Mpz) := do
  validatePsiSet env setB q role
  let nPts ← psiPointCount env mA setB.length q
  let pB ← polyFromRootsWith backend env setB q
  opaReceiveEvals backend env nPts pB q

def psiReceiverOutput (env : Env) (yVals setB : List Mpz) (q : Mpz) :
    Except String (List Mpz) := do
  let evalVals ← lagrangeEvalBatchAutoWith backend env yVals setB q
  return ((setB.zip evalVals).filter fun xv => xv.2 == 0).map Prod.fst

/-- The receiver's view: the OLE outputs of a run on two machines. -/
def psiView (envA envB : Env) (roleA roleB : String) (setA setB rA rAPrime : List Mpz) (q : Mpz) :
    Except String (List Mpz) := do
  let sent ← psiSender backendA envA roleA setA setB.length rA rAPrime q
  let xVals ← psiReceiverInputs backendB envB roleB setA.length setB q
  return oleOutputs sent.aVals sent.bVals xVals q

def psiRun (envA envB : Env) (roleA roleB : String) (setA setB rA rAPrime : List Mpz) (q : Mpz) :
    Except String (List Mpz) := do
  let yVals ← psiView backendA backendB envA envB roleA roleB setA setB rA rAPrime q
  psiReceiverOutput backendB envB yVals setB q

end

theorem validatePsiLoop_ok {q : Mpz} {role : String} {values : List Mpz} {seen : List String} :
    validatePsiLoop q role values seen = .ok () ↔
      Reduced q values ∧ values.Nodup ∧ ∀ x ∈ values, x.repr ∉ seen := by
  induction values generalizing seen with
  | nil => simp [validatePsiLoop, Reduced]
  | cons x values ih =>
    rw [validatePsiLoop]
    split
    · next h =>
      refine ⟨fun h' => by simp at h', fun h' => ?_⟩
      have hx := h'.1 x List.mem_cons_self
      exact absurd h (not_or.mpr ⟨not_lt.mpr hx.1, not_le.mpr hx.2⟩)
    split
    · next h =>
      refine ⟨fun h' => by simp at h', fun h' => ?_⟩
      exact absurd h (h'.2.2 x List.mem_cons_self)
    next hrange hseen =>
    rw [ih]
    constructor
    · rintro ⟨hred, hnodup, hnot⟩
      refine ⟨?_, ?_, ?_⟩
      · intro c hc
        rcases List.mem_cons.mp hc with rfl | hc
        · exact ⟨not_lt.mp (not_or.mp hrange).1, not_le.mp (not_or.mp hrange).2⟩
        · exact hred c hc
      · rw [List.nodup_cons]
        exact ⟨fun hx => hnot x hx List.mem_cons_self, hnodup⟩
      · intro c hc
        rcases List.mem_cons.mp hc with rfl | hc
        · exact hseen
        · exact fun h => hnot c hc (List.mem_cons_of_mem _ h)
    · rintro ⟨hred, hnodup, hnot⟩
      rw [List.nodup_cons] at hnodup
      refine ⟨fun c hc => hred c (List.mem_cons_of_mem _ hc), hnodup.2, fun c hc h => ?_⟩
      rcases List.mem_cons.mp h with h | h
      · exact hnodup.1 (Int.repr_injective h ▸ hc)
      · exact hnot c (List.mem_cons_of_mem _ hc) h

theorem validatePsiSet_ok {env : Env} {values : List Mpz} {q : Mpz} {role : String} :
    validatePsiSet env values q role = .ok () ↔
      cgValidateCount env values.length false = .ok () ∧ Reduced q values ∧ values.Nodup := by
  rw [validatePsiSet, bind_eq_ok]
  constructor
  · rintro ⟨⟨⟩, hcount, h⟩
    obtain ⟨hred, hnodup, _⟩ := validatePsiLoop_ok.mp h
    exact ⟨hcount, hred, hnodup⟩
  · rintro ⟨hcount, hred, hnodup⟩
    exact ⟨(), hcount, validatePsiLoop_ok.mpr ⟨hred, hnodup, fun _ _ => List.not_mem_nil⟩⟩

theorem psiPointCount_ok {env : Env} {mA mB n : ℕ} {q : Mpz}
    (h : psiPointCount env mA mB q = .ok n) : psiOpaPointCount env (mA + mB + 1) q = .ok n := by
  obtain ⟨sum, hsum, h⟩ := bind_eq_ok.mp h
  obtain ⟨bound, hbound, h⟩ := bind_eq_ok.mp h
  rwa [cgCheckedAdd_ok hbound, cgCheckedAdd_ok hsum] at h

theorem psiOpaPointCount_le {env : Env} {d n : ℕ} {q : Mpz} (h : psiOpaPointCount env d q = .ok n) :
    ∃ limit, cgMaxItems env = .ok limit ∧ n ≤ limit := by
  obtain ⟨⟨⟩, hcount, h⟩ := bind_eq_ok.mp h
  split at h
  · obtain ⟨count, _, h⟩ := bind_eq_ok.mp h
    obtain ⟨⟨⟩, hcount', h⟩ := bind_eq_ok.mp h
    simp only [pure_eq_ok, Except.ok.injEq] at h
    subst h
    exact (cgValidateCount_ok.mp hcount').2
  · simp only [pure_eq_ok, Except.ok.injEq] at h
    subst h
    exact (cgValidateCount_ok.mp hcount).2

theorem psiPointCount_bounds {env : Env} {mA mB n : ℕ} {q : Mpz}
    (h : psiPointCount env mA mB q = .ok n) : ∃ limit, cgMaxItems env = .ok limit ∧
      limit ≤ 2 ^ 24 ∧ mA + mB + 1 ≤ n ∧ n ≤ limit := by
  have h' := psiPointCount_ok h
  obtain ⟨limit, hlimit, hle⟩ := psiOpaPointCount_le h'
  exact ⟨limit, hlimit, cgMaxItems_le hlimit, (psiOpaPointCount_ok h').1, hle⟩

noncomputable def vanishing (q : ℕ) (xs : List Mpz) : (ZMod q)[X] :=
  ∏ j ∈ Finset.range xs.length, linearFactor q xs j

/-- The polynomial behind the OLE outputs. -/
noncomputable def psiPolynomial (q : ℕ) (setA setB rA rAPrime : List Mpz) : (ZMod q)[X] :=
  vanishing q setA * toPoly (ZMod q) rAPrime + toPoly (ZMod q) rA * vanishing q setB

theorem requirePublicEvalPointsDistinct_ok {q n : ℕ}
    (h : requirePublicEvalPointsDistinct n q = .ok ()) : n ≤ q := by
  by_contra hlt
  obtain ⟨e, he⟩ := (requirePublicEvalPointsDistinct_eq (q := q) (n := n) (by omega)).2 (by omega)
  rw [h] at he
  cases he

theorem natDegree_toPoly_le {q : ℕ} {p : List Mpz} {d : ℕ} (hp : p.length ≤ d + 1) :
    (toPoly (ZMod q) p).natDegree ≤ d := by
  rw [natDegree_le_iff_coeff_eq_zero]
  intro i hi
  rw [coeff_toPoly_eq_entry, entry_of_length_le (by omega)]

section

variable {q : ℕ} [Fact q.Prime]

theorem natDegree_vanishing (xs : List Mpz) : (vanishing q xs).natDegree = xs.length := by
  rw [vanishing]
  exact (natDegree_finsetProd_X_sub_C_eq_card _ _).trans (Finset.card_range _)

theorem degree_psiPolynomial_lt {setA setB rA rAPrime : List Mpz}
    (hr : rA.length ≤ setA.length + 1) (hr' : rAPrime.length ≤ setB.length + 1) :
    (psiPolynomial q setA setB rA rAPrime).degree < (setA.length + setB.length + 1 : ℕ) := by
  have h1 : (vanishing q setA * toPoly (ZMod q) rAPrime).natDegree ≤
      setA.length + setB.length :=
    natDegree_mul_le.trans (Nat.add_le_add (natDegree_vanishing setA).le (natDegree_toPoly_le hr'))
  have h2 : (toPoly (ZMod q) rA * vanishing q setB).natDegree ≤ setA.length + setB.length :=
    natDegree_mul_le.trans (Nat.add_le_add (natDegree_toPoly_le hr) (natDegree_vanishing setB).le)
  have hle := natDegree_add_le_of_degree_le h1 h2
  refine lt_of_le_of_lt degree_le_natDegree ?_
  exact_mod_cast Nat.lt_succ_of_le hle

theorem eval_vanishing_eq_zero {xs : List Mpz} (hxs : Reduced q xs) {x : Mpz}
    (hx : 0 ≤ x ∧ x < q) : (vanishing q xs).eval (x : ZMod q) = 0 ↔ x ∈ xs := by
  rw [vanishing, eval_prod, Finset.prod_eq_zero_iff]
  simp only [linearFactor, eval_sub, eval_X, eval_C, sub_eq_zero, Finset.mem_range]
  constructor
  · rintro ⟨j, hj, h⟩
    rw [List.getD_eq_getElem _ _ hj] at h
    rw [eq_of_cast_eq hx (hxs _ (List.getElem_mem hj)) h]
    exact List.getElem_mem hj
  · intro hmem
    obtain ⟨j, hj, rfl⟩ := List.getElem_of_mem hmem
    exact ⟨j, hj, by rw [List.getD_eq_getElem _ _ hj]⟩

theorem length_le_of_product {p a b : List Mpz} (hp : Canonical q p) {m k : ℕ}
    (h : toPoly (ZMod q) p = toPoly (ZMod q) a * toPoly (ZMod q) b)
    (ha : (toPoly (ZMod q) a).natDegree ≤ m) (hb : b.length ≤ k + 1) : p.length ≤ m + k + 1 := by
  rw [hp.length_eq (Fact.out : q.Prime).one_lt, h]
  exact Nat.succ_le_succ (natDegree_mul_le.trans (Nat.add_le_add ha (natDegree_toPoly_le hb)))

section

variable {ZZp ZZpX : Type} {backend backendA backendB : Option (Mpz → Ntl ZZp ZZpX)}

theorem entry_polyEvalBatchAutoWith (hlib : LawfulBackend backend q) {env : Env}
    {coeffs points r : List Mpz} (hlen : coeffs.length < 2 ^ 31)
    (h : polyEvalBatchAutoWith backend env coeffs points q = .ok r) : r.length = points.length ∧
      ∀ i < points.length,
        entry (ZMod q) r i = (toPoly (ZMod q) coeffs).eval (entry (ZMod q) points i) := by
  have hr := polyEvalBatchAutoWith_eq (Fact.out : q.Prime).one_lt hlib hlen h
  subst hr
  refine ⟨List.length_map _, fun i hi => ?_⟩
  rw [entry, List.getD_eq_getElem _ _ (by simpa using hi), List.getElem_map,
    cast_polyValue natCast_modulus, entry, List.getD_eq_getElem _ _ hi]

/-- The number of points keeps the coefficients within the counters of the evaluation. -/
theorem psiSender_ok (hlib : LawfulBackend backend q) {env : Env} {role : String}
    {setA rA rAPrime : List Mpz} {mB : ℕ} {sent : OpaSendEvals} (hr : rA.length = setA.length + 1)
    (hr' : rAPrime.length = mB + 1)
    (h : psiSender backend env role setA mB rA rAPrime q = .ok sent) :
    (Reduced q setA ∧ setA.Nodup) ∧ ∃ n, psiOpaPointCount env (setA.length + mB + 1) q = .ok n ∧
      n ≤ q ∧ publicEvalPointsCached env n q = .ok sent.alpha ∧
      (∀ i < n, entry (ZMod q) sent.bVals i = (vanishing q setA * toPoly (ZMod q) rAPrime).eval
        (entry (ZMod q) sent.alpha i)) ∧
      ∀ i < n, entry (ZMod q) sent.aVals i =
        (toPoly (ZMod q) rA).eval (entry (ZMod q) sent.alpha i) := by
  have hq := (Fact.out : q.Prime).one_lt
  obtain ⟨⟨⟩, hvalid, h⟩ := bind_eq_ok.mp h
  obtain ⟨n, hn, h⟩ := bind_eq_ok.mp h
  obtain ⟨pA, hpA, h⟩ := bind_eq_ok.mp h
  obtain ⟨qA, hqA, h⟩ := bind_eq_ok.mp h
  obtain ⟨⟨⟩, hdis, h⟩ := bind_eq_ok.mp h
  obtain ⟨alpha, halpha, h⟩ := bind_eq_ok.mp h
  obtain ⟨bVals, hb, h⟩ := bind_eq_ok.mp h
  obtain ⟨aVals, ha, h⟩ := bind_eq_ok.mp h
  simp only [pure_eq_ok, Except.ok.injEq] at h
  subst h
  have hlen := publicEvalPointsCached_length halpha
  obtain ⟨limit, -, hlimit, hle, hnl⟩ := psiPointCount_bounds hn
  have hroots : toPoly (ZMod q) pA = vanishing q setA := (polyFromRootsWith_prod hq hlib hpA).2
  obtain ⟨hcan, hprod⟩ := mulsMod_polyMulModWith (by omega) hlib env _ _ _ hqA
  have hqlen : qA.length ≤ setA.length + mB + 1 :=
    length_le_of_product hcan hprod (hroots ▸ (natDegree_vanishing setA).le) hr'.le
  rw [hroots] at hprod
  refine ⟨(validatePsiSet_ok.mp hvalid).2, n, psiPointCount_ok hn,
    requirePublicEvalPointsDistinct_ok hdis, halpha, fun i hi => ?_, fun i hi => ?_⟩
  · rw [(entry_polyEvalBatchAutoWith hlib (by omega) hb).2 i (by omega), hprod]
  · exact (entry_polyEvalBatchAutoWith hlib (by omega) ha).2 i (by omega)

theorem psiReceiverInputs_ok (hlib : LawfulBackend backend q) {env : Env} {role : String}
    {setB xVals : List Mpz} {mA : ℕ}
    (h : psiReceiverInputs backend env role mA setB q = .ok xVals) :
    (Reduced q setB ∧ setB.Nodup) ∧ ∃ n alpha,
      psiOpaPointCount env (mA + setB.length + 1) q = .ok n ∧
      publicEvalPointsCached env n q = .ok alpha ∧ xVals.length = n ∧
      ∀ i < n, entry (ZMod q) xVals i = (vanishing q setB).eval (entry (ZMod q) alpha i) := by
  have hq := (Fact.out : q.Prime).one_lt
  obtain ⟨⟨⟩, hvalid, h⟩ := bind_eq_ok.mp h
  obtain ⟨n, hn, h⟩ := bind_eq_ok.mp h
  obtain ⟨pB, hpB, h⟩ := bind_eq_ok.mp h
  obtain ⟨⟨⟩, _, h⟩ := bind_eq_ok.mp h
  obtain ⟨alpha, halpha, h⟩ := bind_eq_ok.mp h
  have hlen := publicEvalPointsCached_length halpha
  obtain ⟨limit, -, hlimit, hle, hnl⟩ := psiPointCount_bounds hn
  obtain ⟨hcan, hroots⟩ := polyFromRootsWith_prod hq hlib hpB
  have hplen := length_of_prod hq hcan hroots
  rw [Finset.card_range] at hplen
  obtain ⟨hxl, hx⟩ := entry_polyEvalBatchAutoWith hlib (by omega) h
  refine ⟨(validatePsiSet_ok.mp hvalid).2, n, alpha, psiPointCount_ok hn, halpha,
    hxl.trans hlen, fun i hi => ?_⟩
  rw [hx i (by omega), hroots]
  rfl

theorem entry_oleOutputs {aVals bVals xVals : List Mpz} {i : ℕ} (hi : i < xVals.length) :
    entry (ZMod q) (oleOutputs aVals bVals xVals q) i =
      entry (ZMod q) aVals i * entry (ZMod q) xVals i + entry (ZMod q) bVals i := by
  simp [entry, oleOutputs, hi, cast_emod natCast_modulus]

/-- The receiver's view holds the evaluations of one polynomial at the public points. -/
theorem psiView_ok (hlibA : LawfulBackend backendA q) (hlibB : LawfulBackend backendB q)
    {envA envB : Env} (hmode : nttRuntimeEnabled envA = nttRuntimeEnabled envB)
    {roleA roleB : String} {setA setB rA rAPrime y : List Mpz} (hr : rA.length = setA.length + 1)
    (hr' : rAPrime.length = setB.length + 1)
    (h : psiView backendA backendB envA envB roleA roleB setA setB rA rAPrime q = .ok y) :
    (Reduced q setA ∧ setA.Nodup) ∧ (Reduced q setB ∧ setB.Nodup) ∧
    psiOpaPointCount envB (setA.length + setB.length + 1) q = .ok y.length ∧ y.length ≤ q ∧
    ∃ alpha, rfOpaEvalPoints envB y.length q = .ok alpha ∧ Reduced q y ∧
      ∀ i < y.length, entry (ZMod q) y i =
        (psiPolynomial q setA setB rA rAPrime).eval (entry (ZMod q) alpha i) := by
  obtain ⟨sent, hsent, h⟩ := bind_eq_ok.mp h
  obtain ⟨xVals, hx, h⟩ := bind_eq_ok.mp h
  simp only [pure_eq_ok, Except.ok.injEq] at h
  subst h
  obtain ⟨hA, n, hn, hnq, halpha, hb, ha⟩ := psiSender_ok hlibA hr hr' hsent
  obtain ⟨hB, n', alpha, hn', halpha', hxl, hxv⟩ := psiReceiverInputs_ok hlibB hx
  obtain rfl := psiOpaPointCount_unique hmode hn hn'
  obtain rfl : sent.alpha = alpha := by
    rw [publicEvalPointsCached_congr hmode] at halpha
    simpa using halpha.symm.trans halpha'
  have hlen : (oleOutputs sent.aVals sent.bVals xVals q).length = n := by
    simp [oleOutputs, hxl]
  have hq : (0 : ℤ) < (q : ℕ) := by exact_mod_cast (Fact.out : q.Prime).pos
  refine ⟨hA, hB, ?_, ?_, sent.alpha, ?_, reduced_map_emod hq _ _, fun i hi => ?_⟩
  · rwa [hlen]
  · rwa [hlen]
  · rw [hlen]
    exact halpha'
  · rw [hlen] at hi
    rw [entry_oleOutputs (by omega), ha i hi, hb i hi, hxv i hi, psiPolynomial, eval_add,
      eval_mul, eval_mul, add_comm]

theorem zip_map_filter {α β : Type} (l : List α) (f : α → β) (p : β → Bool) :
    ((l.zip (l.map f)).filter fun xv => p xv.2).map Prod.fst = l.filter fun x => p (f x) := by
  induction l with
  | nil => rfl
  | cons x l ih =>
    rw [List.map_cons, List.zip_cons_cons, List.filter_cons, List.filter_cons]
    split
    · rw [List.map_cons, ih]
    · exact ih

theorem psiReceiverOutput_ok (hlib : LawfulBackend backend q) {env : Env}
    {y setB out alpha : List Mpz} (hy : y ≠ []) (hlen : y.length < 2 ^ 31) (hle : y.length ≤ q) (ha : rfOpaEvalPoints env y.length q = .ok alpha)
    (h : psiReceiverOutput backend env y setB q = .ok out) :
    out = setB.filter fun x => interpolantValue q y alpha x == 0 := by
  obtain ⟨evalVals, hev, h⟩ := bind_eq_ok.mp h
  simp only [pure_eq_ok, Except.ok.injEq] at h
  rw [← h, lagrangeEvalBatchAutoWith_ok hlib hy hlen hle ha hev]
  exact zip_map_filter setB (interpolantValue q y alpha) (· == 0)

end

end

end RfClassGroups
