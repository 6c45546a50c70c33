import RfClassGroups.Lib.Barycentric
import RfClassGroups.PolyEval

/-! Reconstruction from values at the public points: the combination of a
subproduct tree, the inverse transform, and barycentric evaluation, with the
dispatcher over them. -/

open Polynomial CoeffList ExceptList Loops

namespace RfClassGroups

def polyDerivativeMod (p : List Mpz) (q : Mpz) : List Mpz :=
  if p.length ≤ 1 then [0]
  else polyTrim ((List.range (p.length - 1)).map fun i =>
    p.getD (i + 1) 0 * ((i + 1 : ℕ) : Mpz) % q)

section

variable {ZZp ZZpX : Type}

def combineLevelWith (backend : Option (Mpz → Ntl ZZp ZZpX)) (env : Env)
    (acc polys : List (List Mpz)) (q : Mpz) : Except String (List (List Mpz)) :=
  (List.range ((acc.length + 1) / 2)).mapM fun i =>
    if acc.length ≤ 2 * i + 1 then return acc.getD (2 * i) []
    else do
      let left ← polyMulModWith backend env (acc.getD (2 * i) []) (polys.getD (2 * i + 1) []) q
      let right ← polyMulModWith backend env (acc.getD (2 * i + 1) []) (polys.getD (2 * i) []) q
      return polyAddMod left right q

/-- `lagrange_interpolate_from_tree` of a build with or without the library. -/
def lagrangeInterpolateFromTreeWith (backend : Option (Mpz → Ntl ZZp ZZpX)) (env : Env)
    (y : List Mpz) (tree : PolyProductTree) (q : Mpz) : Except String (List Mpz) :=
  if y = [] then return [0]
  else if tree.levels = [] ∨ (tree.levels.getD 0 []).length ≠ y.length then
    throw "lagrange_interpolate_from_tree: bad tree"
  else do
    let alpha ← rfOpaEvalPoints env y.length q
    let denom ← polyEvalBatchProductTreeWith backend env (polyDerivativeMod tree.root q) alpha q
    let acc ← (List.range y.length).mapM fun i => do
      let inv ← modInverse (denom.getD i 0) q
      return [y.getD i 0 * inv % q]
    let acc ← (List.range (tree.levels.length - 1)).foldlM
      (fun acc level => combineLevelWith backend env acc (tree.levels.getD level []) q) acc
    return acc.getD 0 []

end

def lagrangeInterpolateFromTree (env : Env) (y : List Mpz) (tree : PolyProductTree) (q : Mpz) :
    Except String (List Mpz) :=
  lagrangeInterpolateFromTreeWith builtIn env y tree q

def lagrangeInterpolateNtt (env : Env) (y : List Mpz) (q : Mpz) : Except String (List Mpz) :=
  if !nttDomainSupported env q y.length then
    throw "lagrange_interpolate_ntt: unsupported NTT domain"
  else do
    let coeffs ← nttInplace env (y.map (· % q)) q true
    return polyTrim coeffs

/-- `lagrange_interpolate_public_points` of a build with or without the library. -/
def lagrangeInterpolatePublicPointsWith {ZZp ZZpX : Type} (backend : Option (Mpz → Ntl ZZp ZZpX))
    (env : Env) (y : List Mpz) (q : Mpz) : Except String (List Mpz) :=
  if nttDomainSupported env q y.length then lagrangeInterpolateNtt env y q
  else do
    match ← ntlSelected backend env y.length with
    | some lib =>
      let ntl := lib q
      let alpha ← rfOpaEvalPoints env y.length q
      let p ← ntl.interpolate (ntlVecFromMpzVec ntl alpha) (ntlVecFromMpzVec ntl y)
      return mpzVecFromNtlPoly ntl p
    | none =>
      let tree ← publicProductTreeCachedWith backend env y.length q
      lagrangeInterpolateFromTreeWith backend env y tree q

def factorialTable (n : ℕ) (q : Mpz) : List Mpz :=
  (List.range (n - 1)).foldl
    (fun fact i => fact.set (i + 1) (fact.getD i 0 * ((i + 1 : ℕ) : Mpz) % q)) (List.replicate n 1)

def lagrangeDenominatorInverses (n : ℕ) (q : Mpz) : Except String (List Mpz) := do
  requirePublicEvalPointsDistinct n q
  let fact := factorialTable n q
  (List.range n).mapM fun i =>
    let d := fact.getD i 0 * fact.getD (n - 1 - i) 0 % q
    modInverse (if (n - 1 - i) % 2 ≠ 0 then q - d else d) q

/-- `L[i] = prod_{j<i} (xi - (j+1))`; the state is the table and `cur`. -/
def prefixProducts (n : ℕ) (xi q : Mpz) : List Mpz :=
  ((List.range (n - 1)).foldl (fun (s : List Mpz × Mpz) i =>
    let cur := s.2 * ((xi - ((i + 1 : ℕ) : Mpz)) % q) % q
    (s.1.set (i + 1) cur, cur)) (List.replicate n 1, 1)).1

/-- One pass of the loop that fills `R`, at the counter `i = k + 1`. -/
def suffixStep (xi q : Mpz) (s : List Mpz × Mpz) (k : ℕ) : List Mpz × Mpz :=
  let i := k + 1
  let cur := s.2 * ((xi - ((i + 1 : ℕ) : Mpz)) % q) % q
  (s.1.set (i - 1) cur, cur)

/-- `R[i] = prod_{j>i} (xi - (j+1))`, filled from the last index down; the counter
`int i = (int)N - 1` has 32 bits. -/
def suffixProducts (n : ℕ) (xi q : Mpz) : List Mpz :=
  ((countdown (int32 (int32 n - 1) - 1)).foldl (suffixStep xi q) (List.replicate n 1, 1)).1

def lagrangeEvalAt (w : List Mpz) (n : ℕ) (xi q : Mpz) : Mpz :=
  (List.range n).foldl (fun res i =>
    (res + w.getD i 0 * (prefixProducts n xi q).getD i 0 % q *
      (suffixProducts n xi q).getD i 0 % q) % q) 0

def lagrangeEvalBatch (y targets : List Mpz) (q : Mpz) : Except String (List Mpz) :=
  if y = [] then return List.replicate targets.length 0
  else do
    let dInv ← lagrangeDenominatorInverses y.length q
    let w := (List.range y.length).map fun i => y.getD i 0 * dInv.getD i 0 % q
    return targets.map fun xi => lagrangeEvalAt w y.length xi q

def psiLagrangeToCoeffThreshold (env : Env) : Except String ℕ :=
  match env.text "CG_PSI_INTERP_TO_COEFF_THRESHOLD" with
  | some value => cgParseSize env (some value) "polynomial threshold" true 0
  | none => return 4096

/-- `lagrange_eval_batch_auto` of a build with or without the library. -/
def lagrangeEvalBatchAutoWith {ZZp ZZpX : Type} (backend : Option (Mpz → Ntl ZZp ZZpX)) (env : Env)
    (y targets : List Mpz) (q : Mpz) : Except String (List Mpz) := do
  let threshold ← psiLagrangeToCoeffThreshold env
  if y = [] ∨ targets = [] then return List.replicate targets.length 0
  else if nttDomainSupported env q y.length then
    let coeffs ← lagrangeInterpolateNtt env y q
    polyEvalBatchAutoWith backend env coeffs targets q
  else if max y.length targets.length < threshold then lagrangeEvalBatch y targets q
  else
    let coeffs ← lagrangeInterpolatePublicPointsWith backend env y q
    polyEvalBatchAutoWith backend env coeffs targets q

def lagrangeEvalBatchAuto (env : Env) (y targets : List Mpz) (q : Mpz) :
    Except String (List Mpz) :=
  lagrangeEvalBatchAutoWith builtIn env y targets q

noncomputable def interpolant (q : ℕ) [Fact q.Prime] (y alpha : List Mpz) : (ZMod q)[X] :=
  Lagrange.interpolate (Finset.range y.length) (entry (ZMod q) alpha) (entry (ZMod q) y)

theorem alpha_inj {q : ℕ} {env : Env} {y alpha : List Mpz} (hle : y.length ≤ q)
    (ha : rfOpaEvalPoints env y.length q = .ok alpha) :
    ∀ i < y.length, ∀ j < y.length,
      entry (ZMod q) alpha i = entry (ZMod q) alpha j → i = j :=
  fun _ hi _ hj h => publicEvalPoints_injOn hle ha hi hj h

theorem alpha_injOn {q : ℕ} {env : Env} {y alpha : List Mpz} (hle : y.length ≤ q)
    (ha : rfOpaEvalPoints env y.length q = .ok alpha) :
    Set.InjOn (entry (ZMod q) alpha) (Finset.range y.length) := fun i hi j hj h =>
  alpha_inj hle ha i (by simpa using hi) j (by simpa using hj) h

section

variable {q : ℕ} [Fact q.Prime] {env : Env} {y alpha : List Mpz}

theorem degree_interpolant (hle : y.length ≤ q) (ha : rfOpaEvalPoints env y.length q = .ok alpha) :
    (interpolant q y alpha).degree < y.length := by
  have hh := Lagrange.degree_interpolate_lt (entry (ZMod q) y) (alpha_injOn hle ha)
  rwa [Finset.card_range] at hh

theorem eval_interpolant (hle : y.length ≤ q) (ha : rfOpaEvalPoints env y.length q = .ok alpha)
    (i : ℕ) (hi : i < y.length) :
    (interpolant q y alpha).eval (entry (ZMod q) alpha i) = entry (ZMod q) y i :=
  Lagrange.eval_interpolate_at_node (entry (ZMod q) y) (alpha_injOn hle ha) (by simpa using hi)

theorem eq_interpolant (hle : y.length ≤ q) (ha : rfOpaEvalPoints env y.length q = .ok alpha)
    {L : (ZMod q)[X]} (hdeg : L.degree < y.length)
    (h : ∀ i < y.length, L.eval (entry (ZMod q) alpha i) = entry (ZMod q) y i) :
    L = interpolant q y alpha := by
  refine Lagrange.eq_interpolate_of_eval_eq _ (alpha_injOn hle ha) (by simpa using hdeg) ?_
  intro i hi
  exact h i (by simpa using hi)

theorem lagrangeInterpolateNtt_length {coeffs : List Mpz}
    (h : lagrangeInterpolateNtt env y q = .ok coeffs) : coeffs.length ≤ y.length := by
  unfold lagrangeInterpolateNtt at h
  split at h
  · simp at h
  next hsup =>
  obtain ⟨_, hqeq, k, hk⟩ := nttDomainSupported_iff.mp (by simpa using hsup)
  obtain rfl : q = cgNtt128Prime := by exact_mod_cast hqeq
  obtain ⟨out, hout, h⟩ := bind_eq_ok.mp h
  simp only [pure_eq_ok, Except.ok.injEq] at h
  rw [← h, hk, ← (nttInplace_inverse (by simpa using hk) hout).2.1]
  exact polyTrim_length_le out

theorem lagrangeInterpolateNtt_spec (hle : y.length ≤ q)
    (ha : rfOpaEvalPoints env y.length q = .ok alpha) {coeffs : List Mpz}
    (h : lagrangeInterpolateNtt env y q = .ok coeffs) :
    toPoly (ZMod q) coeffs = interpolant q y alpha := by
  unfold lagrangeInterpolateNtt at h
  split at h
  · simp at h
  next hsup =>
  have hsup' : nttDomainSupported env q y.length = true := by simpa using hsup
  obtain ⟨_, hqeq, k, hk⟩ := nttDomainSupported_iff.mp hsup'
  obtain rfl : q = cgNtt128Prime := by exact_mod_cast hqeq
  obtain ⟨out, hout, h⟩ := bind_eq_ok.mp h
  simp only [pure_eq_ok, Except.ok.injEq] at h
  subst h
  obtain ⟨hk64, hlen, hx⟩ := nttInplace_inverse (by simpa using hk) hout
  have hroots : ∀ i < 2 ^ k, entry NttField alpha i = nttRoot k ^ i := by
    rw [hk] at hsup' ha
    exact (publicEvalPoints_ntt hsup' ha).2
  rw [toPoly_polyTrim]
  refine eq_interpolant hle ha ?_ fun i hi => ?_
  · rw [hk, ← hlen]
    exact degree_toPoly_lt out
  · rw [hroots i (hk ▸ hi), hx i (hk ▸ hi), entry, List.getD_eq_getElem _ _ (by simpa using hi),
      List.getElem_map, cast_emod cast_cgNtt128Prime, entry, List.getD_eq_getElem _ _ hi]

end

end RfClassGroups
