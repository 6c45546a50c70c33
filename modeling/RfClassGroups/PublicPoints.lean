import RfClassGroups.SubproductTree

/-! The public evaluation points: the roots of unity of a supported domain,
`1, …, n` outside it. -/

open Polynomial CoeffList ExceptList

namespace RfClassGroups

def publicEvalPointsCached (env : Env) (n : ℕ) (q : Mpz) : Except String (List Mpz) :=
  if nttDomainSupported env q n then nttDomainPoints env n q
  else return (List.range n).map fun i => ((i + 1 : ℕ) : Mpz)

def isPublicEvalPoints (env : Env) (points : List Mpz) (q : Mpz) : Except String Bool := do
  let publicPoints ← publicEvalPointsCached env points.length q
  return (List.range points.length).all fun i => points.getD i 0 == publicPoints.getD i 0

/-- `public_product_tree_cached` of a build with or without the library. -/
def publicProductTreeCachedWith {ZZp ZZpX : Type} (backend : Option (Mpz → Ntl ZZp ZZpX)) (env : Env)
    (n : ℕ) (q : Mpz) : Except String PolyProductTree := do
  let publicPoints ← publicEvalPointsCached env n q
  polyBuildProductTreeWith backend env publicPoints q

def publicProductTreeCached (env : Env) (n : ℕ) (q : Mpz) : Except String PolyProductTree :=
  publicProductTreeCachedWith builtIn env n q

def rfOpaEvalPoints (env : Env) (nPts : ℕ) (q : Mpz) : Except String (List Mpz) :=
  publicEvalPointsCached env nPts q

def psiOpaPointCount (env : Env) (degreeBoundPlusOne : ℕ) (q : Mpz) : Except String ℕ := do
  cgValidateCount env degreeBoundPlusOne false
  if nttRuntimeEnabled env && isNtt128Prime q then
    let count ← nextPowerOfTwoSize degreeBoundPlusOne
    cgValidateCount env count false
    return count
  else return degreeBoundPlusOne

def requirePublicEvalPointsDistinct (nPts : ℕ) (q : Mpz) : Except String Unit :=
  if nPts = 0 then return ()
  else if (nPts : Mpz) > q then
    throw ("public OPA/Lagrange point count n_pts=" ++ toString nPts ++
      " exceeds plaintext field size q=" ++ toString q ++
      "; alpha_i=i+1 would repeat modulo q")
  else return ()

theorem publicEvalPointsCached_length {env : Env} {n : ℕ} {q : Mpz} {points : List Mpz}
    (h : publicEvalPointsCached env n q = .ok points) : points.length = n := by
  unfold publicEvalPointsCached at h
  split at h
  · next hsup =>
    obtain ⟨_, rfl, k, rfl⟩ := nttDomainSupported_iff.mp hsup
    exact (nttDomainPoints_ok h).2.1
  · simp only [pure_eq_ok, Except.ok.injEq] at h
    simp [← h]

theorem isPublicEvalPoints_true {env : Env} {points : List Mpz} {q : Mpz}
    (h : isPublicEvalPoints env points q = .ok true) :
    publicEvalPointsCached env points.length q = .ok points := by
  obtain ⟨publicPoints, hp, h⟩ := bind_eq_ok.mp h
  simp only [pure_eq_ok, Except.ok.injEq, List.all_eq_true, List.mem_range, beq_iff_eq] at h
  have hlen := publicEvalPointsCached_length hp
  have heq : publicPoints = points := by
    refine List.ext_getElem hlen fun i hi hi' => ?_
    have hh := h i hi'
    rw [List.getD_eq_getElem _ _ hi, List.getD_eq_getElem _ _ hi'] at hh
    exact hh.symm
  rw [hp, heq]

theorem publicEvalPoints_ntt {env : Env} {k : ℕ} {points : List Mpz}
    (hsup : nttDomainSupported env cgNtt128Prime (2 ^ k) = true)
    (h : publicEvalPointsCached env (2 ^ k) cgNtt128Prime = .ok points) :
    k ≤ 64 ∧ ∀ i < 2 ^ k, entry NttField points i = nttRoot k ^ i := by
  rw [publicEvalPointsCached, if_pos hsup] at h
  obtain ⟨hk, _, _, hx⟩ := nttDomainPoints_ok h
  exact ⟨hk, hx⟩

theorem publicEvalPoints_succ {env : Env} {n : ℕ} {q : Mpz} {points : List Mpz}
    (hsup : nttDomainSupported env q n = false)
    (h : publicEvalPointsCached env n q = .ok points) (i : ℕ) (hi : i < n) :
    points.getD i 0 = ((i + 1 : ℕ) : Mpz) := by
  rw [publicEvalPointsCached, hsup] at h
  simp only [Bool.false_eq_true, if_false, pure_eq_ok, Except.ok.injEq] at h
  rw [← h, List.getD_eq_getElem _ _ (by simpa using hi)]
  simp

theorem publicEvalPoints_injOn {env : Env} {n q : ℕ} {points : List Mpz} (hn : n ≤ q)
    (h : publicEvalPointsCached env n q = .ok points) {i j : ℕ} (hi : i < n) (hj : j < n)
    (hij : entry (ZMod q) points i = entry (ZMod q) points j) : i = j := by
  by_cases hsup : nttDomainSupported env q n = true
  · obtain ⟨_, hq, k, rfl⟩ := nttDomainSupported_iff.mp hsup
    obtain rfl : q = cgNtt128Prime := by exact_mod_cast hq
    obtain ⟨hk, hx⟩ := publicEvalPoints_ntt hsup h
    rw [hx i hi, hx j hj] at hij
    exact nttRoot_pow_inj hk hi hj hij
  · have hsup' : nttDomainSupported env q n = false := by simpa using hsup
    rw [entry, entry, publicEvalPoints_succ hsup' h i hi, publicEvalPoints_succ hsup' h j hj,
      Int.cast_natCast, Int.cast_natCast, ZMod.natCast_eq_natCast_iff'] at hij
    by_cases hi1 : i + 1 = q
    · by_cases hj1 : j + 1 = q
      · omega
      · rw [hi1, Nat.mod_self, Nat.mod_eq_of_lt (by omega)] at hij
        omega
    · by_cases hj1 : j + 1 = q
      · rw [hj1, Nat.mod_self, Nat.mod_eq_of_lt (by omega)] at hij
        omega
      · rw [Nat.mod_eq_of_lt (by omega), Nat.mod_eq_of_lt (by omega)] at hij
        omega

theorem publicEvalPointsCached_congr {env env' : Env}
    (h : nttRuntimeEnabled env = nttRuntimeEnabled env') (n : ℕ) (q : Mpz) :
    publicEvalPointsCached env n q = publicEvalPointsCached env' n q := by
  have hsup : nttDomainSupported env q n = nttDomainSupported env' q n := by
    rw [nttDomainSupported, nttDomainSupported, h]
  rw [publicEvalPointsCached, publicEvalPointsCached, hsup, nttDomainPoints, nttDomainPoints,
    nttPrimitiveRoot, nttPrimitiveRoot, hsup]

theorem cgValidateCount_bind_ok {α : Type} {env : Env} {n : ℕ} {z : Bool} {f : Unit → Except String α}
    {r : α} (h : (cgValidateCount env n z >>= f) = .ok r) : f () = .ok r := by
  obtain ⟨⟨⟩, _, h⟩ := bind_eq_ok.mp h
  exact h

/-- A returned count is the bound rounded up by the mode. -/
theorem psiOpaPointCount_ok {env : Env} {d n : ℕ} {q : Mpz}
    (h : psiOpaPointCount env d q = .ok n) : d ≤ n ∧
      if nttRuntimeEnabled env && isNtt128Prime q then nextPowerOfTwoSize d = .ok n else n = d := by
  have hh := cgValidateCount_bind_ok h
  split at hh
  · next hntt =>
    obtain ⟨count, hcount, hh⟩ := bind_eq_ok.mp hh
    have hret := cgValidateCount_bind_ok hh
    simp only [pure_eq_ok, Except.ok.injEq] at hret
    subst hret
    rw [if_pos hntt]
    exact ⟨(nextPowerOfTwoSize_ok hcount).1, hcount⟩
  · next hntt =>
    simp only [pure_eq_ok, Except.ok.injEq] at hh
    rw [if_neg hntt]
    exact ⟨hh.le, hh.symm⟩

theorem psiOpaPointCount_unique {env env' : Env} {d n n' : ℕ} {q : Mpz}
    (hmode : nttRuntimeEnabled env = nttRuntimeEnabled env')
    (h : psiOpaPointCount env d q = .ok n) (h' : psiOpaPointCount env' d q = .ok n') : n = n' := by
  have h1 := (psiOpaPointCount_ok h).2
  have h2 := (psiOpaPointCount_ok h').2
  rw [hmode] at h1
  split at h1
  · next hntt =>
    rw [if_pos hntt] at h2
    simpa using h1.symm.trans h2
  · next hntt =>
    rw [if_neg hntt] at h2
    exact h1.trans h2.symm

end RfClassGroups
