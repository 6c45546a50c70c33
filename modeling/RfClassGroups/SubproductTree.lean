import RfClassGroups.NtlBackend

/-! The subproduct tree and the vanishing polynomial, in a build with or
without the library: the shape of the levels, every node as the canonical list
of a monic product, and the roots. -/

open Polynomial CoeffList ExceptList

namespace RfClassGroups

section

variable {ZZp ZZpX : Type}

/-- `poly_build_product_tree` of a build with or without the library. -/
def polyBuildProductTreeWith (backend : Option (Mpz → Ntl ZZp ZZpX)) (env : Env)
    (points : List Mpz) (q : Mpz) : Except String PolyProductTree :=
  if points = [] then return ⟨[]⟩
  else do
    let levels ← PairTree.levels (polyMulModWith backend env · · q) []
      (points.map (polyLinearFromRoot · q))
    return ⟨levels⟩

/-- `poly_from_roots` of a build with or without the library. -/
def polyFromRootsWith (backend : Option (Mpz → Ntl ZZp ZZpX)) (env : Env) (roots : List Mpz)
    (q : Mpz) : Except String (List Mpz) :=
  if roots = [] then return [1]
  else do
    match ← ntlSelected backend env roots.length with
    | some lib =>
      let ntl := lib q
      return mpzVecFromNtlPoly ntl (ntl.buildFromRoots (ntlVecFromMpzVec ntl roots))
    | none =>
      let tree ← polyBuildProductTreeWith backend env roots q
      return tree.root

theorem polyBuildProductTreeWith_none (env : Env) (points : List Mpz) (q : Mpz) :
    polyBuildProductTreeWith (none : Option (Mpz → Ntl ZZp ZZpX)) env points q =
      polyBuildProductTree env points q := by
  simp only [polyBuildProductTreeWith, polyBuildProductTree, polyMulModWith_none,
    polyTreeLevels_eq]

end

/-- `p` is the canonical list of the monic polynomial `f`. -/
structure MonicCoeffs (q : ℕ) (p : List Mpz) (f : (ZMod q)[X]) : Prop where
  canonical : Canonical q p
  toPoly_eq : toPoly (ZMod q) p = f
  leading : p.getLast? = some 1
  length_eq : p.length = f.natDegree + 1

theorem monicCoeffs_of_monic {q : ℕ} (hq : 1 < q) {p : List Mpz} {f : (ZMod q)[X]}
    (hp : Canonical q p) (he : toPoly (ZMod q) p = f) (hf : f.Monic) : MonicCoeffs q p f where
  canonical := hp
  toPoly_eq := he
  leading := by
    have hq0 : (0 : ℤ) < (q : ℕ) := by exact_mod_cast zero_lt_one.trans hq
    have hpos := List.length_pos_iff.mpr hp.ne_nil
    have hlen := hp.length_eq hq
    have hcoeff : ((p.getD (p.length - 1) 0 : ℤ) : ZMod q) = ((1 : ℤ) : ZMod q) := by
      rw [← coeff_toPoly, hlen, Nat.add_sub_cancel, he, Int.cast_one]
      exact hf
    have hone := eq_of_cast_eq (hp.getD_range hq0 _) ⟨zero_le_one, by exact_mod_cast hq⟩ hcoeff
    rw [List.getD_eq_getElem _ _ (by omega)] at hone
    rw [List.getLast?_eq_getElem?, List.getElem?_eq_getElem (by omega), hone]
  length_eq := by rw [hp.length_eq hq, he]

theorem MonicCoeffs.unique {q : ℕ} (hq : 0 < q) {p r : List Mpz} {f : (ZMod q)[X]}
    (hp : MonicCoeffs q p f) (hr : MonicCoeffs q r f) : p = r :=
  hp.canonical.ext hq hr.canonical (hp.toPoly_eq.trans hr.toPoly_eq.symm)

/-- What is true of the levels of the tree over `xs`. -/
structure SubproductTree (q : ℕ) (xs : List Mpz) (levels : List (List (List Mpz))) : Prop where
  height : 0 < levels.length
  leaves : (levels.getD 0 []).length = xs.length
  halves : ∀ k, k + 1 < levels.length →
    (levels.getD (k + 1) []).length = ((levels.getD k []).length + 1) / 2
  wide : ∀ k, k + 1 < levels.length → 1 < (levels.getD k []).length
  root : (levels.getD (levels.length - 1) []).length = 1
  node : ∀ k < levels.length, ∀ i < (levels.getD k []).length,
    MonicCoeffs q ((levels.getD k []).getD i [])
      (∏ j ∈ Finset.Ico (i * 2 ^ k) (min xs.length ((i + 1) * 2 ^ k)),
        (X - C ((xs.getD j 0 : ℤ) : ZMod q)))
  carried : ∀ k, k + 1 < levels.length → ∀ i, 2 * i + 1 = (levels.getD k []).length →
    (levels.getD (k + 1) []).getD i [] = (levels.getD k []).getD (2 * i) []

theorem subproductTree_of_levels {q : ℕ} (hq : 1 < q)
    {mul : List Mpz → List Mpz → Except String (List Mpz)} (hmul : MulsMod q mul) {xs : List Mpz}
    (hxs : xs ≠ []) {levels : List (List (List Mpz))}
    (h : PairTree.IsLevels mul [] (xs.map (polyLinearFromRoot · q)) levels) :
    SubproductTree q xs levels where
  height := h.pos
  leaves := by rw [h.first_eq, List.length_map]
  halves := fun k hk => PairTree.next_length (h.step k hk)
  wide := h.wide
  root := h.top_eq_one (by simpa using hxs)
  node := fun k hk i hi => by
    have hlevel := (treeOver_of_levels hq hmul h).level k hk
    exact monicCoeffs_of_monic hq (hlevel.canonical i hi) (hlevel.toPoly_eq i hi)
      (monic_prod_of_monic _ _ fun j _ => monic_linearFactor q xs j)
  carried := fun k hk i hi => h.carried hk hi

theorem SubproductTree.length_level {q : ℕ} {xs : List Mpz} {l : List (List (List Mpz))}
    (h : SubproductTree q xs l) {k : ℕ} (hk : k < l.length) :
    (l.getD k []).length = Chunk.size xs.length k := by
  induction k with
  | zero => rw [h.leaves, Chunk.size]
  | succ k ih => rw [h.halves k hk, ih (by omega), Chunk.size]

theorem SubproductTree.length_le {q : ℕ} {xs : List Mpz} {l l' : List (List (List Mpz))}
    (h : SubproductTree q xs l) (h' : SubproductTree q xs l') : l'.length ≤ l.length := by
  by_contra hlt
  have hpos := h.height
  have hroot := h.root
  have hwide := h'.wide (l.length - 1) (by omega)
  rw [h.length_level (by omega)] at hroot
  rw [h'.length_level (by omega), hroot] at hwide
  exact absurd hwide (lt_irrefl 1)

/-- The tree is a function of the points: neither the environment nor the way
products are computed has an influence on it. -/
theorem SubproductTree.unique {q : ℕ} (hq : 0 < q) {xs : List Mpz}
    {l l' : List (List (List Mpz))} (h : SubproductTree q xs l) (h' : SubproductTree q xs l') :
    l = l' := by
  have hlen : l.length = l'.length := le_antisymm (h'.length_le h) (h.length_le h')
  refine List.ext_getElem hlen fun k hk hk' => ?_
  have hsize : (l.getD k []).length = (l'.getD k []).length := by
    rw [h.length_level hk, h'.length_level hk']
  rw [← List.getD_eq_getElem l [] hk, ← List.getD_eq_getElem l' [] hk']
  refine List.ext_getElem hsize fun i hi hi' => ?_
  rw [← List.getD_eq_getElem _ [] hi, ← List.getD_eq_getElem _ [] hi']
  exact (h.node k hk i hi).unique hq (h'.node k hk' i hi')

theorem prod_linearFactor (q : ℕ) (xs : List Mpz) :
    ∏ j ∈ Finset.range xs.length, linearFactor q xs j =
      (xs.map fun x => X - C ((x : ℤ) : ZMod q)).prod := by
  rw [Finset.prod_range, ← Fin.prod_univ_fun_getElem]
  refine Finset.prod_congr rfl fun j _ => ?_
  rw [linearFactor, List.getD_eq_getElem _ _ j.isLt]

theorem isRoot_prod_linearFactor {q : ℕ} (hq : q.Prime) (xs : List Mpz) :
    {x | (∏ j ∈ Finset.range xs.length, linearFactor q xs j).IsRoot x} =
      {x : ZMod q | ∃ y ∈ xs, ((y : ℤ) : ZMod q) = x} := by
  have : Fact q.Prime := ⟨hq⟩
  ext x
  rw [Set.mem_ofPred_eq, Set.mem_ofPred_eq, prod_linearFactor, IsRoot.def, eval_list_prod,
    List.prod_eq_zero_iff]
  constructor
  · intro h
    obtain ⟨f, hf, hx⟩ := List.mem_map.mp h
    obtain ⟨y, hy, rfl⟩ := List.mem_map.mp hf
    rw [eval_sub, eval_X, eval_C, sub_eq_zero] at hx
    exact ⟨y, hy, hx.symm⟩
  · rintro ⟨y, hy, rfl⟩
    refine List.mem_map.mpr ⟨_, List.mem_map_of_mem hy, ?_⟩
    rw [eval_sub, eval_X, eval_C, sub_self]

section

variable {ZZp ZZpX : Type} {backend : Option (Mpz → Ntl ZZp ZZpX)} {env : Env} {q : ℕ}
  {xs : List Mpz}

theorem polyBuildProductTreeWith_levels {tree : PolyProductTree} (hxs : xs ≠ [])
    (h : polyBuildProductTreeWith backend env xs q = .ok tree) :
    PairTree.IsLevels (polyMulModWith backend env · · q) []
      (xs.map (polyLinearFromRoot · q)) tree.levels := by
  rw [polyBuildProductTreeWith, if_neg hxs] at h
  obtain ⟨levels, hlevels, h⟩ := bind_eq_ok.mp h
  rw [pure_eq_ok, Except.ok.injEq] at h
  subst h
  exact PairTree.levels_ok hlevels

theorem polyBuildProductTreeWith_spec (hq : 1 < q) (hlib : LawfulBackend backend q) (hxs : xs ≠ [])
    {tree : PolyProductTree} (h : polyBuildProductTreeWith backend env xs q = .ok tree) :
    TreeOver q xs tree :=
  treeOver_of_levels hq (mulsMod_polyMulModWith (by omega) hlib env)
    (polyBuildProductTreeWith_levels hxs h)

theorem polyFromRootsWith_spec (hq : 1 < q)
    (hlib : LawfulBackend backend q) (hxs : xs ≠ []) {p : List Mpz}
    (h : polyFromRootsWith backend env xs q = .ok p) :
    MonicCoeffs q p (∏ j ∈ Finset.range xs.length, linearFactor q xs j) := by
  have hmonic : (∏ j ∈ Finset.range xs.length, linearFactor q xs j).Monic :=
    monic_prod_of_monic _ _ fun j _ => monic_linearFactor q xs j
  rw [polyFromRootsWith, if_neg hxs] at h
  obtain ⟨sel, hs, h⟩ := bind_eq_ok.mp h
  cases sel with
  | some lib =>
    obtain ⟨val, hl⟩ := hlib lib (ntlSelected_mem hs)
    obtain rfl := Except.ok.inj h
    obtain ⟨hcan, hpoly⟩ := mpzVecFromNtlPoly_spec (by omega) hl
      ((lib q).buildFromRoots (ntlVecFromMpzVec (lib q) xs))
    refine monicCoeffs_of_monic hq hcan (hpoly.trans ?_) hmonic
    rw [hl.buildFromRoots, ntlVecFromMpzVec, List.map_map, prod_linearFactor]
    simp only [Function.comp_def, hl.conv]
  | none =>
    obtain ⟨tree, ht, h⟩ := bind_eq_ok.mp h
    obtain rfl := Except.ok.inj h
    obtain ⟨hcan, hpoly⟩ := (polyBuildProductTreeWith_spec hq hlib hxs ht).root_spec hxs
    exact monicCoeffs_of_monic hq hcan hpoly hmonic

/-- No roots give the empty product. -/
theorem polyFromRootsWith_prod (hq : 1 < q) (hlib : LawfulBackend backend q) {p : List Mpz}
    (h : polyFromRootsWith backend env xs q = .ok p) :
    Canonical q p ∧ toPoly (ZMod q) p = ∏ j ∈ Finset.range xs.length, linearFactor q xs j := by
  by_cases hxs : xs = []
  · subst hxs
    obtain rfl : [1] = p := Except.ok.inj h
    refine ⟨⟨by simp, fun c hc => ?_, .inl rfl⟩, by simp [toPoly_cons]⟩
    rw [List.mem_singleton.mp hc]
    exact ⟨zero_le_one, by exact_mod_cast hq⟩
  · have hp := polyFromRootsWith_spec hq hlib hxs h
    exact ⟨hp.canonical, hp.toPoly_eq⟩

theorem ntlSelected_exists (hlimit : ntlPolyEnabled env = true →
    ∃ limit, ntlPolyThreshold env = .ok limit) : Selects backend env := by
  intro size
  cases backend with
  | none => exact ⟨_, rfl⟩
  | some lib =>
    simp only [ntlSelected]
    by_cases he : ntlPolyEnabled env = true
    · obtain ⟨limit, hl⟩ := hlimit he
      rw [if_pos he, hl, ok_bind]
      exact ⟨_, rfl⟩
    · rw [if_neg he]
      exact ⟨_, rfl⟩

theorem polyBuildProductTreeWith_exists (hq : 1 < q)
    (hlib : LawfulBackend backend q) {threshold : ℕ}
    (ht : nttPolyThreshold env = .ok threshold)
    (hsel : Selects backend env)
    (hlen : xs.length + 2 ≤ 2 ^ 63) :
    ∃ tree, polyBuildProductTreeWith backend env xs q = .ok tree := by
  unfold polyBuildProductTreeWith
  split
  · exact ⟨_, rfl⟩
  · obtain ⟨levels, hlevels⟩ := treeLevels_exists hq
      (mulsMod_polyMulModWith (by omega) hlib env)
      (fun _ _ hab => polyMulModWith_exists ht hsel hab) hlen
    rw [hlevels]
    exact ⟨_, rfl⟩

theorem polyFromRootsWith_exists (hq : 1 < q)
    (hlib : LawfulBackend backend q) {threshold : ℕ}
    (ht : nttPolyThreshold env = .ok threshold)
    (hsel : Selects backend env)
    (hlen : xs.length + 2 ≤ 2 ^ 63) : ∃ p, polyFromRootsWith backend env xs q = .ok p := by
  unfold polyFromRootsWith
  split
  · exact ⟨_, rfl⟩
  · obtain ⟨sel, hs⟩ := hsel xs.length
    obtain ⟨tree, htree⟩ := polyBuildProductTreeWith_exists hq hlib ht hsel hlen
    rw [hs, ok_bind]
    cases sel with
    | some lib => exact ⟨_, rfl⟩
    | none => exact ⟨tree.root, by rw [htree]; rfl⟩

end

/-- Every node of every level is the canonical list of the monic product over
its leaves, and `poly_from_roots` is the product over all of them. -/
theorem polyBuildProductTree_invariant {ZZp ZZpX : Type} {q : ℕ} (hq : 2 ≤ q)
    (backend : Option (Mpz → Ntl ZZp ZZpX))
    (hlib : ∀ lib ∈ backend, ∃ val, (lib q).Lawful q val) (env : Env) {xs : List Mpz}
    (hxs : xs ≠ []) :
    (∀ tree, polyBuildProductTreeWith backend env xs q = .ok tree →
      SubproductTree q xs tree.levels) ∧
    (∀ p, polyFromRootsWith backend env xs q = .ok p →
      Canonical q p ∧ p.getLast? = some 1 ∧ p.length = xs.length + 1 ∧
      (toPoly (ZMod q) p).Monic ∧ (toPoly (ZMod q) p).natDegree = xs.length ∧
      toPoly (ZMod q) p =
        ∏ j ∈ Finset.range xs.length, (X - C ((xs.getD j 0 : ℤ) : ZMod q)) ∧
      (q.Prime → {x | (toPoly (ZMod q) p).IsRoot x} =
        {x : ZMod q | ∃ y ∈ xs, ((y : ℤ) : ZMod q) = x})) ∧
    ∀ threshold, nttPolyThreshold env = .ok threshold →
      (ntlPolyEnabled env = true → ∃ limit, ntlPolyThreshold env = .ok limit) →
      xs.length + 2 ≤ 2 ^ 63 →
      (∃ tree, polyBuildProductTreeWith backend env xs q = .ok tree) ∧
        ∃ p, polyFromRootsWith backend env xs q = .ok p := by
  have hq1 : 1 < q := hq
  have : Fact (1 < q) := ⟨hq1⟩
  refine ⟨fun tree h => ?_, fun p h => ?_, fun threshold ht hlimit hlen => ?_⟩
  · exact subproductTree_of_levels hq1 (mulsMod_polyMulModWith (by omega) hlib env) hxs
      (polyBuildProductTreeWith_levels hxs h)
  · have hp := polyFromRootsWith_spec hq1 hlib hxs h
    have hmonic : (∏ j ∈ Finset.range xs.length, linearFactor q xs j).Monic :=
      monic_prod_of_monic _ _ fun j _ => monic_linearFactor q xs j
    have hdeg : (∏ j ∈ Finset.range xs.length, linearFactor q xs j).natDegree = xs.length :=
      (natDegree_finsetProd_X_sub_C_eq_card _ _).trans (Finset.card_range _)
    refine ⟨hp.canonical, hp.leading, hp.length_eq.trans (by rw [hdeg]), ?_, ?_, hp.toPoly_eq, ?_⟩
    · rw [hp.toPoly_eq]
      exact hmonic
    · rw [hp.toPoly_eq, hdeg]
    · intro hprime
      rw [hp.toPoly_eq]
      exact isRoot_prod_linearFactor hprime xs
  · exact ⟨polyBuildProductTreeWith_exists hq1 hlib ht (ntlSelected_exists hlimit) hlen,
      polyFromRootsWith_exists hq1 hlib ht (ntlSelected_exists hlimit) hlen⟩

theorem polyBuildProductTree_invariant_repeated :
    ∃ p, polyFromRootsWith (some fun _ => polynomialNtl 7)
        (fun name => if name = "CG_NTL_POLY_THRESHOLD" then some "0" else none) [3, 10, 0]
        ((7 : ℕ) : ℤ) = .ok p ∧ p.length = 4 ∧
      {x | (toPoly (ZMod 7) p).IsRoot x} = {x : ZMod 7 | ∃ y ∈ [3, 10, 0], ((y : ℤ) : ZMod 7) = x} := by
  obtain ⟨-, hroots, hruns⟩ := polyBuildProductTree_invariant (q := 7) (by decide)
    (some fun _ => polynomialNtl 7)
    (fun lib hlib => ⟨id, Option.some.inj hlib ▸ lawful_polynomialNtl (by decide)⟩)
    (fun name => if name = "CG_NTL_POLY_THRESHOLD" then some "0" else none)
    (List.cons_ne_nil 3 [10, 0])
  obtain ⟨-, p, hp⟩ := hruns 512 rfl (fun _ => ⟨0, rfl⟩) (by decide)
  obtain ⟨-, -, hlen, -, -, -, hset⟩ := hroots p hp
  exact ⟨p, hp, hlen, hset (by decide)⟩

end RfClassGroups
