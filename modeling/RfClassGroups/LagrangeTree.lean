import RfClassGroups.LagrangeDirect

/-! Interpolation in a subproduct tree: the denominators from the derivative of
the root, and the combination of the partial interpolants up the levels. -/

open Polynomial CoeffList ExceptList Loops

namespace RfClassGroups

theorem toPoly_polyDerivativeMod {R : Type*} [CommRing R] {q : Mpz} (hq : (q : R) = 0)
    (p : List Mpz) : toPoly R (polyDerivativeMod p q) = derivative (toPoly R p) := by
  unfold polyDerivativeMod
  ext n
  rw [coeff_derivative, coeff_toPoly_eq_entry, coeff_toPoly_eq_entry]
  split
  · rw [entry_of_length_le (a := p) (by omega), zero_mul]
    cases n <;> simp [entry]
  · rw [← coeff_toPoly_eq_entry, toPoly_polyTrim, coeff_toPoly_eq_entry]
    by_cases hn : n < p.length - 1
    · simp [entry, hn, cast_emod hq]
    · rw [entry_of_length_le (by simpa using hn), entry_of_length_le (by omega), zero_mul]

theorem prod_linearFactor_eq_nodal (q : ℕ) (xs : List Mpz) (s : Finset ℕ) :
    ∏ j ∈ s, linearFactor q xs j = Lagrange.nodal s (entry (ZMod q) xs) := rfl

noncomputable def leafDerivative (q : ℕ) (xs : List Mpz) : (ZMod q)[X] :=
  derivative (∏ j ∈ Finset.range xs.length, linearFactor q xs j)

theorem eval_leafDerivative {q : ℕ} {xs : List Mpz} {i : ℕ} (hi : i < xs.length) :
    (leafDerivative q xs).eval (entry (ZMod q) xs i) =
      ∏ j ∈ (Finset.range xs.length).erase i, (entry (ZMod q) xs i - entry (ZMod q) xs j) := by
  rw [leafDerivative, prod_linearFactor_eq_nodal,
    Lagrange.eval_nodal_derivative_eval_node_eq (Finset.mem_range.mpr hi), Lagrange.eval_nodal]

structure PartialInterpolants (q : ℕ) (xs : List Mpz) (w : ℕ → ZMod q) (k : ℕ)
    (acc : List (List Mpz)) : Prop where
  length_eq : acc.length = Chunk.size xs.length k
  canonical : ∀ i < acc.length, Canonical q (acc.getD i [])
  toPoly_eq : ∀ i < acc.length, toPoly (ZMod q) (acc.getD i []) =
    Chunk.leaveOneOut (fun j => C (w j)) (linearFactor q xs) (Chunk.leaves xs.length k i)

section

variable {ZZp ZZpX : Type} {backend : Option (Mpz → Ntl ZZp ZZpX)} {q : ℕ} {env : Env}

theorem PartialInterpolants.combine (hq : 0 < q) (hlib : LawfulBackend backend q) {xs : List Mpz}
    {w : ℕ → ZMod q} {k : ℕ} {acc polys next : List (List Mpz)}
    (ha : PartialInterpolants q xs w k acc) (hl : TreeLevel q xs k polys)
    (h : combineLevelWith backend env acc polys q = .ok next) :
    PartialInterpolants q xs w (k + 1) next := by
  have hmul := mulsMod_polyMulModWith hq hlib env
  have hlen : next.length = (acc.length + 1) / 2 := by rw [mapM_length h, List.length_range]
  have hsize : polys.length = acc.length := hl.length_eq.trans ha.length_eq.symm
  have hnode : ∀ i < next.length, Canonical q (next.getD i []) ∧
      toPoly (ZMod q) (next.getD i []) = Chunk.leaveOneOut (fun j => C (w j))
        (linearFactor q xs) (Chunk.leaves xs.length (k + 1) i) := by
    intro i hi
    have hstep := mapM_range_getElem h i hi
    have hli : 2 * i < acc.length := by omega
    rw [List.getD_eq_getElem _ _ hi, Chunk.leaveOneOut_leaves_succ]
    split at hstep
    · next hr =>
      simp only [pure_eq_ok, Except.ok.injEq] at hstep
      have hempty : Chunk.leaves xs.length k (2 * i + 1) = ∅ :=
        Chunk.leaves_of_size_le (by rw [← ha.length_eq]; omega)
      rw [← hstep, hempty, Finset.prod_empty, mul_one, Chunk.leaveOneOut_empty,
        zero_mul, add_zero]
      exact ⟨ha.canonical _ hli, ha.toPoly_eq _ hli⟩
    · next hr =>
      obtain ⟨left, hleft, hstep⟩ := bind_eq_ok.mp hstep
      obtain ⟨right, hright, hstep⟩ := bind_eq_ok.mp hstep
      simp only [pure_eq_ok, Except.ok.injEq] at hstep
      obtain ⟨hcl, hpl⟩ := hmul _ _ _ hleft
      obtain ⟨_, hpr⟩ := hmul _ _ _ hright
      rw [← hstep]
      refine ⟨canonical_polyAddMod (by exact_mod_cast hq) (.inl hcl.ne_nil), ?_⟩
      rw [toPoly_polyAddMod (by simp), hpl, hpr, ha.toPoly_eq _ hli, ha.toPoly_eq _ (by omega),
        hl.toPoly_eq _ (by omega), hl.toPoly_eq _ (by omega)]
  exact ⟨by rw [hlen, ha.length_eq, Chunk.size], fun i hi => (hnode i hi).1,
    fun i hi => (hnode i hi).2⟩

theorem degree_leaveOneOut_lt (hq : 1 < q) (xs : List Mpz) (w : ℕ → ZMod q)
    {s : Finset ℕ} :
    (Chunk.leaveOneOut (fun j => C (w j)) (linearFactor q xs) s).degree < s.card := by
  have : Fact (1 < q) := ⟨hq⟩
  rw [Chunk.leaveOneOut, ← mem_degreeLT]
  refine Submodule.sum_mem _ fun j hj => ?_
  rw [← smul_eq_C_mul]
  refine Submodule.smul_mem _ _ (mem_degreeLT.mpr ?_)
  rw [prod_linearFactor_eq_nodal, Lagrange.degree_nodal, Finset.card_erase_of_mem hj]
  have hpos := Finset.card_pos.mpr ⟨j, hj⟩
  exact_mod_cast Nat.sub_lt hpos one_pos

theorem PartialInterpolants.length_le (hq : 1 < q) {xs : List Mpz} {w : ℕ → ZMod q}
    {k : ℕ} {acc : List (List Mpz)} (ha : PartialInterpolants q xs w k acc) {i : ℕ}
    (hi : i < acc.length) :
    (acc.getD i []).length ≤ (Chunk.leaves xs.length k i).card + 1 := by
  rw [(ha.canonical i hi).length_eq hq, ha.toPoly_eq i hi]
  have hdeg := degree_leaveOneOut_lt hq xs w (s := Chunk.leaves xs.length k i)
  have hle := natDegree_le_of_degree_le hdeg.le
  omega

theorem combineLevelWith_exists (hq : 1 < q) {threshold : ℕ}
    (ht : nttPolyThreshold env = .ok threshold) (hsel : Selects backend env) {xs : List Mpz}
    (hlen : xs.length + 2 ≤ 2 ^ 63)
    {w : ℕ → ZMod q} {k : ℕ} {acc polys : List (List Mpz)}
    (ha : PartialInterpolants q xs w k acc) (hl : TreeLevel q xs k polys) :
    ∃ next, combineLevelWith backend env acc polys q = .ok next := by
  have hsize : polys.length = acc.length := hl.length_eq.trans ha.length_eq.symm
  refine mapM_exists fun i hi => ?_
  split
  · exact ⟨_, rfl⟩
  · next hr =>
    have hcard := Finset.card_union_of_disjoint (Chunk.leaves_disjoint xs.length k i)
    rw [← Chunk.leaves_succ] at hcard
    have hle := Finset.card_le_card (Chunk.leaves_subset xs.length (k + 1) i)
    rw [Finset.card_range] at hle
    have hl0 := ha.length_le hq (i := 2 * i) (by omega)
    have hl1 := ha.length_le hq (i := 2 * i + 1) (by omega)
    have hp0 := length_of_prod hq (hl.canonical (2 * i) (by omega)) (hl.toPoly_eq _ (by omega))
    have hp1 := length_of_prod hq (hl.canonical (2 * i + 1) (by omega))
      (hl.toPoly_eq _ (by omega))
    obtain ⟨left, hleft⟩ := polyMulModWith_exists ht hsel (q := (q : ℤ)) (a := acc.getD (2 * i) [])
      (b := polys.getD (2 * i + 1) []) (by omega)
    obtain ⟨right, hright⟩ := polyMulModWith_exists ht hsel (q := (q : ℤ))
      (a := acc.getD (2 * i + 1) []) (b := polys.getD (2 * i) []) (by omega)
    rw [hleft, ok_bind, hright]
    exact ⟨_, rfl⟩

end

theorem rfOpaEvalPoints_length {env : Env} {q : Mpz} {n : ℕ} {points : List Mpz}
    (h : rfOpaEvalPoints env n q = .ok points) : points.length = n :=
  publicEvalPointsCached_length h

theorem rfOpaEvalPoints_ne_nil {env : Env} {q : Mpz} {y points : List Mpz} (hy : y ≠ [])
    (h : rfOpaEvalPoints env y.length q = .ok points) : points ≠ [] := by
  apply List.ne_nil_of_length_pos
  rw [rfOpaEvalPoints_length h]
  exact List.length_pos_iff.mpr hy

theorem denominators_eq {ZZp ZZpX : Type} {backend : Option (Mpz → Ntl ZZp ZZpX)} {q : ℕ}
    (hq : 1 < q) (hlib : LawfulBackend backend q) {env : Env} {n : ℕ} {xs alpha : List Mpz}
    {tree : PolyProductTree} (hxs : xs ≠ []) (ha : rfOpaEvalPoints env n q = .ok alpha)
    (ht : TreeOver q xs tree) {denom : List Mpz}
    (h : polyEvalBatchProductTreeWith backend env (polyDerivativeMod tree.root q) alpha q =
      .ok denom) (i : ℕ) (hi : i < n) :
    entry (ZMod q) denom i = (leafDerivative q xs).eval (entry (ZMod q) alpha i) := by
  have hal := rfOpaEvalPoints_length ha
  have hq0 : (((q : ℕ) : ℤ) : ZMod q) = 0 := by simp
  rw [leafDerivative, ← (ht.root_spec hxs).2, ← toPoly_polyDerivativeMod hq0,
    polyEvalBatchProductTreeWith_eq hq hlib h, entry, entry,
    List.getD_eq_getElem _ _ (by simpa [hal] using hi), List.getElem_map,
    cast_polyValue hq0, List.getD_eq_getElem _ _ (by rwa [hal])]

section

variable {ZZp ZZpX : Type} {backend : Option (Mpz → Ntl ZZp ZZpX)} {q : ℕ} [Fact q.Prime]
  {env : Env} {y xs alpha : List Mpz}

/-- The weights take the derivative at the public points, whatever the leaves are. -/
noncomputable def treeWeight (q : ℕ) [Fact q.Prime] (y xs alpha : List Mpz) (i : ℕ) : ZMod q :=
  entry (ZMod q) y i / (leafDerivative q xs).eval (entry (ZMod q) alpha i)

noncomputable def treeInterpolant (q : ℕ) [Fact q.Prime] (y xs alpha : List Mpz) : (ZMod q)[X] :=
  Chunk.leaveOneOut (fun j => C (treeWeight q y xs alpha j)) (linearFactor q xs)
    (Finset.range xs.length)

theorem treeInterpolant_self (hlen : alpha.length = y.length) :
    treeInterpolant q y alpha alpha = interpolant q y alpha := by
  rw [treeInterpolant, interpolant, Lagrange.interpolate_eq_sum, Chunk.leaveOneOut, hlen]
  refine Finset.sum_congr rfl fun i hi => ?_
  rw [treeWeight, eval_leafDerivative (hlen ▸ Finset.mem_range.mp hi), hlen]
  rfl

theorem leafLoop_ok {denom : List Mpz} {acc : List (List Mpz)} (hlen : y.length = xs.length)
    (hd : ∀ i < y.length,
      entry (ZMod q) denom i = (leafDerivative q xs).eval (entry (ZMod q) alpha i))
    (h : (List.range y.length).mapM (fun i => do
      let inv ← modInverse (denom.getD i 0) q
      return [y.getD i 0 * inv % (q : Mpz)]) = .ok acc) :
    (∀ i < y.length, (leafDerivative q xs).eval (entry (ZMod q) alpha i) ≠ 0) ∧
      PartialInterpolants q xs (treeWeight q y xs alpha) 0 acc := by
  have hq : (0 : ℤ) < (q : ℕ) := by exact_mod_cast (Fact.out : q.Prime).pos
  have hacclen : acc.length = y.length := by rw [mapM_length h, List.length_range]
  have hnode : ∀ i < acc.length, ∃ inv, modInverse (denom.getD i 0) q = .ok inv ∧
      acc.getD i [] = [y.getD i 0 * inv % (q : Mpz)] := by
    intro i hi
    obtain ⟨inv, hinv, hstep⟩ := bind_eq_ok.mp (mapM_range_getElem h i hi)
    simp only [pure_eq_ok, Except.ok.injEq] at hstep
    exact ⟨inv, hinv, by rw [List.getD_eq_getElem _ _ hi, hstep]⟩
  refine ⟨fun i hi hz => ?_, by rw [hacclen, hlen]; rfl, fun i hi => ?_, fun i hi => ?_⟩
  · obtain ⟨inv, hinv, _⟩ := hnode i (hacclen ▸ hi)
    obtain ⟨e, he⟩ := modInverse_zero_error (Fact.out : q.Prime).one_lt ((hd i hi).trans hz)
    rw [hinv] at he
    cases he
  · obtain ⟨inv, _, hacc⟩ := hnode i hi
    rw [hacc]
    refine ⟨by simp, fun c hc => ?_, .inl rfl⟩
    rw [List.mem_singleton.mp hc]
    exact emod_range hq _
  · obtain ⟨inv, hinv, hacc⟩ := hnode i hi
    have hden := hd i (hacclen ▸ hi)
    rw [entry] at hden
    rw [hacc, Chunk.leaves_zero (by omega), Chunk.leaveOneOut_singleton, toPoly_cons, toPoly_nil,
      mul_zero, add_zero, cast_emod natCast_modulus, Int.cast_mul, modInverse_cast hinv, hden,
      treeWeight, div_eq_mul_inv]
    rfl

/-- What a returning call has combined, for any leaves. -/
theorem lagrangeInterpolateFromTreeWith_leaves (hlib : LawfulBackend backend q)
    {tree : PolyProductTree} (hlen : y.length = xs.length)
    (hxs : xs ≠ []) (ha : rfOpaEvalPoints env y.length q = .ok alpha) (ht : TreeOver q xs tree)
    {coeffs : List Mpz} (h : lagrangeInterpolateFromTreeWith backend env y tree q = .ok coeffs) :
    (∀ i < y.length, (leafDerivative q xs).eval (entry (ZMod q) alpha i) ≠ 0) ∧
      Canonical q coeffs ∧ toPoly (ZMod q) coeffs = treeInterpolant q y xs alpha := by
  have hpos := List.length_pos_iff.mpr ht.ne_nil
  have hxpos := List.length_pos_iff.mpr hxs
  have hq := (Fact.out : q.Prime).one_lt
  rw [lagrangeInterpolateFromTreeWith, if_neg (List.ne_nil_of_length_pos (hlen ▸ hxpos))] at h
  split at h
  · simp at h
  rw [ha, ok_bind] at h
  obtain ⟨denom, hdenom, h⟩ := bind_eq_ok.mp h
  obtain ⟨acc0, hacc0, h⟩ := bind_eq_ok.mp h
  obtain ⟨acc, hacc, h⟩ := bind_eq_ok.mp h
  simp only [pure_eq_ok, Except.ok.injEq] at h
  subst h
  obtain ⟨hne, hleaf⟩ := leafLoop_ok hlen (denominators_eq hq hlib hxs ha ht hdenom) hacc0
  have hinv := foldlM_range_inv
    (P := fun k acc => PartialInterpolants q xs (treeWeight q y xs alpha) k acc) hacc hleaf
    fun k s s' hk hs hstep => hs.combine (by omega) hlib (ht.level k (by omega)) hstep
  have hlen0 : 0 < acc.length := by
    rw [hinv.length_eq]
    exact size_pos hxpos _
  refine ⟨hne, hinv.canonical 0 hlen0, ?_⟩
  rw [hinv.toPoly_eq 0 hlen0, Chunk.leaves_top ht.top]
  rfl

theorem lagrangeInterpolateFromTreeWith_returns (hlib : LawfulBackend backend q) {threshold : ℕ}
    {tree : PolyProductTree} (hth : nttPolyThreshold env = .ok threshold)
    (hsel : Selects backend env) (hlen : y.length = xs.length) (hxs : xs ≠ [])
    (hbound : xs.length + 2 ≤ 2 ^ 63) (ha : rfOpaEvalPoints env y.length q = .ok alpha)
    (ht : TreeOver q xs tree)
    (hne : ∀ i < y.length, (leafDerivative q xs).eval (entry (ZMod q) alpha i) ≠ 0) :
    ∃ coeffs, lagrangeInterpolateFromTreeWith backend env y tree q = .ok coeffs := by
  have hal := rfOpaEvalPoints_length ha
  have hq := (Fact.out : q.Prime).one_lt
  have hpos := List.length_pos_iff.mpr ht.ne_nil
  have hxpos := List.length_pos_iff.mpr hxs
  rw [lagrangeInterpolateFromTreeWith, if_neg (List.ne_nil_of_length_pos (hlen ▸ hxpos)),
    if_neg (not_or.mpr ⟨ht.ne_nil, not_not.mpr (ht.length_zero.trans hlen.symm)⟩), ha, ok_bind]
  obtain ⟨denom, hdenom⟩ := polyEvalBatchProductTreeWith_exists hq hlib hth hsel
    (polyDerivativeMod tree.root q) (show alpha.length + 2 ≤ 2 ^ 63 by omega) (by rw [hal]; exact ha)
  have hden := denominators_eq hq hlib hxs ha ht hdenom
  obtain ⟨acc0, hacc0⟩ := mapM_exists (l := List.range y.length) (f := fun i => do
      let inv ← modInverse (denom.getD i 0) q
      return [y.getD i 0 * inv % (q : Mpz)]) fun i hi => by
    have hi' := List.mem_range.mp hi
    have hz : ((denom.getD i 0 : ℤ) : ZMod q) ≠ 0 := by
      have hh := hne i hi'
      rwa [← hden i hi', entry] at hh
    obtain ⟨inv, hinv⟩ := modInverse_exists (Fact.out : q.Prime) hz
    exact ⟨_, by rw [hinv]; rfl⟩
  obtain ⟨acc, hacc, _⟩ := foldlM_range_exists
    (P := fun k acc => PartialInterpolants q xs (treeWeight q y xs alpha) k acc)
    (f := fun acc level => combineLevelWith backend env acc (tree.levels.getD level []) q) (s := acc0)
    (n := tree.levels.length - 1) (leafLoop_ok hlen hden hacc0).2 fun k s hk hs => by
      obtain ⟨next, hnext⟩ := combineLevelWith_exists hq hth hsel hbound hs
        (ht.level k (by omega))
      exact ⟨next, hnext, hs.combine (by omega) hlib (ht.level k (by omega)) hnext⟩
  rw [hdenom, ok_bind, hacc0, ok_bind, hacc]
  exact ⟨_, rfl⟩

theorem lagrangeInterpolateFromTreeWith_ok (hlib : LawfulBackend backend q)
    {tree : PolyProductTree} (hy : y ≠ [])
    (ha : rfOpaEvalPoints env y.length q = .ok alpha) (ht : TreeOver q alpha tree)
    {coeffs : List Mpz} (h : lagrangeInterpolateFromTreeWith backend env y tree q = .ok coeffs) :
    Canonical q coeffs ∧ toPoly (ZMod q) coeffs = interpolant q y alpha := by
  have hlen := rfOpaEvalPoints_length ha
  have hne := rfOpaEvalPoints_ne_nil hy ha
  obtain ⟨-, hcan, hpoly⟩ := lagrangeInterpolateFromTreeWith_leaves hlib hlen.symm hne ha ht h
  exact ⟨hcan, by rw [hpoly, treeInterpolant_self hlen]⟩

theorem lagrangeInterpolateFromTreeWith_exists (hlib : LawfulBackend backend q) {threshold : ℕ}
    {tree : PolyProductTree} (hth : nttPolyThreshold env = .ok threshold)
    (hsel : Selects backend env) (hle : y.length ≤ q)
    (hbound : y.length + 2 ≤ 2 ^ 63) (ha : rfOpaEvalPoints env y.length q = .ok alpha)
    (ht : TreeOver q alpha tree) :
    ∃ coeffs, lagrangeInterpolateFromTreeWith backend env y tree q = .ok coeffs := by
  have hlen := rfOpaEvalPoints_length ha
  by_cases hy : y = []
  · rw [lagrangeInterpolateFromTreeWith, if_pos hy]
    exact ⟨_, rfl⟩
  · have hne := rfOpaEvalPoints_ne_nil hy ha
    refine lagrangeInterpolateFromTreeWith_returns hlib hth hsel hlen.symm hne (by omega) ha ht
      fun i hi => ?_
    rw [eval_leafDerivative (by omega), hlen]
    exact Barycentric.prod_erase_sub_ne_zero (alpha_inj hle ha) hi

end

theorem lagrangeInterpolateFromTree_error {q : ℕ} (hq : 1 < q) {env : Env} {y alpha : List Mpz}
    {tree : PolyProductTree} (hgt : q < y.length)
    (hsup : nttDomainSupported env q y.length = false)
    (ha : rfOpaEvalPoints env y.length q = .ok alpha) (ht : TreeOver q alpha tree)
    {coeffs : List Mpz} : lagrangeInterpolateFromTree env y tree q ≠ .ok coeffs := by
  intro h
  have hy : y ≠ [] := List.ne_nil_of_length_pos (by omega)
  have hal := rfOpaEvalPoints_length ha
  have hne := rfOpaEvalPoints_ne_nil hy ha
  rw [lagrangeInterpolateFromTree, lagrangeInterpolateFromTreeWith, if_neg hy] at h
  split at h
  · simp at h
  rw [ha, ok_bind] at h
  obtain ⟨denom, hdenom, h⟩ := bind_eq_ok.mp h
  obtain ⟨acc0, hacc0, _⟩ := bind_eq_ok.mp h
  have h0 : 0 < y.length := by omega
  have hzero : entry (ZMod q) denom 0 = 0 := by
    rw [denominators_eq hq (lawfulBackend_builtIn q) hne ha ht hdenom 0 h0,
      eval_leafDerivative (by omega), hal]
    refine Finset.prod_eq_zero (i := q) ?_ ?_
    · exact Finset.mem_erase.mpr ⟨by omega, Finset.mem_range.mpr hgt⟩
    · rw [entry, entry, publicEvalPoints_succ hsup ha 0 h0, publicEvalPoints_succ hsup ha q hgt]
      simp
  have hlen0 : acc0.length = y.length := by rw [mapM_length hacc0, List.length_range]
  obtain ⟨inv, hinv, _⟩ := bind_eq_ok.mp (mapM_range_getElem hacc0 0 (by omega))
  obtain ⟨e, he⟩ := modInverse_zero_error hq hzero
  rw [hinv] at he
  cases he

end RfClassGroups
