import RfClassGroups.Lib.PairTree
import RfClassGroups.PolyMul

/-! The subproduct tree over a list of points: level 0 holds the linear
factors, each further level the products of neighbours, an unpaired last node
copied up. -/

open Polynomial CoeffList ExceptList

namespace RfClassGroups

def polyLinearFromRoot (root q : Mpz) : List Mpz :=
  [if root % q ≠ 0 then q - root % q else 0, 1]

structure PolyProductTree where
  levels : List (List (List Mpz))

def polyTreeNext (env : Env) (prev : List (List Mpz)) (q : Mpz) :
    Except String (List (List Mpz)) :=
  (List.range ((prev.length + 1) / 2)).mapM fun i =>
    if 2 * i + 1 < prev.length then polyMulMod env (prev.getD (2 * i) []) (prev.getD (2 * i + 1) []) q
    else return prev.getD (2 * i) []

def polyTreeLevels (env : Env) (prev : List (List Mpz)) (q : Mpz) :
    Except String (List (List (List Mpz))) :=
  if _h : 1 < prev.length then
    match _hn : polyTreeNext env prev q with
    | .error e => throw e
    | .ok next => do
      let rest ← polyTreeLevels env next q
      return prev :: rest
  else return [prev]
termination_by prev.length
decreasing_by
  have hl := mapM_length _hn
  rw [List.length_range] at hl
  omega

def polyBuildProductTree (env : Env) (points : List Mpz) (q : Mpz) :
    Except String PolyProductTree :=
  if points = [] then return ⟨[]⟩
  else do
    let levels ← polyTreeLevels env (points.map (polyLinearFromRoot · q)) q
    return ⟨levels⟩

def PolyProductTree.root (tree : PolyProductTree) : List Mpz :=
  ((tree.levels.getLast?.getD []).head?).getD []

theorem canonical_polyLinearFromRoot {q : ℤ} (hq : 1 < q) (root : ℤ) :
    Canonical q (polyLinearFromRoot root q) where
  ne_nil := by simp [polyLinearFromRoot]
  range := by
    have hr := emod_range (by omega : 0 < q) root
    intro c hc
    rw [polyLinearFromRoot, List.mem_cons, List.mem_singleton] at hc
    rcases hc with rfl | rfl
    · by_cases h0 : root % q = 0
      · rw [if_neg (not_not.mpr h0)]
        exact ⟨le_rfl, by omega⟩
      · rw [if_pos h0]
        exact ⟨sub_nonneg.mpr hr.2.le, sub_lt_self _ (lt_of_le_of_ne hr.1 (Ne.symm h0))⟩
    · exact ⟨zero_le_one, hq⟩
  trimmed := .inr (by simp [polyLinearFromRoot])

theorem toPoly_polyLinearFromRoot {R : Type*} [CommRing R] {q : Mpz} (hq : (q : R) = 0)
    (root : Mpz) : toPoly R (polyLinearFromRoot root q) = X - C (root : R) := by
  have hc : ((if root % q ≠ 0 then q - root % q else 0 : ℤ) : R) = -(root : R) := by
    split
    · rw [Int.cast_sub, hq, cast_emod hq, zero_sub]
    · next h => rw [← cast_emod hq root, not_not.mp h, Int.cast_zero, neg_zero]
  rw [polyLinearFromRoot, toPoly_cons, hc, toPoly_cons, toPoly_nil, Int.cast_one, C_neg, C_1]
  ring

noncomputable def linearFactor (q : ℕ) (xs : List Mpz) (j : ℕ) : (ZMod q)[X] :=
  X - C ((xs.getD j 0 : ℤ) : ZMod q)

structure TreeLevel (q : ℕ) (xs : List Mpz) (k : ℕ) (level : List (List Mpz)) : Prop where
  length_eq : level.length = Chunk.size xs.length k
  canonical : ∀ i < level.length, Canonical q (level.getD i [])
  toPoly_eq : ∀ i < level.length,
    toPoly (ZMod q) (level.getD i []) = ∏ j ∈ Chunk.leaves xs.length k i, linearFactor q xs j

theorem polyTreeLevels_eq (env : Env) (prev : List (List Mpz)) (q : Mpz) :
    polyTreeLevels env prev q = PairTree.levels (polyMulMod env · · q) [] prev := by
  induction hn : prev.length using Nat.strong_induction_on generalizing prev with
  | _ n ih =>
    rw [polyTreeLevels, PairTree.levels]
    by_cases hlt : 1 < prev.length
    · have hnext : polyTreeNext env prev q = PairTree.next (polyMulMod env · · q) [] prev := rfl
      rw [dif_pos hlt, dif_pos hlt]
      split
      · next e he =>
        rw [hnext] at he
        split
        · next e' he' => rw [Except.error.inj (he.symm.trans he')]
        · next row hrow => simp [he] at hrow
      · next row hrow =>
        rw [hnext] at hrow
        have hlen := PairTree.next_length hrow
        rw [ih _ (by omega) row rfl]
        split
        · next e he => simp [hrow] at he
        · next row' hrow' => rw [Except.ok.inj (hrow.symm.trans hrow')]
    · rw [dif_neg hlt, dif_neg hlt]

def TreeNode (q : ℕ) (xs : List Mpz) (k i : ℕ) (node : List Mpz) : Prop :=
  Canonical q node ∧
    toPoly (ZMod q) node = ∏ j ∈ Chunk.leaves xs.length k i, linearFactor q xs j

/-- `mul` multiplies modulo `q`, whichever way it computes the product. -/
def MulsMod (q : ℕ) (mul : List Mpz → List Mpz → Except String (List Mpz)) : Prop :=
  ∀ a b c, mul a b = .ok c →
    Canonical q c ∧ toPoly (ZMod q) c = toPoly (ZMod q) a * toPoly (ZMod q) b

theorem mulsMod_polyMulMod {q : ℕ} (hq : 0 < q) (env : Env) :
    MulsMod q (polyMulMod env · · q) := fun _ _ _ h => polyMulMod_spec hq h

theorem treeNode_leaf {q : ℕ} (hq : 1 < q) (xs : List Mpz) {i : ℕ}
    (hi : i < (xs.map (polyLinearFromRoot · q)).length) :
    TreeNode q xs 0 i ((xs.map (polyLinearFromRoot · q)).getD i []) := by
  rw [List.getD_eq_getElem _ _ hi, List.getElem_map]
  refine ⟨canonical_polyLinearFromRoot (by exact_mod_cast hq) _, ?_⟩
  rw [List.length_map] at hi
  rw [Chunk.leaves_zero hi, Finset.prod_singleton, toPoly_polyLinearFromRoot (by simp),
    linearFactor, List.getD_eq_getElem _ _ hi]

section

variable {q : ℕ} {mul : List Mpz → List Mpz → Except String (List Mpz)}

theorem MulsMod.preserved (hmul : MulsMod q mul) (xs : List Mpz) :
    PairTree.Preserved mul xs.length (TreeNode q xs) where
  pair := fun k i a b c ha hb hc => by
    obtain ⟨hcan, hprod⟩ := hmul a b c hc
    refine ⟨hcan, ?_⟩
    rw [hprod, ha.2, hb.2, Chunk.prod_leaves_succ]
  carry := fun k i a hsize ha => by
    have hempty : Chunk.leaves xs.length k (2 * i + 1) = ∅ := Chunk.leaves_of_size_le hsize.le
    refine ⟨ha.1, ?_⟩
    rw [ha.2, Chunk.prod_leaves_succ, hempty, Finset.prod_empty, mul_one]

end

/-- The tree over `xs`: consecutive levels up to a single root. -/
structure TreeOver (q : ℕ) (xs : List Mpz) (tree : PolyProductTree) : Prop where
  ne_nil : tree.levels ≠ []
  level : ∀ k < tree.levels.length, TreeLevel q xs k (tree.levels.getD k [])
  top : Chunk.size xs.length (tree.levels.length - 1) ≤ 1

theorem treeOver_of_levels {q : ℕ} (hq : 1 < q)
    {mul : List Mpz → List Mpz → Except String (List Mpz)} (hmul : MulsMod q mul) {xs : List Mpz}
    {levels : List (List (List Mpz))}
    (h : PairTree.IsLevels mul [] (xs.map (polyLinearFromRoot · q)) levels) :
    TreeOver q xs ⟨levels⟩ where
  ne_nil := List.ne_nil_of_length_pos h.pos
  level := fun k hk => by
    have hpres := hmul.preserved xs
    have hlen : (xs.map (polyLinearFromRoot · (q : Mpz))).length = xs.length := List.length_map _
    rw [← hlen] at hpres
    have hnode := h.node hpres (fun i hi => treeNode_leaf hq xs hi) hk
    refine ⟨?_, fun i hi => (hnode i hi).1, fun i hi => (hnode i hi).2⟩
    rw [h.length_eq hk, List.length_map]
  top := by
    have htop := h.top
    have hpos := h.pos
    rwa [h.length_eq (by omega), List.length_map] at htop

theorem polyBuildProductTree_spec {q : ℕ} (hq : 1 < q) {env : Env} {xs : List Mpz}
    {tree : PolyProductTree} (hxs : xs ≠ []) (h : polyBuildProductTree env xs q = .ok tree) :
    TreeOver q xs tree := by
  rw [polyBuildProductTree, if_neg hxs, polyTreeLevels_eq] at h
  obtain ⟨levels, hlevels, h⟩ := bind_eq_ok.mp h
  simp only [pure_eq_ok, Except.ok.injEq] at h
  subst h
  exact treeOver_of_levels hq (mulsMod_polyMulMod (by omega) env) (PairTree.levels_ok hlevels)

theorem TreeOver.length_zero {q : ℕ} {xs : List Mpz} {tree : PolyProductTree}
    (ht : TreeOver q xs tree) : (tree.levels.getD 0 []).length = xs.length :=
  (ht.level 0 (List.length_pos_iff.mpr ht.ne_nil)).length_eq

theorem TreeOver.root_eq {q : ℕ} {xs : List Mpz} {tree : PolyProductTree}
    (ht : TreeOver q xs tree) :
    tree.root = (tree.levels.getD (tree.levels.length - 1) []).getD 0 [] := by
  have hpos := List.length_pos_iff.mpr ht.ne_nil
  have hlt : tree.levels.length - 1 < tree.levels.length := by omega
  rw [PolyProductTree.root, List.getLast?_eq_getElem?, List.head?_eq_getElem?]
  rfl

theorem size_pos {n : ℕ} (hn : 0 < n) (k : ℕ) : 0 < Chunk.size n k := by
  rw [Chunk.lt_size_iff, zero_mul]
  exact hn

theorem TreeOver.root_spec {q : ℕ} {xs : List Mpz} {tree : PolyProductTree}
    (ht : TreeOver q xs tree) (hxs : xs ≠ []) :
    Canonical q tree.root ∧
      toPoly (ZMod q) tree.root = ∏ j ∈ Finset.range xs.length, linearFactor q xs j := by
  have hpos := List.length_pos_iff.mpr ht.ne_nil
  have htop := ht.level (tree.levels.length - 1) (by omega)
  have hlen : 0 < (tree.levels.getD (tree.levels.length - 1) []).length := by
    rw [htop.length_eq]
    exact size_pos (List.length_pos_iff.mpr hxs) _
  rw [ht.root_eq, ← Chunk.leaves_top ht.top]
  exact ⟨htop.canonical 0 hlen, htop.toPoly_eq 0 hlen⟩

theorem monic_linearFactor (q : ℕ) (xs : List Mpz) (j : ℕ) : (linearFactor q xs j).Monic :=
  monic_X_sub_C _

theorem length_of_prod {q : ℕ} (hq : 1 < q) {xs p : List Mpz} (hp : Canonical q p)
    {s : Finset ℕ} (h : toPoly (ZMod q) p = ∏ j ∈ s, linearFactor q xs j) :
    p.length = s.card + 1 := by
  have : Fact (1 < q) := ⟨hq⟩
  rw [hp.length_eq hq, h]
  congr 1
  exact natDegree_finsetProd_X_sub_C_eq_card s _

theorem treeLevels_exists {q : ℕ} (hq : 1 < q)
    {mul : List Mpz → List Mpz → Except String (List Mpz)} (hmul : MulsMod q mul)
    (hex : ∀ a b, a.length + b.length ≤ 2 ^ 63 → ∃ c, mul a b = .ok c) {xs : List Mpz}
    (hlen : xs.length + 2 ≤ 2 ^ 63) :
    ∃ levels, PairTree.levels mul [] (xs.map (polyLinearFromRoot · q)) = .ok levels := by
  refine PairTree.levels_exists (hmul.preserved xs) (fun k i a b ha hb => hex a b ?_)
    (k := 0) (List.length_map _) fun i hi => treeNode_leaf hq xs hi
  have hcard := Finset.card_union_of_disjoint (Chunk.leaves_disjoint xs.length k i)
  rw [← Chunk.leaves_succ] at hcard
  have hle := Finset.card_le_card (Chunk.leaves_subset xs.length (k + 1) i)
  rw [Finset.card_range] at hle
  rw [length_of_prod hq ha.1 ha.2, length_of_prod hq hb.1 hb.2]
  omega

theorem polyBuildProductTree_exists {q : ℕ} (hq : 1 < q) {env : Env} {threshold : ℕ}
    (ht : nttPolyThreshold env = .ok threshold) (xs : List Mpz)
    (hlen : xs.length + 2 ≤ 2 ^ 63) : ∃ tree, polyBuildProductTree env xs q = .ok tree := by
  unfold polyBuildProductTree
  split
  · exact ⟨_, rfl⟩
  · obtain ⟨levels, hlevels⟩ := treeLevels_exists hq (mulsMod_polyMulMod (by omega) env)
      (fun _ _ hab => polyMulMod_exists ht hab) hlen
    exact ⟨⟨levels⟩, by rw [polyTreeLevels_eq, hlevels]; rfl⟩

end RfClassGroups
