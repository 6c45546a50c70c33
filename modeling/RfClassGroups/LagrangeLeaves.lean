import RfClassGroups.LagrangeAuto

/-! Interpolation in a tree whose leaves are not the public points: the weights
are taken at the public points, so the result meets the values at the leaves
only where the derivative of the root agrees. -/

open Polynomial CoeffList ExceptList

namespace RfClassGroups

/-- The derivative of `∏ (X - x)` over the leaves, at `x`. -/
def leafSlope (xs : List Mpz) (x : Mpz) : Mpz :=
  ∑ k ∈ Finset.range xs.length, ∏ j ∈ (Finset.range xs.length).erase k, (x - xs.getD j 0)

theorem cast_leafSlope (q : ℕ) (xs : List Mpz) (x : Mpz) :
    ((leafSlope xs x : ℤ) : ZMod q) = (leafDerivative q xs).eval (x : ZMod q) := by
  rw [leafSlope, leafDerivative, derivative_prod_finset, Int.cast_sum, eval_finsetSum]
  refine Finset.sum_congr rfl fun k _ => ?_
  rw [linearFactor, derivative_sub, derivative_X, derivative_C, sub_zero, mul_one, Int.cast_prod,
    eval_prod]
  refine Finset.prod_congr rfl fun j _ => ?_
  rw [linearFactor, eval_sub, eval_X, eval_C, Int.cast_sub]

section

variable {q : ℕ} [Fact q.Prime] {env : Env} {y xs alpha : List Mpz}

theorem eval_treeInterpolant {i : ℕ} (hi : i < xs.length) :
    (treeInterpolant q y xs alpha).eval (entry (ZMod q) xs i) =
      treeWeight q y xs alpha i * (leafDerivative q xs).eval (entry (ZMod q) xs i) := by
  rw [treeInterpolant, Chunk.leaveOneOut, eval_finsetSum, eval_leafDerivative hi,
    Finset.sum_eq_single i]
  · rw [eval_mul, eval_C, eval_prod]
    congr 1
    refine Finset.prod_congr rfl fun j _ => ?_
    rw [linearFactor, eval_sub, eval_X, eval_C]
    rfl
  · intro j _ hj
    have hmem : i ∈ (Finset.range xs.length).erase j :=
      Finset.mem_erase.mpr ⟨hj.symm, Finset.mem_range.mpr hi⟩
    rw [eval_mul, eval_prod, Finset.prod_eq_zero hmem, mul_zero]
    rw [linearFactor, eval_sub, eval_X, eval_C]
    exact sub_self _
  · intro hni
    exact absurd (Finset.mem_range.mpr hi) hni

theorem treeInterpolant_interpolates (hlen : y.length = xs.length)
    (hne : ∀ i < xs.length, (leafDerivative q xs).eval (entry (ZMod q) alpha i) ≠ 0) :
    Interpolates q y xs (treeInterpolant q y xs alpha) ↔ ∀ i < xs.length,
      entry (ZMod q) y i = 0 ∨ (leafDerivative q xs).eval (entry (ZMod q) alpha i) =
        (leafDerivative q xs).eval (entry (ZMod q) xs i) := by
  have hdeg : (treeInterpolant q y xs alpha).degree < y.length := by
    have hh := degree_leaveOneOut_lt (Fact.out : q.Prime).one_lt xs (treeWeight q y xs alpha)
      (s := Finset.range xs.length)
    rw [Finset.card_range] at hh
    rw [treeInterpolant, hlen]
    exact hh
  rw [Interpolates, and_iff_right hdeg, hlen]
  refine forall₂_congr fun i hi => ?_
  rw [eval_treeInterpolant hi, treeWeight, div_mul_eq_mul_div, div_eq_iff (hne i hi),
    mul_eq_mul_left_iff]
  rw [or_comm, eq_comm (a := (leafDerivative q xs).eval (entry (ZMod q) xs i))]

theorem interpolatesLeaves_iff {threshold : ℕ} (hth : nttPolyThreshold env = .ok threshold)
    (hxs : xs ≠ []) (hlen : y.length = xs.length) (hbound : xs.length + 2 ≤ 2 ^ 63)
    (ha : rfOpaEvalPoints env xs.length q = .ok alpha) {tree : PolyProductTree}
    (ht : TreeOver q xs tree) :
    (∃ coeffs, lagrangeInterpolateFromTree env y tree q = .ok coeffs ∧ Reduced q coeffs ∧
      Interpolates q y xs (toPoly (ZMod q) coeffs)) ↔
      ∀ i < xs.length, leafSlope xs (alpha.getD i 0) % q ≠ 0 ∧ (y.getD i 0 % q = 0 ∨
        leafSlope xs (alpha.getD i 0) % q = leafSlope xs (xs.getD i 0) % q) := by
  have hlib := lawfulBackend_builtIn q
  have hcast : ∀ a b : Mpz, a % q = b % q ↔ (a : ZMod q) = b := fun a b =>
    (ZMod.intCast_eq_intCast_iff' a b q).symm
  have hzero : ∀ a : Mpz, a % q = 0 ↔ (a : ZMod q) = 0 := fun a => by
    rw [ZMod.intCast_zmod_eq_zero_iff_dvd, Int.dvd_iff_emod_eq_zero]
  simp only [ne_eq, hcast, hzero, cast_leafSlope]
  rw [← hlen] at ha
  constructor
  · rintro ⟨coeffs, hcoeffs, -, hint⟩ i hi
    obtain ⟨hne, -, hpoly⟩ := lagrangeInterpolateFromTreeWith_leaves hlib hlen hxs ha ht hcoeffs
    rw [hlen] at hne
    rw [hpoly] at hint
    exact ⟨hne i hi, (treeInterpolant_interpolates hlen hne).mp hint i hi⟩
  · intro h
    have hne : ∀ i < xs.length, (leafDerivative q xs).eval (entry (ZMod q) alpha i) ≠ 0 :=
      fun i hi => (h i hi).1
    obtain ⟨coeffs, hcoeffs⟩ := lagrangeInterpolateFromTreeWith_returns hlib hth
      (selects_builtIn env) hlen hxs hbound ha ht (hlen ▸ hne)
    obtain ⟨-, hcan, hpoly⟩ := lagrangeInterpolateFromTreeWith_leaves hlib hlen hxs ha ht hcoeffs
    refine ⟨coeffs, hcoeffs, hcan.range, ?_⟩
    rw [hpoly]
    exact (treeInterpolant_interpolates hlen hne).mpr fun i hi => (h i hi).2

/-- The values are met at the leaves exactly where the derivative of the root
takes the same value at the public point and at the leaf. -/
theorem lagrangeInterpolateFromTree_meets_leaves {threshold : ℕ}
    (hth : nttPolyThreshold env = .ok threshold) (hxs : xs ≠ [])
    (hlen : y.length = xs.length) (hbound : xs.length + 2 ≤ 2 ^ 63) :
    ∃ tree alpha, polyBuildProductTree env xs q = .ok tree ∧
      rfOpaEvalPoints env xs.length q = .ok alpha ∧
      ((∃ coeffs, lagrangeInterpolateFromTree env y tree q = .ok coeffs ∧ Reduced q coeffs ∧
        Interpolates q y xs (toPoly (ZMod q) coeffs)) ↔
        ∀ i < xs.length, leafSlope xs (alpha.getD i 0) % q ≠ 0 ∧ (y.getD i 0 % q = 0 ∨
          leafSlope xs (alpha.getD i 0) % q = leafSlope xs (xs.getD i 0) % q)) := by
  have hq := (Fact.out : q.Prime).one_lt
  obtain ⟨tree, htree⟩ := polyBuildProductTree_exists hq hth xs hbound
  obtain ⟨alpha, ha⟩ := publicEvalPointsCached_exists env (n := xs.length) (by omega) (q : ℤ)
  exact ⟨tree, alpha, htree, ha, interpolatesLeaves_iff hth hxs hlen hbound ha
    (polyBuildProductTree_spec hq hxs htree)⟩

end

theorem lagrangeInterpolateFromTree_meets_leaves_line : ∃ tree,
    polyBuildProductTree (fun _ => none) [1, 2] (7 : ℕ) = .ok tree ∧
      ∃ coeffs, lagrangeInterpolateFromTree (fun _ => none) [3, 5] tree (7 : ℕ) = .ok coeffs ∧
        Interpolates 7 [3, 5] [1, 2] (toPoly (ZMod 7) coeffs) := by
  have : Fact (Nat.Prime 7) := ⟨by decide⟩
  have hth : nttPolyThreshold (fun _ => none) = .ok 512 := rfl
  have hne : [(1 : Mpz), 2] ≠ [] := List.cons_ne_nil _ _
  obtain ⟨tree, alpha, htree, ha, hiff⟩ :=
    lagrangeInterpolateFromTree_meets_leaves (q := 7) (y := [3, 5]) hth hne rfl (by decide)
  have halpha : alpha = [1, 2] := by
    have hpts : rfOpaEvalPoints (fun _ => none) 2 (7 : ℕ) = .ok [1, 2] := rfl
    simpa using ha.symm.trans hpts
  subst halpha
  obtain ⟨coeffs, hcoeffs, -, hint⟩ := hiff.mpr (by decide)
  exact ⟨tree, htree, coeffs, hcoeffs, hint⟩

/-- Over the leaves 3 and 4 modulo 7 the constant 1 comes back as `6 X + 6`. -/
theorem lagrangeInterpolateFromTree_misses_leaves : ∃ tree,
    polyBuildProductTree (fun _ => none) [3, 4] (7 : ℕ) = .ok tree ∧
      ¬ ∃ coeffs, lagrangeInterpolateFromTree (fun _ => none) [1, 1] tree (7 : ℕ) = .ok coeffs ∧
        Reduced (7 : ℕ) coeffs ∧ Interpolates 7 [1, 1] [3, 4] (toPoly (ZMod 7) coeffs) := by
  have : Fact (Nat.Prime 7) := ⟨by decide⟩
  have hth : nttPolyThreshold (fun _ => none) = .ok 512 := rfl
  obtain ⟨tree, htree⟩ := polyBuildProductTree_exists (q := 7) (by decide) hth [3, 4] (by decide)
  have hne : [(3 : Mpz), 4] ≠ [] := List.cons_ne_nil _ _
  have hpts : rfOpaEvalPoints (fun _ => none) 2 (7 : ℕ) = .ok [1, 2] := rfl
  refine ⟨tree, htree, fun h => ?_⟩
  have hcond := (interpolatesLeaves_iff (y := [1, 1]) hth hne rfl (by decide) hpts
    (polyBuildProductTree_spec (by decide) (by decide) htree)).mp h
  revert hcond
  decide

end RfClassGroups
