import RfClassGroups.PolyMul

/-! `poly_mul_mod` against the quadratic product: one canonical list, and a
recombination that neither leaves its vector nor drops a coefficient. -/

open Polynomial CoeffList ExceptList

namespace RfClassGroups

def karatsubaHalf (a b : List Mpz) : ℕ := (max a.length b.length + 1) / 2

/-- The vectors `z0`, `z1` and `z2` that one step of `poly_mul_mod` recombines. -/
def karatsubaProducts (env : Env) (a b : List Mpz) (q : Mpz) :
    Except String (List Mpz × List Mpz × List Mpz) := do
  let half := karatsubaHalf a b
  let a0 := polySlice a 0 half
  let a1 := polySlice a half a.length
  let b0 := polySlice b 0 half
  let b1 := polySlice b half b.length
  let z0 ← polyMulMod env a0 b0 q
  let z2 ← polyMulMod env a1 b1 q
  let z1 ← polyMulMod env (polyAddMod a0 a1 q) (polyAddMod b0 b1 q) q
  return (z0, polySubMod (polySubMod z1 z0 q) z2 q, z2)

theorem polyMulMod_step {env : Env} {a b : List Mpz} {q : Mpz} {nttN threshold : ℕ}
    (ha : karatsubaCutoff ≤ a.length) (hb : karatsubaCutoff ≤ b.length)
    (hn : nextPowerOfTwoSize (a.length + b.length - 1) = .ok nttN)
    (ht : nttPolyThreshold env = .ok threshold)
    (hntt : ¬ (threshold ≤ max a.length b.length ∧ nttDomainSupported env q nttN)) :
    polyMulMod env a b q = do
      let (z0, z1, z2) ← karatsubaProducts env a b q
      return karatsubaCombine (a.length + b.length - 1) (karatsubaHalf a b) z0 z1 z2 q := by
  have hcut : 0 < karatsubaCutoff := by decide
  have hane : a ≠ [] := List.ne_nil_of_length_pos (hcut.trans_le ha)
  have hbne : b ≠ [] := List.ne_nil_of_length_pos (hcut.trans_le hb)
  have hlow : ¬ (a.length < karatsubaCutoff ∨ b.length < karatsubaCutoff) := by omega
  rw [polyMulMod, if_neg (by tauto), hn, ht, ok_bind, ok_bind, if_neg hntt, dif_neg hlow]
  simp only [karatsubaProducts, bind_assoc, pure_bind, karatsubaHalf]

section

variable {R : Type*} [CommRing R]

theorem degree_mul_lt {f g : R[X]} {m n : ℕ} (hf : f.degree < m) (hg : g.degree < n) :
    (f * g).degree < (m + n - 1 : ℕ) := by
  by_cases hf0 : f = 0
  · rw [hf0, zero_mul, degree_zero]
    exact WithBot.bot_lt_coe _
  by_cases hg0 : g = 0
  · rw [hg0, mul_zero, degree_zero]
    exact WithBot.bot_lt_coe _
  have hf' := (natDegree_lt_iff_degree_lt hf0).mpr hf
  have hg' := (natDegree_lt_iff_degree_lt hg0).mpr hg
  have hmul := natDegree_mul_le (p := f) (q := g)
  refine degree_le_natDegree.trans_lt ?_
  exact_mod_cast (by omega : (f * g).natDegree < m + n - 1)

theorem degree_polySlice_lt {p : List Mpz} (hp : p ≠ []) {half : ℕ} (hh : 0 < half) :
    (toPoly R (polySlice p 0 half)).degree < p.length ∧
      (X ^ half * toPoly R (polySlice p half p.length)).degree < (p.length : WithBot ℕ) := by
  have hpos := List.length_pos_iff.mpr hp
  have hlow : (toPoly R (polySlice p 0 half)).degree < p.length := by
    refine (degree_toPoly_lt _).trans_le ?_
    have hm : ¬ min half p.length ≤ 0 := by omega
    simp only [polySlice, Nat.zero_min, if_neg hm, List.drop_zero, List.length_take]
    exact_mod_cast (by omega : min (min half p.length) p.length ≤ p.length)
  refine ⟨hlow, ?_⟩
  have hsplit := toPoly_polySlice_split (R := R) p hh hp
  rw [← sub_eq_iff_eq_add'.mpr hsplit]
  exact (degree_sub_le _ _).trans_lt (max_lt (degree_toPoly_lt p) hlow)

theorem degree_karatsuba_lt {a b : List Mpz} (ha : a ≠ []) (hb : b ≠ []) {half : ℕ}
    (hh : 0 < half) {a0 a1 b0 b1 : R[X]} (ha0 : a0 = toPoly R (polySlice a 0 half))
    (ha1 : a1 = toPoly R (polySlice a half a.length)) (hb0 : b0 = toPoly R (polySlice b 0 half))
    (hb1 : b1 = toPoly R (polySlice b half b.length)) :
    (a0 * b0).degree < (a.length + b.length - 1 : ℕ) ∧
    (X ^ half * (a0 * b1 + a1 * b0)).degree < ((a.length + b.length - 1 : ℕ) : WithBot ℕ) ∧
    (X ^ (2 * half) * (a1 * b1)).degree < ((a.length + b.length - 1 : ℕ) : WithBot ℕ) := by
  obtain ⟨hal, hah⟩ := degree_polySlice_lt (R := R) ha hh
  obtain ⟨hbl, hbh⟩ := degree_polySlice_lt (R := R) hb hh
  rw [← ha0] at hal
  rw [← ha1] at hah
  rw [← hb0] at hbl
  rw [← hb1] at hbh
  refine ⟨degree_mul_lt hal hbl, ?_, ?_⟩
  · have hsum : X ^ half * (a0 * b1 + a1 * b0) = a0 * (X ^ half * b1) + X ^ half * a1 * b0 := by
      ring
    rw [hsum]
    exact (degree_add_le _ _).trans_lt (max_lt (degree_mul_lt hal hbh) (degree_mul_lt hah hbl))
  · have hprod : X ^ (2 * half) * (a1 * b1) = X ^ half * a1 * (X ^ half * b1) := by ring
    rw [hprod]
    exact degree_mul_lt hah hbh

end

section

variable {n : ℕ}

theorem karatsubaProducts_spec {env : Env} (hn : 1 < n) {a b z0 z1 z2 : List Mpz}
    (ha : a ≠ []) (hb : b ≠ []) (h : karatsubaProducts env a b n = .ok (z0, z1, z2)) :
    z0.length ≤ a.length + b.length - 1 ∧
    (∀ i, a.length + b.length - 1 ≤ i + karatsubaHalf a b → z1.getD i 0 = 0) ∧
    ∀ i, a.length + b.length - 1 ≤ i + 2 * karatsubaHalf a b → z2.getD i 0 = 0 := by
  have hn0 : 0 < n := zero_lt_one.trans hn
  have hn' : (0 : ℤ) < n := by exact_mod_cast hn0
  have hz : (((n : ℕ) : ℤ) : ZMod n) = 0 := by simp
  have hapos := List.length_pos_iff.mpr ha
  have hbpos := List.length_pos_iff.mpr hb
  have hhalf : 0 < karatsubaHalf a b := by rw [karatsubaHalf]; omega
  obtain ⟨z0', h0, h⟩ := bind_eq_ok.mp h
  obtain ⟨z2', h2, h⟩ := bind_eq_ok.mp h
  obtain ⟨z1', h1, h⟩ := bind_eq_ok.mp h
  obtain ⟨c0, e0⟩ := polyMulMod_spec hn0 h0
  obtain ⟨c2, e2⟩ := polyMulMod_spec hn0 h2
  obtain ⟨c1, e1⟩ := polyMulMod_spec hn0 h1
  simp only [pure_eq_ok, Except.ok.injEq, Prod.mk.injEq] at h
  obtain ⟨rfl, rfl, rfl⟩ := h
  obtain ⟨d0, d1, d2⟩ := degree_karatsuba_lt (R := ZMod n) ha hb hhalf rfl rfl rfl rfl
  rw [← e0] at d0
  rw [← e2] at d2
  have hmid : toPoly (ZMod n) (polySubMod (polySubMod z1' z0' n) z2' n) =
      toPoly (ZMod n) (polySlice a 0 (karatsubaHalf a b)) *
          toPoly (ZMod n) (polySlice b (karatsubaHalf a b) b.length) +
        toPoly (ZMod n) (polySlice a (karatsubaHalf a b) a.length) *
          toPoly (ZMod n) (polySlice b 0 (karatsubaHalf a b)) := by
    rw [toPoly_polySubMod hz, toPoly_polySubMod hz, e0, e1, e2, toPoly_polyAddMod hz,
      toPoly_polyAddMod hz]
    ring
  rw [← hmid] at d1
  have hcan : Canonical n (polySubMod (polySubMod z1' z0' n) z2' n) :=
    canonical_polySubMod hn' (Or.inr c2.ne_nil)
  refine ⟨c0.length_le_of_degree_lt hn (by omega) d0, fun i hi => ?_, fun i hi => ?_⟩
  · exact hcan.getD_eq_zero hn0 d1 hi
  · exact c2.getD_eq_zero hn0 d2 hi

end

/-- Whatever path it takes, the fast product is the list of the quadratic one. -/
theorem polyMulMod_schoolbook (env : Env) {q : Mpz} (hq : 2 ≤ q) (a b : List Mpz) :
    (∀ r, polyMulMod env a b q = .ok r → r = polyMulNaiveMod a b q) ∧
    (∀ r, polyMulNttMod env a b q = .ok r → r = polyMulNaiveMod a b q) ∧
    Canonical q (polyMulNaiveMod a b q) ∧
    (∀ k, (polyMulNaiveMod a b q).getD k 0 =
      (∑ ij ∈ Finset.HasAntidiagonal.antidiagonal k, a.getD ij.1 0 * b.getD ij.2 0) % q) ∧
    (∀ threshold, nttPolyThreshold env = .ok threshold → a.length + b.length ≤ 2 ^ 63 →
      ∃ r, polyMulMod env a b q = .ok r) ∧
    ∀ z0 z1 z2, karatsubaCutoff ≤ a.length → karatsubaCutoff ≤ b.length →
      karatsubaProducts env a b q = .ok (z0, z1, z2) →
      z0.length ≤ a.length + b.length - 1 ∧
      (∀ i, a.length + b.length - 1 ≤ i + karatsubaHalf a b → z1.getD i 0 = 0) ∧
      ∀ i, a.length + b.length - 1 ≤ i + 2 * karatsubaHalf a b → z2.getD i 0 = 0 := by
  obtain ⟨n, rfl⟩ := Int.eq_ofNat_of_zero_le (zero_le_two.trans hq)
  have hn : 1 < n := by exact_mod_cast hq
  have hn0 : 0 < n := zero_lt_one.trans hn
  have hn' : (0 : ℤ) < n := by exact_mod_cast hn0
  have hz : (((n : ℕ) : ℤ) : ZMod n) = 0 := by simp
  have hnaive := canonical_polyMulNaiveMod hn' a b
  have hpoly := toPoly_polyMulNaiveMod hz a b
  refine ⟨fun r h => ?_, fun r h => ?_, hnaive, fun k => ?_, fun threshold ht hlen => ?_,
    fun z0 z1 z2 ha hb h => ?_⟩
  · obtain ⟨hr, hmul⟩ := polyMulMod_spec hn0 h
    exact hr.ext hn0 hnaive (hmul.trans hpoly.symm)
  · obtain ⟨hr, hmul⟩ := polyMulNttMod_spec hn0 h
    exact hr.ext hn0 hnaive (hmul.trans hpoly.symm)
  · refine eq_of_cast_eq (hnaive.getD_range hn' k) (emod_range hn' _) ?_
    have hcoeff := congrArg (fun f => f.coeff k) hpoly
    simp only [coeff_mul, coeff_toPoly] at hcoeff
    rw [hcoeff, cast_emod hz, Int.cast_sum]
    exact Finset.sum_congr rfl fun ij _ => (Int.cast_mul _ _).symm
  · exact polyMulMod_exists ht hlen
  · have hcut : 0 < karatsubaCutoff := by decide
    exact karatsubaProducts_spec hn (List.ne_nil_of_length_pos (hcut.trans_le ha))
      (List.ne_nil_of_length_pos (hcut.trans_le hb)) h

theorem polyMulMod_schoolbook_small :
    polyMulMod (fun _ => none) [3, -5, 2] [4, 1] 7 = .ok [5, 4, 3, 2] := by
  obtain ⟨hfast, -, -, -, hruns, -⟩ :=
    polyMulMod_schoolbook (fun _ => none) (q := 7) (by decide) [3, -5, 2] [4, 1]
  obtain ⟨r, hr⟩ := hruns 512 rfl (by decide)
  rw [hr, hfast r hr]
  decide

end RfClassGroups
