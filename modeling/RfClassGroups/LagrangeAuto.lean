import RfClassGroups.LagrangeTree
import Mathlib.RingTheory.RootsOfUnity.PrimitiveRoots

/-! The dispatcher of the reconstruction strategies. -/

open Polynomial CoeffList ExceptList

namespace RfClassGroups

theorem lagrangeInterpolateNtt_exists {q : ℕ} {env : Env} {y : List Mpz}
    (hsup : nttDomainSupported env q y.length = true)
    (hlen : y.length ≤ 2 ^ 63) : ∃ coeffs, lagrangeInterpolateNtt env y q = .ok coeffs := by
  obtain ⟨henv, hq, k, hk⟩ := nttDomainSupported_iff.mp hsup
  have hk63 : k ≤ 63 := (Nat.pow_le_pow_iff_right (by omega)).mp (hk ▸ hlen)
  obtain ⟨out, hout⟩ := nttInplace_exists henv (a := y.map (· % (q : ℤ))) (k := k) (by omega)
    (by simpa using hk) true
  rw [lagrangeInterpolateNtt, hsup, if_neg (by simp)]
  rw [hq] at hout ⊢
  rw [hout]
  exact ⟨_, rfl⟩

section

variable {ZZp ZZpX : Type} {backend : Option (Mpz → Ntl ZZp ZZpX)} {q : ℕ} [Fact q.Prime]
  {env : Env} {y alpha : List Mpz}

noncomputable def interpolantValue (q : ℕ) [Fact q.Prime] (y alpha : List Mpz) (t : Mpz) : Mpz :=
  ((interpolant q y alpha).eval (t : ZMod q)).val

/-- The library finds the interpolant, since the public points are distinct. -/
theorem ntlInterpolate_eq {lib : Mpz → Ntl ZZp ZZpX} {val : ZZpX → (ZMod q)[X]}
    (hl : (lib q).Lawful q val) (hle : y.length ≤ q)
    (ha : rfOpaEvalPoints env y.length q = .ok alpha) :
    ∃ p, (lib q).interpolate (ntlVecFromMpzVec (lib q) alpha) (ntlVecFromMpzVec (lib q) y) = .ok p ∧
      val p = interpolant q y alpha := by
  have hal := rfOpaEvalPoints_length ha
  have hconv : ∀ xs : List Mpz, (ntlVecFromMpzVec (lib q) xs).map
      (fun x => (((lib q).rep x : ℤ) : ZMod q)) = xs.map fun x : Mpz => (x : ZMod q) := by
    intro xs
    rw [ntlVecFromMpzVec, List.map_map]
    exact List.map_congr_left fun x _ => hl.conv x
  have hnodup : (alpha.map fun x : Mpz => (x : ZMod q)).Nodup := by
    refine List.pairwise_iff_getElem.mpr fun i j hi hj hij heq => ?_
    rw [List.length_map, hal] at hi hj
    refine hij.ne (alpha_inj hle ha i hi j hj ?_)
    rw [List.getElem_map, List.getElem_map] at heq
    rwa [entry, entry, List.getD_eq_getElem _ _ (by omega), List.getD_eq_getElem _ _ (by omega)]
  obtain ⟨p, hp, hdeg, hval⟩ := hl.interpolate Fact.out (ntlVecFromMpzVec (lib q) alpha)
    (ntlVecFromMpzVec (lib q) y) (by simp [ntlVecFromMpzVec, hal]) (by rwa [hconv])
  refine ⟨p, hp, eq_interpolant hle ha (by simpa [ntlVecFromMpzVec] using hdeg) fun i hi => ?_⟩
  rw [hconv, ntlVecFromMpzVec, List.map_map] at hval
  have hentry := List.getElem_of_eq hval (i := i) (by rw [List.length_map]; omega)
  simp only [List.getElem_map, Function.comp_apply, hl.conv] at hentry
  rwa [entry, entry, List.getD_eq_getElem _ _ (by omega), List.getD_eq_getElem _ _ hi]

theorem lagrangeInterpolatePublicPointsWith_ok (hlib : LawfulBackend backend q) (hy : y ≠ [])
    (hle : y.length ≤ q) (ha : rfOpaEvalPoints env y.length q = .ok alpha) {coeffs : List Mpz}
    (h : lagrangeInterpolatePublicPointsWith backend env y q = .ok coeffs) :
    coeffs.length ≤ y.length ∧ toPoly (ZMod q) coeffs = interpolant q y alpha := by
  have hq := (Fact.out : q.Prime).one_lt
  have hlength : Canonical q coeffs → toPoly (ZMod q) coeffs = interpolant q y alpha →
      coeffs.length ≤ y.length := by
    intro hcan hpoly
    rw [hcan.length_eq hq, hpoly]
    by_cases h0 : interpolant q y alpha = 0
    · rw [h0, natDegree_zero]
      exact List.length_pos_iff.mpr hy
    · exact (natDegree_lt_iff_degree_lt h0).mpr (degree_interpolant hle ha)
  unfold lagrangeInterpolatePublicPointsWith at h
  split at h
  · exact ⟨lagrangeInterpolateNtt_length h, lagrangeInterpolateNtt_spec hle ha h⟩
  obtain ⟨sel, hs, h⟩ := bind_eq_ok.mp h
  cases sel with
  | some lib =>
    obtain ⟨val, hl⟩ := hlib lib (ntlSelected_mem hs)
    obtain ⟨p, hp, hval⟩ := ntlInterpolate_eq hl hle ha
    simp only [ha, ok_bind, hp, pure_eq_ok, Except.ok.injEq] at h
    obtain ⟨hcan, hpoly⟩ := mpzVecFromNtlPoly_spec (by omega) hl p
    rw [h] at hcan hpoly
    exact ⟨hlength hcan (hpoly.trans hval), hpoly.trans hval⟩
  | none =>
    obtain ⟨tree, htree, h⟩ := bind_eq_ok.mp h
    obtain ⟨points, hpoints, htree⟩ := bind_eq_ok.mp htree
    obtain rfl : alpha = points := by simpa using ha.symm.trans hpoints
    have hne := rfOpaEvalPoints_ne_nil hy ha
    obtain ⟨hcan, hpoly⟩ := lagrangeInterpolateFromTreeWith_ok hlib hy ha
      (polyBuildProductTreeWith_spec hq hlib hne htree) h
    exact ⟨hlength hcan hpoly, hpoly⟩

theorem polyEvalBatchAutoWith_interpolant (hlib : LawfulBackend backend q)
    {coeffs targets r : List Mpz} (hlen : coeffs.length < 2 ^ 31)
    (hc : toPoly (ZMod q) coeffs = interpolant q y alpha)
    (h : polyEvalBatchAutoWith backend env coeffs targets q = .ok r) :
    r = targets.map (interpolantValue q y alpha) := by
  have hq := (Fact.out : q.Prime).one_lt
  have hq0 : (0 : ℤ) < (q : ℕ) := by exact_mod_cast zero_lt_one.trans hq
  rw [polyEvalBatchAutoWith_eq hq hlib hlen h]
  refine List.map_congr_left fun t _ => eq_val_of_cast (polyValue_range hq0 _ _) ?_
  rw [cast_polyValue natCast_modulus, hc]

theorem lagrangeEvalBatchAutoWith_ok (hlib : LawfulBackend backend q) {targets r : List Mpz}
    (hy : y ≠ []) (hlen : y.length < 2 ^ 31) (hle : y.length ≤ q)
    (ha : rfOpaEvalPoints env y.length q = .ok alpha)
    (h : lagrangeEvalBatchAutoWith backend env y targets q = .ok r) :
    r = targets.map (interpolantValue q y alpha) := by
  obtain ⟨threshold, _, h⟩ := bind_eq_ok.mp h
  split at h
  · next hnil =>
    simp only [pure_eq_ok, Except.ok.injEq] at h
    rw [← h, hnil.resolve_left hy]
    rfl
  split at h
  · obtain ⟨coeffs, hcoeffs, h⟩ := bind_eq_ok.mp h
    exact polyEvalBatchAutoWith_interpolant hlib ((lagrangeInterpolateNtt_length hcoeffs).trans_lt hlen)
      (lagrangeInterpolateNtt_spec hle ha hcoeffs) h
  next hsup =>
  split at h
  · exact lagrangeEvalBatch_ok hy hlen (by simpa using hsup) ha h
  · obtain ⟨coeffs, hcoeffs, h⟩ := bind_eq_ok.mp h
    obtain ⟨hclen, hpoly⟩ := lagrangeInterpolatePublicPointsWith_ok hlib hy hle ha hcoeffs
    exact polyEvalBatchAutoWith_interpolant hlib (hclen.trans_lt hlen) hpoly h

theorem lagrangeInterpolatePublicPointsWith_exists (hlib : LawfulBackend backend q) {threshold : ℕ}
    (hth : nttPolyThreshold env = .ok threshold) (hsel : Selects backend env) (hy : y ≠ [])
    (hle : y.length ≤ q) (hlen : y.length + 2 ≤ 2 ^ 63) :
    ∃ coeffs, lagrangeInterpolatePublicPointsWith backend env y q = .ok coeffs := by
  have hq := (Fact.out : q.Prime).one_lt
  unfold lagrangeInterpolatePublicPointsWith
  split
  · next hsup => exact lagrangeInterpolateNtt_exists hsup (by omega)
  · obtain ⟨alpha, ha⟩ := publicEvalPointsCached_exists env (n := y.length) (by omega)
      (q : ℤ)
    obtain ⟨sel, hs⟩ := hsel y.length
    rw [hs, ok_bind]
    cases sel with
    | some lib =>
      obtain ⟨val, hl⟩ := hlib lib (ntlSelected_mem hs)
      obtain ⟨p, hp, -⟩ := ntlInterpolate_eq hl hle ha
      simp only [rfOpaEvalPoints] at hp ⊢
      rw [ha, ok_bind, hp]
      exact ⟨_, rfl⟩
    | none =>
      have hal := publicEvalPointsCached_length ha
      have hne := rfOpaEvalPoints_ne_nil hy ha
      obtain ⟨tree, htree⟩ := polyBuildProductTreeWith_exists hq hlib hth hsel
        (show alpha.length + 2 ≤ 2 ^ 63 by omega)
      obtain ⟨coeffs, hcoeffs⟩ := lagrangeInterpolateFromTreeWith_exists hlib hth hsel hle hlen ha
        (polyBuildProductTreeWith_spec hq hlib hne htree)
      simp only [publicProductTreeCachedWith, ha, ok_bind, htree]
      exact ⟨coeffs, hcoeffs⟩

theorem lagrangeEvalBatchAutoWith_exists (hlib : LawfulBackend backend q)
    {threshold coeffThreshold hornerMax : ℕ} (hth : nttPolyThreshold env = .ok threshold)
    (hsel : Selects backend env) (hcoeff : psiLagrangeToCoeffThreshold env = .ok coeffThreshold)
    (hh : polyEvalAutoHornerMaxPoints env = .ok hornerMax) (hm : polyEvalMethodEnv env ≠ "ntt")
    (targets : List Mpz) (hle : y.length ≤ q) (hlen : y.length + 2 ≤ 2 ^ 63)
    (htlen : targets.length + 2 ≤ 2 ^ 63) :
    ∃ r, lagrangeEvalBatchAutoWith backend env y targets q = .ok r := by
  have hq := (Fact.out : q.Prime).one_lt
  rw [lagrangeEvalBatchAutoWith, hcoeff, ok_bind]
  split
  · exact ⟨_, rfl⟩
  next hnil =>
  split
  · next hsup =>
    obtain ⟨coeffs, hcoeffs⟩ := lagrangeInterpolateNtt_exists hsup (by omega)
    rw [hcoeffs, ok_bind]
    exact polyEvalBatchAutoWith_exists hq hlib hth hsel hh hm htlen
  split
  · exact lagrangeEvalBatch_exists hle targets
  · obtain ⟨coeffs, hcoeffs⟩ :=
      lagrangeInterpolatePublicPointsWith_exists hlib hth hsel (not_or.mp hnil).1 hle hlen
    rw [hcoeffs, ok_bind]
    exact polyEvalBatchAutoWith_exists hq hlib hth hsel hh hm htlen

end

theorem lagrangeEvalBatchAuto_error {q : ℕ} (hq : 1 < q) {env : Env} {y targets : List Mpz}
    (hgt : q < y.length) (ht : targets ≠ []) :
    ∃ e, lagrangeEvalBatchAuto env y targets q = .error e := by
  have hy : y ≠ [] := List.ne_nil_of_length_pos (by omega)
  have hne : ∀ r, lagrangeEvalBatchAuto env y targets q ≠ .ok r := by
    intro r h
    obtain ⟨threshold, _, h⟩ := bind_eq_ok.mp h
    rw [if_neg (not_or.mpr ⟨hy, ht⟩)] at h
    split at h
    · next hsup =>
      obtain ⟨coeffs, hcoeffs, _⟩ := bind_eq_ok.mp h
      obtain ⟨_, hqeq, k, hk⟩ := nttDomainSupported_iff.mp hsup
      obtain rfl : q = cgNtt128Prime := by exact_mod_cast hqeq
      rw [lagrangeInterpolateNtt, hsup, if_neg (by simp)] at hcoeffs
      obtain ⟨out, hout, _⟩ := bind_eq_ok.mp hcoeffs
      have hk64 := (nttInplace_inverse (by simpa using hk) hout).1
      have hle := Nat.pow_le_pow_right two_pos hk64
      rw [hk] at hgt
      exact absurd (hgt.trans_le hle) (by decide)
    next hsup =>
    split at h
    · obtain ⟨e, he⟩ := lagrangeEvalBatch_error hgt targets
      rw [h] at he
      cases he
    · obtain ⟨coeffs, hcoeffs, _⟩ := bind_eq_ok.mp h
      rw [lagrangeInterpolatePublicPointsWith, if_neg hsup] at hcoeffs
      obtain ⟨sel, hsel, hcoeffs⟩ := bind_eq_ok.mp hcoeffs
      obtain rfl : none = sel := Except.ok.inj hsel
      obtain ⟨tree, htree, hcoeffs⟩ := bind_eq_ok.mp hcoeffs
      obtain ⟨alpha, ha, htree⟩ := bind_eq_ok.mp htree
      have hane := rfOpaEvalPoints_ne_nil hy ha
      exact lagrangeInterpolateFromTree_error hq hgt (by simpa using hsup) ha
        (polyBuildProductTreeWith_spec hq (lawfulBackend_builtIn q) hane htree) hcoeffs
  cases hres : lagrangeEvalBatchAuto env y targets q with
  | error e => exact ⟨e, rfl⟩
  | ok r => exact absurd hres (hne r)

/-- `L` is a polynomial of degree below the number of values that takes them at
the points. -/
def Interpolates (q : ℕ) (y alpha : List Mpz) (L : (ZMod q)[X]) : Prop :=
  L.degree < y.length ∧ ∀ i < y.length, L.eval (entry (ZMod q) alpha i) = entry (ZMod q) y i

theorem publicEvalPoints_shape {q : ℕ} {env : Env} {n : ℕ} {alpha : List Mpz}
    (h : rfOpaEvalPoints env n q = .ok alpha) :
    (nttDomainSupported env q n = true →
      ∃ w : ZMod q, IsPrimitiveRoot w n ∧ ∀ i < n, entry (ZMod q) alpha i = w ^ i) ∧
    (nttDomainSupported env q n = false → ∀ i < n, alpha.getD i 0 = ((i + 1 : ℕ) : Mpz)) := by
  refine ⟨fun hsup => ?_, fun hsup i hi => publicEvalPoints_succ hsup h i hi⟩
  obtain ⟨_, hq, k, rfl⟩ := nttDomainSupported_iff.mp hsup
  obtain rfl : q = cgNtt128Prime := by exact_mod_cast hq
  obtain ⟨hk, hx⟩ := publicEvalPoints_ntt hsup h
  refine ⟨nttRoot k, ?_, hx⟩
  rw [← orderOf_nttRoot k hk]
  exact IsPrimitiveRoot.orderOf _

/-- Every reconstruction strategy evaluates the one interpolant of the values at
the public points. The values are bounded by the counters of 32 bits of direct evaluation and
of Horner's rule, the targets by the size of a vector of 16-byte integers. -/
theorem reconstruction_agree {q : ℕ} [Fact q.Prime] (env : Env) {y targets : List Mpz}
    (hy : 1 ≤ y.length) (hylen : y.length < 2 ^ 31) (htlen : targets.length < 2 ^ 60) :
    (y.length ≤ q → ∃ alpha, rfOpaEvalPoints env y.length q = .ok alpha ∧
      (nttDomainSupported env q y.length = true →
        ∃ w : ZMod q, IsPrimitiveRoot w y.length ∧
          ∀ i < y.length, entry (ZMod q) alpha i = w ^ i) ∧
      (nttDomainSupported env q y.length = false →
        ∀ i < y.length, alpha.getD i 0 = ((i + 1 : ℕ) : Mpz)) ∧
      ∃ L : (ZMod q)[X], Interpolates q y alpha L ∧ (∀ L', Interpolates q y alpha L' → L' = L) ∧
        (∀ r, lagrangeEvalBatchAuto env y targets q = .ok r →
          r = targets.map fun t : Mpz => ((L.eval (t : ZMod q)).val : Mpz)) ∧
        (∀ threshold coeffThreshold hornerMax, nttPolyThreshold env = .ok threshold →
          psiLagrangeToCoeffThreshold env = .ok coeffThreshold →
          polyEvalAutoHornerMaxPoints env = .ok hornerMax → polyEvalMethodEnv env ≠ "ntt" →
          lagrangeEvalBatchAuto env y targets q =
            .ok (targets.map fun t : Mpz => ((L.eval (t : ZMod q)).val : Mpz))) ∧
        (∀ r, nttDomainSupported env q y.length = false →
          lagrangeEvalBatch y targets q = .ok r →
          r = targets.map fun t : Mpz => ((L.eval (t : ZMod q)).val : Mpz)) ∧
        (∀ coeffs, lagrangeInterpolateNtt env y q = .ok coeffs → toPoly (ZMod q) coeffs = L) ∧
        ∀ tree coeffs, publicProductTreeCached env y.length q = .ok tree →
          lagrangeInterpolateFromTree env y tree q = .ok coeffs → toPoly (ZMod q) coeffs = L) ∧
    (q < y.length → targets ≠ [] → ∃ e, lagrangeEvalBatchAuto env y targets q = .error e) := by
  have hq := (Fact.out : q.Prime).one_lt
  have hlib := lawfulBackend_builtIn q
  have hne : y ≠ [] := List.ne_nil_of_length_pos hy
  refine ⟨fun hle => ?_, fun hgt ht => lagrangeEvalBatchAuto_error hq hgt ht⟩
  obtain ⟨alpha, ha⟩ := publicEvalPointsCached_exists env (n := y.length) (by omega) (q : ℤ)
  have hane := rfOpaEvalPoints_ne_nil hne ha
  obtain ⟨hroots, hsucc⟩ := publicEvalPoints_shape ha
  refine ⟨alpha, ha, hroots, hsucc, interpolant q y alpha,
    ⟨degree_interpolant hle ha, eval_interpolant hle ha⟩,
    fun L' hL' => eq_interpolant hle ha hL'.1 hL'.2,
    fun r h => lagrangeEvalBatchAutoWith_ok hlib hne hylen hle ha h, ?_,
    fun r hsup h => lagrangeEvalBatch_ok hne hylen hsup ha h,
    fun coeffs h => lagrangeInterpolateNtt_spec hle ha h, fun tree coeffs htree h => ?_⟩
  · intro threshold coeffThreshold hornerMax hth hcoeff hh hm
    obtain ⟨r, hr⟩ := lagrangeEvalBatchAutoWith_exists hlib hth (selects_builtIn env) hcoeff hh hm
      targets hle (by omega) (by omega)
    rw [lagrangeEvalBatchAuto, hr, lagrangeEvalBatchAutoWith_ok hlib hne hylen hle ha hr]
    rfl
  · obtain ⟨points, hpoints, htree⟩ := bind_eq_ok.mp htree
    obtain rfl : alpha = points := by simpa using ha.symm.trans hpoints
    exact (lagrangeInterpolateFromTreeWith_ok hlib hne ha
      (polyBuildProductTreeWith_spec hq hlib hane htree) h).2

theorem reconstruction_agree_square :
    ∃ L : (ZMod 5)[X], (∀ L', Interpolates 5 [1, 4, 4] [1, 2, 3] L' → L' = L) ∧
      lagrangeEvalBatchAuto (fun _ => none) [1, 4, 4] [4, -1, 8] (5 : ℕ) =
        .ok ([4, -1, 8].map fun t : Mpz => ((L.eval (t : ZMod 5)).val : Mpz)) := by
  have : Fact (Nat.Prime 5) := ⟨by decide⟩
  obtain ⟨alpha, ha, _, _, L, _, huniq, _, hret, _⟩ :=
    (@reconstruction_agree 5 this (fun _ => none) [1, 4, 4] [4, -1, 8] (by decide) (by decide)
      (by decide)).1 (by decide)
  have halpha : alpha = [1, 2, 3] := by
    have hpts : rfOpaEvalPoints (fun _ => none) 3 (5 : ℕ) = .ok [1, 2, 3] := rfl
    simpa using ha.symm.trans hpts
  exact ⟨L, halpha ▸ huniq, hret 512 4096 65536 rfl rfl rfl (by decide)⟩

end RfClassGroups
