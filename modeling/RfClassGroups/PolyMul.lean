import RfClassGroups.NttTransform
import RfClassGroups.PolyBasic
import Mathlib.LinearAlgebra.Lagrange

/-! Multiplication in `Z_q[X]`: by the transform above a threshold, by
Karatsuba's recursion, and by the quadratic loop below its cutoff. -/

open Polynomial CoeffList ExceptList Loops

namespace RfClassGroups

def padMod (p : List Mpz) (n : ℕ) (q : Mpz) : List Mpz :=
  p.map (· % q) ++ List.replicate (n - p.length) 0

def pointwiseMulMod (fa fb : List Mpz) (n : ℕ) (q : Mpz) : List Mpz :=
  (List.range n).map fun i => fa.getD i 0 * fb.getD i 0 % q

def polyMulNttMod (env : Env) (a b : List Mpz) (q : Mpz) : Except String (List Mpz) :=
  if a = [] ∨ b = [] then return [0]
  else do
    let n ← nextPowerOfTwoSize (a.length + b.length - 1)
    if !nttDomainSupported env q n then
      throw "poly_mul_ntt_mod: unsupported NTT domain"
    else
      let fa ← nttInplace env (padMod a n q) q false
      let fb ← nttInplace env (padMod b n q) q false
      let fc ← nttInplace env (pointwiseMulMod fa fb n q) q true
      return polyTrim (fc.take (a.length + b.length - 1))

/-- The loop adding `z * X ^ shift` to `out`; it breaks at the end of `out`. -/
def addShiftedMod (out z : List Mpz) (shift : ℕ) (q : Mpz) : List Mpz :=
  (List.range z.length).foldl (fun out i =>
    if out.length ≤ i + shift then out
    else out.set (i + shift) ((out.getD (i + shift) 0 + z.getD i 0) % q)) out

def karatsubaCombine (size half : ℕ) (z0 z1 z2 : List Mpz) (q : Mpz) : List Mpz :=
  let out := addShiftedMod (List.replicate size 0) z0 0 q
  let out := addShiftedMod out z1 half q
  polyTrim (addShiftedMod out z2 (2 * half) q)

def karatsubaCutoff : ℕ := 32

theorem karatsuba_lengths {p : List Mpz} {n half : ℕ} (hn : karatsubaCutoff ≤ n)
    (hp : p.length ≤ n) (hhalf : half = (n + 1) / 2) (q : Mpz) :
    (polySlice p 0 half).length ≤ half ∧ (polySlice p half p.length).length ≤ half ∧
      (polyAddMod (polySlice p 0 half) (polySlice p half p.length) q).length ≤ half := by
  rw [karatsubaCutoff] at hn
  have h0 := polySlice_length_le p (b := 0) (e := half)
  have h1 := polySlice_length_le p (b := half) (e := p.length)
  have hl : (polySlice p 0 half).length ≤ half := by omega
  have hh : (polySlice p half p.length).length ≤ half := by omega
  exact ⟨hl, hh, (polyAddMod_length_le _ _ q).trans (max_le hl hh)⟩

/-- The operands of the three recursive products are at most half as long. -/
theorem karatsuba_halves {a b : List Mpz} {n : ℕ} (hn : max a.length b.length = n)
    (hcut : ¬ (a.length < karatsubaCutoff ∨ b.length < karatsubaCutoff)) (q : Mpz) :
    ∃ half, half = (n + 1) / 2 ∧ 0 < half ∧ half < n ∧
      max (polySlice a 0 half).length (polySlice b 0 half).length ≤ half ∧
      max (polySlice a half a.length).length (polySlice b half b.length).length ≤ half ∧
      max (polyAddMod (polySlice a 0 half) (polySlice a half a.length) q).length
        (polyAddMod (polySlice b 0 half) (polySlice b half b.length) q).length ≤ half := by
  have hcut32 : karatsubaCutoff ≤ n :=
    hn ▸ (not_lt.mp (not_or.mp hcut).1).trans (le_max_left _ _)
  obtain ⟨half, hhalf⟩ : ∃ half, half = (n + 1) / 2 := ⟨_, rfl⟩
  obtain ⟨ha0, ha1, ha2⟩ := karatsuba_lengths (p := a) hcut32 (hn ▸ le_max_left _ _) hhalf q
  obtain ⟨hb0, hb1, hb2⟩ := karatsuba_lengths (p := b) hcut32 (hn ▸ le_max_right _ _) hhalf q
  rw [karatsubaCutoff] at hcut32
  exact ⟨half, hhalf, by omega, by omega, max_le ha0 hb0, max_le ha1 hb1, max_le ha2 hb2⟩

/-- `poly_mul_mod` without the optional external backend. -/
def polyMulMod (env : Env) (a b : List Mpz) (q : Mpz) : Except String (List Mpz) :=
  if a = [] ∨ b = [] then return [0]
  else do
    let nttN ← nextPowerOfTwoSize (a.length + b.length - 1)
    let threshold ← nttPolyThreshold env
    if threshold ≤ max a.length b.length ∧ nttDomainSupported env q nttN then
      polyMulNttMod env a b q
    else if h : a.length < karatsubaCutoff ∨ b.length < karatsubaCutoff then
      return polyMulNaiveMod a b q
    else
      let n := max a.length b.length
      let half := (n + 1) / 2
      let a0 := polySlice a 0 half
      let a1 := polySlice a half a.length
      let b0 := polySlice b 0 half
      let b1 := polySlice b half b.length
      let z0 ← polyMulMod env a0 b0 q
      let z2 ← polyMulMod env a1 b1 q
      let z1 ← polyMulMod env (polyAddMod a0 a1 q) (polyAddMod b0 b1 q) q
      return karatsubaCombine (a.length + b.length - 1) half z0
        (polySubMod (polySubMod z1 z0 q) z2 q) z2 q
termination_by max a.length b.length
decreasing_by
  all_goals
    have hn : karatsubaCutoff ≤ n := (not_lt.mp (not_or.mp h).1).trans (le_max_left _ _)
    have ha := karatsuba_lengths (p := a) hn (le_max_left _ _) rfl q
    have hb := karatsuba_lengths (p := b) hn (le_max_right _ _) rfl q
    have hlt : half < n := by
      have hcut : karatsubaCutoff = 32 := rfl
      dsimp only [half]
      omega
    refine lt_of_le_of_lt (max_le ?_ ?_) hlt
  exacts [ha.1, hb.1, ha.2.1, hb.2.1, ha.2.2, hb.2.2]

theorem padMod_length {p : List Mpz} {n : ℕ} (hp : p.length ≤ n) (q : Mpz) :
    (padMod p n q).length = n := by
  simp [padMod, hp]

theorem padMod_reduced {q : Mpz} (hq : 0 < q) (p : List Mpz) (n : ℕ) :
    Reduced q (padMod p n q) := by
  intro c hc
  rcases List.mem_append.mp hc with h | h
  · exact reduced_map_emod hq _ p c h
  · rw [List.eq_of_mem_replicate h]
    exact ⟨le_rfl, hq⟩

theorem toPoly_padMod {R : Type*} [CommRing R] {q : Mpz} (hq : (q : R) = 0) (p : List Mpz)
    (n : ℕ) : toPoly R (padMod p n q) = toPoly R p := by
  rw [padMod, toPoly_append, toPoly_map_emod hq, toPoly_replicate_zero, mul_zero, add_zero]

theorem degree_toPoly_mul_lt {R : Type*} [CommRing R] {a b : List Mpz} (ha : a ≠ []) :
    (toPoly R a * toPoly R b).degree < (a.length + b.length - 1 : ℕ) := by
  have hpos := List.length_pos_iff.mpr ha
  obtain ⟨hlen, hmul⟩ := mulNaiveLoop_spec (R := R) a b
    (List.replicate (a.length + b.length - 1) 0) (by simp; omega)
  rw [toPoly_replicate_zero, zero_add] at hmul
  rw [← hmul]
  refine (degree_toPoly_lt _).trans_eq ?_
  rw [hlen, List.length_replicate]

theorem toPoly_take_of_degree_lt {R : Type*} [CommRing R] {p : List Mpz} {m : ℕ}
    (h : (toPoly R p).degree < m) : toPoly R (p.take m) = toPoly R p := by
  ext i
  by_cases hi : i < m
  · simp [hi]
  · rw [coeff_eq_zero_of_degree_lt (h.trans_le (by exact_mod_cast not_lt.mp hi))]
    simp [hi]

/-- Two transforms, their products and the way back: the values at the powers of
the root determine the product. -/
theorem toPoly_nttProduct {env : Env} {k : ℕ} {a b fa fb fc : List Mpz} (ha : a ≠ [])
    (hb : b ≠ []) (hle : a.length + b.length - 1 ≤ 2 ^ k)
    (hfa : nttInplace env (padMod a (2 ^ k) cgNtt128Prime) cgNtt128Prime false = .ok fa)
    (hfb : nttInplace env (padMod b (2 ^ k) cgNtt128Prime) cgNtt128Prime false = .ok fb)
    (hfc : nttInplace env (pointwiseMulMod fa fb (2 ^ k) cgNtt128Prime) cgNtt128Prime true =
      .ok fc) :
    fc.length = 2 ^ k ∧ toPoly NttField fc = toPoly NttField a * toPoly NttField b := by
  have hapos := List.length_pos_iff.mpr ha
  have hbpos := List.length_pos_iff.mpr hb
  obtain ⟨hk, _, hfax⟩ := nttInplace_forward (padMod_length (by omega) _) hfa
  obtain ⟨_, _, hfbx⟩ := nttInplace_forward (padMod_length (by omega) _) hfb
  have hlen : (pointwiseMulMod fa fb (2 ^ k) cgNtt128Prime).length = 2 ^ k := by
    simp [pointwiseMulMod]
  obtain ⟨_, hfcl, hfcx⟩ := nttInplace_inverse hlen hfc
  refine ⟨hfcl, Polynomial.eq_of_degrees_lt_of_eval_index_eq (Finset.range (2 ^ k))
    (v := fun x => nttRoot k ^ x) ?_ ?_ ?_ ?_⟩
  · intro x hx y hy hxy
    exact nttRoot_pow_inj hk (by simpa using hx) (by simpa using hy) hxy
  · rw [Finset.card_range, ← hfcl]
    exact degree_toPoly_lt fc
  · rw [Finset.card_range]
    exact (degree_toPoly_mul_lt ha).trans_le (by exact_mod_cast hle)
  · intro x hx
    have hx' : x < 2 ^ k := by simpa using hx
    rw [hfcx x hx', eval_mul, ← toPoly_padMod cast_cgNtt128Prime a (2 ^ k),
      ← toPoly_padMod cast_cgNtt128Prime b (2 ^ k), ← hfax x hx', ← hfbx x hx']
    simp [entry, pointwiseMulMod, hx', cast_emod cast_cgNtt128Prime]

theorem polyMulNttMod_spec {env : Env} {q : ℕ} (hq0 : 0 < q) {a b r : List Mpz}
    (h : polyMulNttMod env a b q = .ok r) :
    Canonical q r ∧ toPoly (ZMod q) r = toPoly (ZMod q) a * toPoly (ZMod q) b := by
  have hq0' : (0 : ℤ) < (q : ℕ) := by exact_mod_cast hq0
  unfold polyMulNttMod at h
  split at h
  · next hnil =>
    simp only [pure_eq_ok, Except.ok.injEq] at h
    subst h
    refine ⟨canonical_zero hq0', ?_⟩
    rcases hnil with rfl | rfl <;> simp [toPoly_cons]
  next hnil =>
  obtain ⟨ha, hb⟩ := not_or.mp hnil
  have hapos := List.length_pos_iff.mpr ha
  have hbpos := List.length_pos_iff.mpr hb
  obtain ⟨n, hn, h⟩ := bind_eq_ok.mp h
  obtain ⟨hle, k, rfl⟩ := nextPowerOfTwoSize_ok hn
  split at h
  · simp at h
  next hsup =>
  obtain ⟨_, hq, _⟩ := nttDomainSupported_iff.mp (by simpa using hsup)
  obtain rfl : q = cgNtt128Prime := by exact_mod_cast hq
  obtain ⟨fa, hfa, h⟩ := bind_eq_ok.mp h
  obtain ⟨fb, hfb, h⟩ := bind_eq_ok.mp h
  obtain ⟨fc, hfc, h⟩ := bind_eq_ok.mp h
  simp only [pure_eq_ok, Except.ok.injEq] at h
  subst h
  obtain ⟨hfcl, hprod⟩ := toPoly_nttProduct ha hb hle hfa hfb hfc
  have hred : Reduced cgNtt128Prime fc :=
    nttInplace_reduced hq0' (reduced_map_emod hq0' _ _) hfc
  refine ⟨canonical_polyTrim ?_ (fun c hc => hred c (List.mem_of_mem_take hc)), ?_⟩
  · refine List.ne_nil_of_length_pos ?_
    rw [List.length_take, hfcl]
    omega
  · rw [toPoly_polyTrim, toPoly_take_of_degree_lt, hprod]
    rw [hprod]
    exact degree_toPoly_mul_lt ha

theorem addShiftedMod_length (out z : List Mpz) (shift : ℕ) (q : Mpz) :
    (addShiftedMod out z shift q).length = out.length := by
  refine foldl_inv (P := fun s : List Mpz => s.length = out.length) (fun s i hs => ?_) rfl _
  split
  · exact hs
  · rw [List.length_set, hs]

theorem addShiftedMod_reduced {q : Mpz} (hq : 0 < q) {out : List Mpz} (hout : Reduced q out)
    (z : List Mpz) (shift : ℕ) : Reduced q (addShiftedMod out z shift q) := by
  refine foldl_inv (P := fun out : List Mpz => Reduced q out) (fun out i hs => ?_) hout _
  split
  · exact hs
  · exact hs.set (emod_range hq _) _

section

variable {R : Type*} [CommRing R] {q : Mpz}

theorem addShiftedMod_spec (hq : (q : R) = 0) (out z : List Mpz) (shift : ℕ) :
    ∀ x < out.length, entry R (addShiftedMod out z shift q) x =
      entry R out x + if shift ≤ x then entry R z (x - shift) else 0 := by
  have hinv := foldl_range_inv
    (fun m s => s.length = out.length ∧ ∀ x < out.length, entry R s x = entry R out x +
      if shift ≤ x ∧ x < shift + m then entry R z (x - shift) else 0)
    (fun s i => if s.length ≤ i + shift then s
      else s.set (i + shift) ((s.getD (i + shift) 0 + z.getD i 0) % q)) out z.length
    ⟨rfl, fun x _ => by rw [if_neg (by omega), add_zero]⟩ ?_
  · refine fun x hx => (hinv.2 x hx).trans ?_
    congr 1
    by_cases h1 : shift ≤ x
    · by_cases h2 : x < shift + z.length
      · rw [if_pos ⟨h1, h2⟩, if_pos h1]
      · rw [if_neg (fun h => h2 h.2), if_pos h1, entry_of_length_le (by omega)]
    · rw [if_neg (fun h => h1 h.1), if_neg h1]
  · rintro m s hm ⟨hlen, hs⟩
    split
    · next hge =>
      refine ⟨hlen, fun x hx => (hs x hx).trans ?_⟩
      have hiff : (shift ≤ x ∧ x < shift + m) ↔ (shift ≤ x ∧ x < shift + (m + 1)) := by omega
      simp only [hiff]
    · next hlt =>
      refine ⟨by rw [List.length_set, hlen], fun x hx => ?_⟩
      rw [entry_set (by omega)]
      by_cases hxm : x = m + shift
      · subst hxm
        have hprev := hs (m + shift) hx
        rw [if_neg (by omega), add_zero] at hprev
        rw [if_pos rfl, if_pos (by omega), cast_emod hq, Int.cast_add, Nat.add_sub_cancel, ← hprev]
        rfl
      · have hiff : (shift ≤ x ∧ x < shift + m) ↔ (shift ≤ x ∧ x < shift + (m + 1)) := by omega
        rw [if_neg hxm, hs x hx]
        simp only [hiff]

/-- The recombination loses no coefficient of a sum below the output size. -/
theorem toPoly_karatsubaCombine (hq : (q : R) = 0) {size half : ℕ} {z0 z1 z2 : List Mpz}
    (hdeg : (toPoly R z0 + X ^ half * toPoly R z1 + X ^ (2 * half) * toPoly R z2).degree <
      (size : WithBot ℕ)) :
    toPoly R (karatsubaCombine size half z0 z1 z2 q) =
      toPoly R z0 + X ^ half * toPoly R z1 + X ^ (2 * half) * toPoly R z2 := by
  dsimp only [karatsubaCombine]
  rw [toPoly_polyTrim]
  have h0 := addShiftedMod_spec hq (List.replicate size 0) z0 0
  have h1 := addShiftedMod_spec hq (addShiftedMod (List.replicate size 0) z0 0 q) z1 half
  have h2 := addShiftedMod_spec hq
    (addShiftedMod (addShiftedMod (List.replicate size 0) z0 0 q) z1 half q) z2 (2 * half)
  simp only [addShiftedMod_length, List.length_replicate] at h0 h1 h2
  ext x
  by_cases hx : x < size
  · have hz : entry R (List.replicate size 0) x = 0 := by simp [entry, hx]
    rw [coeff_toPoly_eq_entry, h2 x hx, h1 x hx, h0 x hx, hz, zero_add, if_pos (Nat.zero_le x),
      Nat.sub_zero, coeff_add, coeff_add, coeff_X_pow_mul', coeff_X_pow_mul',
      coeff_toPoly_eq_entry, coeff_toPoly_eq_entry, coeff_toPoly_eq_entry]
  · rw [coeff_toPoly_eq_entry, entry_of_length_le (by simpa [addShiftedMod_length] using hx)]
    exact (coeff_eq_zero_of_degree_lt (hdeg.trans_le (by exact_mod_cast not_lt.mp hx))).symm

end

theorem canonical_karatsubaCombine {q : Mpz} (hq : 0 < q) {size : ℕ} (hsize : 0 < size)
    (half : ℕ) (z0 z1 z2 : List Mpz) :
    Canonical q (karatsubaCombine size half z0 z1 z2 q) := by
  have hzero : Reduced q (List.replicate size 0) := by
    intro c hc
    rw [List.eq_of_mem_replicate hc]
    exact ⟨le_rfl, hq⟩
  refine canonical_polyTrim (List.ne_nil_of_length_pos ?_)
    (addShiftedMod_reduced hq (addShiftedMod_reduced hq (addShiftedMod_reduced hq hzero _ _) _ _)
      _ _)
  simpa only [addShiftedMod_length, List.length_replicate] using hsize

theorem karatsuba_identity {R : Type*} [CommRing R] (x a0 a1 b0 b1 : R) (h : ℕ) :
    a0 * b0 + x ^ h * ((a0 + a1) * (b0 + b1) - a0 * b0 - a1 * b1) + x ^ (2 * h) * (a1 * b1) =
      (a0 + x ^ h * a1) * (b0 + x ^ h * b1) := by
  ring

theorem polyMulMod_spec {env : Env} {q : ℕ} (hq0 : 0 < q) {a b r : List Mpz}
    (h : polyMulMod env a b q = .ok r) :
    Canonical q r ∧ toPoly (ZMod q) r = toPoly (ZMod q) a * toPoly (ZMod q) b := by
  have hq0' : (0 : ℤ) < (q : ℕ) := by exact_mod_cast hq0
  have hq : (((q : ℕ) : ℤ) : ZMod q) = 0 := by simp
  induction hn : max a.length b.length using Nat.strong_induction_on generalizing a b r with
  | _ n ih =>
    rw [polyMulMod] at h
    split at h
    · next hnil =>
      simp only [pure_eq_ok, Except.ok.injEq] at h
      subst h
      refine ⟨canonical_zero hq0', ?_⟩
      rcases hnil with rfl | rfl <;> simp [toPoly_cons]
    next hnil =>
    obtain ⟨ha, hb⟩ := not_or.mp hnil
    have hapos := List.length_pos_iff.mpr ha
    obtain ⟨nttN, _, h⟩ := bind_eq_ok.mp h
    obtain ⟨threshold, _, h⟩ := bind_eq_ok.mp h
    split at h
    · exact polyMulNttMod_spec hq0 h
    split at h
    · simp only [pure_eq_ok, Except.ok.injEq] at h
      subst h
      exact ⟨canonical_polyMulNaiveMod hq0' a b, toPoly_polyMulNaiveMod hq a b⟩
    next hcut =>
    obtain ⟨half, hhalf, hpos, hlt, hm0, hm1, hm2⟩ := karatsuba_halves hn hcut q
    obtain ⟨z0, hz0, h⟩ := bind_eq_ok.mp h
    obtain ⟨z2, hz2, h⟩ := bind_eq_ok.mp h
    obtain ⟨z1, hz1, h⟩ := bind_eq_ok.mp h
    simp only [pure_eq_ok, Except.ok.injEq] at h
    subst h
    rw [hn, ← hhalf] at hz0 hz1 hz2 ⊢
    have e0 := (ih _ (hm0.trans_lt hlt) hz0 rfl).2
    have e2 := (ih _ (hm1.trans_lt hlt) hz2 rfl).2
    have e1 := (ih _ (hm2.trans_lt hlt) hz1 rfl).2
    rw [toPoly_polyAddMod hq, toPoly_polyAddMod hq] at e1
    refine ⟨canonical_karatsubaCombine hq0' (by omega) _ _ _ _, ?_⟩
    have hsum : toPoly (ZMod q) z0 + X ^ half *
        toPoly (ZMod q) (polySubMod (polySubMod z1 z0 q) z2 q) +
        X ^ (2 * half) * toPoly (ZMod q) z2 = toPoly (ZMod q) a * toPoly (ZMod q) b := by
      rw [toPoly_polySubMod hq, toPoly_polySubMod hq, e0, e1, e2, karatsuba_identity,
        ← toPoly_polySlice_split a hpos ha, ← toPoly_polySlice_split b hpos hb]
    rw [toPoly_karatsubaCombine hq, hsum]
    rw [hsum]
    exact degree_toPoly_mul_lt ha

theorem polyMulNttMod_exists {env : Env} {q : Mpz} {a b : List Mpz} {k : ℕ} (hk : k ≤ 63)
    (hn : nextPowerOfTwoSize (a.length + b.length - 1) = .ok (2 ^ k))
    (hsup : nttDomainSupported env q (2 ^ k) = true) : ∃ r, polyMulNttMod env a b q = .ok r := by
  obtain ⟨henv, rfl, _⟩ := nttDomainSupported_iff.mp hsup
  obtain ⟨hle, _⟩ := nextPowerOfTwoSize_ok hn
  unfold polyMulNttMod
  split
  · exact ⟨_, rfl⟩
  next hnil =>
  have hapos := List.length_pos_iff.mpr (not_or.mp hnil).1
  have hbpos := List.length_pos_iff.mpr (not_or.mp hnil).2
  have hk64 : k ≤ 64 := by omega
  obtain ⟨fa, hfa⟩ := nttInplace_exists henv hk64
    (padMod_length (p := a) (n := 2 ^ k) (by omega) cgNtt128Prime) false
  obtain ⟨fb, hfb⟩ := nttInplace_exists henv hk64
    (padMod_length (p := b) (n := 2 ^ k) (by omega) cgNtt128Prime) false
  obtain ⟨fc, hfc⟩ := nttInplace_exists henv hk64
    (a := pointwiseMulMod fa fb (2 ^ k) cgNtt128Prime) (by simp [pointwiseMulMod]) true
  simp [hn, hsup, hfa, hfb, hfc]

theorem polyMulMod_exists {env : Env} {q : Mpz} {threshold : ℕ}
    (ht : nttPolyThreshold env = .ok threshold) {a b : List Mpz}
    (hlen : a.length + b.length ≤ 2 ^ 63) : ∃ r, polyMulMod env a b q = .ok r := by
  induction hn : max a.length b.length using Nat.strong_induction_on generalizing a b with
  | _ n ih =>
    rw [polyMulMod]
    split
    · exact ⟨_, rfl⟩
    obtain ⟨k, hk, hsize⟩ := nextPowerOfTwoSize_exists (n := a.length + b.length - 1) (by omega)
    rw [hsize, ht, ok_bind, ok_bind]
    split
    · next hsup => exact polyMulNttMod_exists hk hsize hsup.2
    split
    · exact ⟨_, rfl⟩
    next hcut =>
    dsimp only
    rw [hn]
    obtain ⟨half, hhalf, _, hlt, hm0, hm1, hm2⟩ := karatsuba_halves hn hcut q
    rw [← hhalf]
    have hsum : half + half ≤ 2 ^ 63 := by omega
    have hlow : ∀ {x y : List Mpz}, max x.length y.length ≤ half → x.length + y.length ≤ 2 ^ 63 :=
      fun hxy => by omega
    obtain ⟨z0, hz0⟩ := ih _ (hm0.trans_lt hlt) (hlow hm0) rfl
    obtain ⟨z2, hz2⟩ := ih _ (hm1.trans_lt hlt) (hlow hm1) rfl
    obtain ⟨z1, hz1⟩ := ih _ (hm2.trans_lt hlt) (hlow hm2) rfl
    rw [hz0, ok_bind, hz2, ok_bind, hz1, ok_bind]
    exact ⟨_, rfl⟩

end RfClassGroups
