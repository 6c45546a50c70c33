import Mathlib.Algebra.Polynomial.Eval.Degree
import Mathlib.Algebra.Polynomial.Div
import Mathlib.Data.List.GetD
import Mathlib.Data.ZMod.Basic
import Mathlib.Tactic.Ring

/-! Coefficient lists of integers, constant term first, read as polynomials
over a ring in which a fixed modulus vanishes. -/

open Polynomial

namespace CoeffList

/-- The polynomial of a coefficient list over `R`. -/
noncomputable def toPoly (R : Type*) [CommRing R] : List ℤ → R[X]
  | [] => 0
  | c :: p => C (c : R) + X * toPoly R p

section

variable {R : Type*} [CommRing R]

@[simp] theorem toPoly_nil : toPoly R [] = 0 := rfl

theorem toPoly_cons (c : ℤ) (p : List ℤ) : toPoly R (c :: p) = C (c : R) + X * toPoly R p := rfl

@[simp] theorem coeff_toPoly (p : List ℤ) (i : ℕ) :
    (toPoly R p).coeff i = ((p.getD i 0 : ℤ) : R) := by
  induction p generalizing i with
  | nil => simp
  | cons c p ih =>
    cases i with
    | zero => rw [toPoly_cons, coeff_add, coeff_C_zero, coeff_X_mul_zero]; simp
    | succ i => rw [toPoly_cons, coeff_add, coeff_C_succ, coeff_X_mul, ih]; simp

theorem toPoly_append (p r : List ℤ) :
    toPoly R (p ++ r) = toPoly R p + X ^ p.length * toPoly R r := by
  induction p with
  | nil => simp
  | cons c p ih =>
    rw [List.cons_append, toPoly_cons, ih, toPoly_cons, List.length_cons]
    ring

theorem toPoly_replicate_zero (n : ℕ) : toPoly R (List.replicate n 0) = 0 := by
  induction n with
  | zero => rfl
  | succ n ih => rw [List.replicate_succ, toPoly_cons, ih]; simp

theorem degree_toPoly_lt (p : List ℤ) : (toPoly R p).degree < p.length := by
  rw [degree_lt_iff_coeff_zero]
  intro i hi
  simp [List.getElem?_eq_none hi]

theorem eval_toPoly_cons (c : ℤ) (p : List ℤ) (x : R) :
    (toPoly R (c :: p)).eval x = c + x * (toPoly R p).eval x := by
  simp [toPoly_cons]

theorem eval_toPoly (p : List ℤ) (x : R) :
    (toPoly R p).eval x = ∑ j ∈ Finset.range p.length, ((p.getD j 0 : ℤ) : R) * x ^ j := by
  induction p with
  | nil => simp
  | cons c p ih =>
    rw [eval_toPoly_cons, ih, List.length_cons, Finset.sum_range_succ', Finset.mul_sum, add_comm]
    congr 1
    · refine Finset.sum_congr rfl fun j _ => ?_
      rw [List.getD_cons_succ, pow_succ]
      ring
    · simp

theorem toPoly_set {p : List ℤ} {k : ℕ} (hk : k < p.length) (v : ℤ) :
    toPoly R (p.set k v) = toPoly R p + C ((v - p.getD k 0 : ℤ) : R) * X ^ k := by
  induction p generalizing k with
  | nil => simp at hk
  | cons c p ih =>
    cases k with
    | zero => simp [toPoly_cons]; ring
    | succ k =>
      rw [List.set_cons_succ, toPoly_cons, ih (by simpa using hk), toPoly_cons,
        List.getD_cons_succ, pow_succ]
      ring

theorem toPoly_take_succ {p : List ℤ} {k : ℕ} (hk : k < p.length) :
    toPoly R (p.take (k + 1)) = toPoly R (p.take k) + C ((p.getD k 0 : ℤ) : R) * X ^ k := by
  rw [List.take_succ_eq_append_getElem hk, toPoly_append, List.length_take,
    Nat.min_eq_left hk.le, toPoly_cons, toPoly_nil, List.getD_eq_getElem _ _ hk]
  ring

theorem cast_emod {q : ℤ} (hq : (q : R) = 0) (a : ℤ) : ((a % q : ℤ) : R) = a := by
  have h := congrArg (Int.cast : ℤ → R) (Int.emod_add_mul_ediv a q)
  simpa [hq] using h

theorem toPoly_map_emod {q : ℤ} (hq : (q : R) = 0) (p : List ℤ) :
    toPoly R (p.map (· % q)) = toPoly R p := by
  induction p with
  | nil => rfl
  | cons c p ih => rw [List.map_cons, toPoly_cons, ih, toPoly_cons, cast_emod hq]

end

section

variable {R : Type*} [CommRing R]

def entry (R : Type*) [CommRing R] (a : List ℤ) (x : ℕ) : R := ((a.getD x 0 : ℤ) : R)

theorem getD_set (a : List ℤ) (i x : ℕ) (v : ℤ) :
    (a.set i v).getD x 0 = if x = i ∧ i < a.length then v else a.getD x 0 := by
  simp only [List.getD_eq_getElem?_getD, List.getElem?_set]
  by_cases hx : x = i
  · subst hx
    by_cases hl : x < a.length <;> simp [hl]
  · simp [hx, Ne.symm hx]

theorem entry_set {a : List ℤ} {i : ℕ} (hi : i < a.length) (v : ℤ) (x : ℕ) :
    entry R (a.set i v) x = if x = i then (v : R) else entry R a x := by
  rw [entry, getD_set]
  by_cases hx : x = i <;> simp [hx, hi, entry]

theorem entry_of_length_le {a : List ℤ} {x : ℕ} (h : a.length ≤ x) : entry R a x = 0 := by
  simp [entry, List.getElem?_eq_none h]

theorem coeff_toPoly_eq_entry (p : List ℤ) (i : ℕ) : (toPoly R p).coeff i = entry R p i :=
  coeff_toPoly p i

theorem eval_toPoly_of_length {p : List ℤ} {n : ℕ} (hp : p.length = n) (x : R) :
    (toPoly R p).eval x = ∑ t ∈ Finset.range n, entry R p t * x ^ t := by
  rw [eval_toPoly, hp]
  rfl

end

theorem emod_range {q : ℤ} (hq : 0 < q) (a : ℤ) : 0 ≤ a % q ∧ a % q < q :=
  ⟨Int.emod_nonneg a hq.ne', Int.emod_lt_of_pos a hq⟩

def Reduced (q : ℤ) (a : List ℤ) : Prop := ∀ c ∈ a, 0 ≤ c ∧ c < q

instance (q : ℤ) (p : List ℤ) : Decidable (Reduced q p) :=
  inferInstanceAs (Decidable (∀ c ∈ p, 0 ≤ c ∧ c < q))

theorem Reduced.set {q v : ℤ} {a : List ℤ} (ha : Reduced q a) (hv : 0 ≤ v ∧ v < q) (i : ℕ) :
    Reduced q (a.set i v) := by
  intro c hc
  rcases List.mem_or_eq_of_mem_set hc with h | rfl
  · exact ha c h
  · exact hv

theorem Reduced.getD {q : ℤ} (hq : 0 < q) {a : List ℤ} (ha : Reduced q a) (i : ℕ) :
    0 ≤ a.getD i 0 ∧ a.getD i 0 < q := by
  by_cases hi : i < a.length
  · rw [List.getD_eq_getElem _ _ hi]
    exact ha _ (List.getElem_mem hi)
  · rw [List.getD_eq_default _ _ (not_lt.mp hi)]
    exact ⟨le_rfl, hq⟩

theorem reduced_map_emod {q : ℤ} (hq : 0 < q) {α : Type*} (f : α → ℤ) (l : List α) :
    Reduced q (l.map fun x => f x % q) := by
  intro c hc
  obtain ⟨x, _, rfl⟩ := List.mem_map.mp hc
  exact emod_range hq _

/-- A canonical list: reduced entries, no trailing zero but in the zero
polynomial `[0]`. -/
structure Canonical (q : ℤ) (p : List ℤ) : Prop where
  ne_nil : p ≠ []
  range : Reduced q p
  trimmed : p.length = 1 ∨ p.getLast? ≠ some 0

theorem Canonical.getD_range {q : ℤ} {p : List ℤ} (h : Canonical q p) (hq : 0 < q) (i : ℕ) :
    0 ≤ p.getD i 0 ∧ p.getD i 0 < q := h.range.getD hq i

theorem eq_of_cast_eq {n : ℕ} {a b : ℤ} (ha : 0 ≤ a ∧ a < n) (hb : 0 ≤ b ∧ b < n)
    (h : (a : ZMod n) = b) : a = b := by
  have hh := (ZMod.intCast_eq_intCast_iff' a b n).mp h
  rwa [Int.emod_eq_of_lt ha.1 ha.2, Int.emod_eq_of_lt hb.1 hb.2] at hh

theorem Reduced.ext {n : ℕ} {a b : List ℤ} (ha : Reduced n a) (hb : Reduced n b) (hn : 0 < n)
    (hlen : a.length = b.length) (h : ∀ x < a.length, entry (ZMod n) a x = entry (ZMod n) b x) :
    a = b := by
  have hn' : (0 : ℤ) < n := by exact_mod_cast hn
  refine List.ext_getElem hlen fun x hxa hxb => ?_
  have hx := h x hxa
  have hra := ha.getD hn' x
  have hrb := hb.getD hn' x
  simp only [entry] at hx
  rw [List.getD_eq_getElem _ _ hxa] at hx hra
  rw [List.getD_eq_getElem _ _ hxb] at hx hrb
  exact eq_of_cast_eq hra hrb hx

theorem Canonical.length_le {n : ℕ} (hn : 0 < n) {p r : List ℤ} (hp : Canonical n p)
    (hr : Canonical n r) (h : toPoly (ZMod n) p = toPoly (ZMod n) r) : r.length ≤ p.length := by
  have hn' : (0 : ℤ) < n := by exact_mod_cast hn
  by_contra hlt
  have hpos : 0 < p.length := List.length_pos_iff.mpr hp.ne_nil
  have hlast : r.getLast? = some (r.getD (r.length - 1) 0) := by
    rw [List.getLast?_eq_getElem?, List.getD_eq_getElem _ _ (by omega), List.getElem?_eq_getElem]
  have hcoeff := congrArg (fun f => f.coeff (r.length - 1)) h
  simp only [coeff_toPoly] at hcoeff
  have hz := eq_of_cast_eq (hp.getD_range hn' _) (hr.getD_range hn' _) hcoeff
  rw [List.getD_eq_getElem?_getD, List.getElem?_eq_none (by omega)] at hz
  refine (hr.trimmed.resolve_left (by omega)) ?_
  rw [hlast, ← hz]
  rfl

theorem Canonical.ext {n : ℕ} (hn : 0 < n) {p r : List ℤ} (hp : Canonical n p)
    (hr : Canonical n r) (h : toPoly (ZMod n) p = toPoly (ZMod n) r) : p = r := by
  have hn' : (0 : ℤ) < n := by exact_mod_cast hn
  have hlen : p.length = r.length :=
    le_antisymm (hr.length_le hn hp h.symm) (hp.length_le hn hr h)
  refine List.ext_getElem hlen fun i hi hi' => ?_
  have hcoeff := congrArg (fun f => f.coeff i) h
  simp only [coeff_toPoly] at hcoeff
  have hh := eq_of_cast_eq (hp.getD_range hn' i) (hr.getD_range hn' i) hcoeff
  rwa [List.getD_eq_getElem _ _ hi, List.getD_eq_getElem _ _ hi'] at hh

theorem Canonical.length_eq {n : ℕ} (hn : 1 < n) {p : List ℤ} (hp : Canonical n p) :
    p.length = (toPoly (ZMod n) p).natDegree + 1 := by
  have hn' : (0 : ℤ) < n := by exact_mod_cast zero_lt_one.trans hn
  have hpos := List.length_pos_iff.mpr hp.ne_nil
  refine le_antisymm ?_ ?_
  · rcases hp.trimmed with h | h
    · omega
    · have hlast : (toPoly (ZMod n) p).coeff (p.length - 1) ≠ 0 := by
        rw [coeff_toPoly]
        intro h0
        have hz := eq_of_cast_eq (hp.getD_range hn' _) ⟨le_rfl, hn'⟩ (h0.trans Int.cast_zero.symm)
        refine h ?_
        rw [List.getD_eq_getElem _ _ (by omega)] at hz
        rw [List.getLast?_eq_getElem?, List.getElem?_eq_getElem (by omega), hz]
      have hle := le_natDegree_of_ne_zero hlast
      omega
  · by_cases h0 : toPoly (ZMod n) p = 0
    · rw [h0, natDegree_zero]
      exact hpos
    · exact (natDegree_lt_iff_degree_lt h0).mpr (degree_toPoly_lt p)

theorem Canonical.length_le_of_degree_lt {n : ℕ} (hn : 1 < n) {p : List ℤ} (hp : Canonical n p) {m : ℕ}
    (hm : 0 < m) (h : (toPoly (ZMod n) p).degree < m) : p.length ≤ m := by
  rw [hp.length_eq hn]
  by_cases h0 : toPoly (ZMod n) p = 0
  · rw [h0, natDegree_zero]
    exact hm
  · exact (natDegree_lt_iff_degree_lt h0).mpr h

theorem Canonical.getD_eq_zero {n : ℕ} (hn : 0 < n) {p : List ℤ} (hp : Canonical n p) {s m i : ℕ}
    (h : (X ^ s * toPoly (ZMod n) p).degree < (m : WithBot ℕ)) (hi : m ≤ i + s) : p.getD i 0 = 0 := by
  have hn' : (0 : ℤ) < n := by exact_mod_cast hn
  have hcoeff := coeff_eq_zero_of_degree_lt (h.trans_le (Nat.cast_le.mpr hi))
  rw [coeff_X_pow_mul, coeff_toPoly] at hcoeff
  exact eq_of_cast_eq (hp.getD_range hn' i) ⟨le_rfl, hn'⟩ (hcoeff.trans Int.cast_zero.symm)

end CoeffList
