import RfClassGroups.Mpz

/-! Coefficient vectors over `Z_q`, index 0 the constant term: trimming,
slices, sums and the quadratic product. -/

open Polynomial CoeffList

namespace RfClassGroups

def trimBack : List Mpz → List Mpz
  | x :: y :: p => if x = 0 then trimBack (y :: p) else x :: y :: p
  | p => p

def polyTrim (p : List Mpz) : List Mpz := (trimBack p.reverse).reverse

def polyModQInplace (p : List Mpz) (q : Mpz) : List Mpz := polyTrim (p.map (· % q))

def polySlice (p : List Mpz) (b e : ℕ) : List Mpz :=
  let b := min b p.length
  let e := min e p.length
  if e ≤ b then [0] else (p.take e).drop b

def polyAddMod (a b : List Mpz) (q : Mpz) : List Mpz :=
  polyTrim ((List.range (max a.length b.length)).map fun i => (a.getD i 0 + b.getD i 0) % q)

def polySubMod (a b : List Mpz) (q : Mpz) : List Mpz :=
  polyTrim ((List.range (max a.length b.length)).map fun i => (a.getD i 0 - b.getD i 0) % q)

def mulNaiveLoop (a b out : List Mpz) : List Mpz :=
  (List.range a.length).foldl (fun out i =>
    (List.range b.length).foldl (fun out j =>
      out.set (i + j) (out.getD (i + j) 0 + a.getD i 0 * b.getD j 0)) out) out

def polyMulNaiveMod (a b : List Mpz) (q : Mpz) : List Mpz :=
  if a = [] ∨ b = [] then [0]
  else polyModQInplace (mulNaiveLoop a b (List.replicate (a.length + b.length - 1) 0)) q

theorem trimBack_spec (l : List Mpz) :
    (∃ k, l = List.replicate k 0 ++ trimBack l) ∧
      ((trimBack l).length ≤ 1 ∨ (trimBack l).head? ≠ some 0) ∧ (l ≠ [] → trimBack l ≠ []) := by
  induction l with
  | nil => exact ⟨⟨0, rfl⟩, .inl (by simp [trimBack]), fun h => h⟩
  | cons x p ih =>
    cases p with
    | nil => exact ⟨⟨0, rfl⟩, .inl (by simp [trimBack]), fun h => h⟩
    | cons y p =>
      by_cases hx : x = 0
      · obtain ⟨⟨k, hk⟩, ht, hn⟩ := ih
        simp only [trimBack, if_pos hx]
        refine ⟨⟨k + 1, ?_⟩, ht, fun _ => hn (by simp)⟩
        rw [List.replicate_succ, List.cons_append, ← hk, hx]
      · simp only [trimBack, if_neg hx]
        exact ⟨⟨0, rfl⟩, .inr (by simpa using hx), fun h => h⟩

theorem polyTrim_append (p : List Mpz) : ∃ k, p = polyTrim p ++ List.replicate k 0 := by
  obtain ⟨k, hk⟩ := (trimBack_spec p.reverse).1
  refine ⟨k, ?_⟩
  have hh := congrArg List.reverse hk
  simpa [polyTrim] using hh

theorem polyTrim_ne_nil {p : List Mpz} (h : p ≠ []) : polyTrim p ≠ [] := by
  simpa [polyTrim] using (trimBack_spec p.reverse).2.2 (by simpa using h)

theorem polyTrim_trimmed (p : List Mpz) :
    (polyTrim p).length ≤ 1 ∨ (polyTrim p).getLast? ≠ some 0 := by
  simpa [polyTrim] using (trimBack_spec p.reverse).2.1

theorem polyTrim_length_le (p : List Mpz) : (polyTrim p).length ≤ p.length := by
  obtain ⟨k, hk⟩ := polyTrim_append p
  have hh := congrArg List.length hk
  simp only [List.length_append, List.length_replicate] at hh
  omega

theorem mem_of_mem_polyTrim {p : List Mpz} {c : Mpz} (h : c ∈ polyTrim p) : c ∈ p := by
  obtain ⟨k, hk⟩ := polyTrim_append p
  rw [hk]
  exact List.mem_append_left _ h

theorem canonical_polyTrim {q : Mpz} {p : List Mpz} (hne : p ≠ [])
    (hr : Reduced q p) : Canonical q (polyTrim p) where
  ne_nil := polyTrim_ne_nil hne
  range := fun c hc => hr c (mem_of_mem_polyTrim hc)
  trimmed := by
    have hpos := List.length_pos_iff.mpr (polyTrim_ne_nil hne)
    exact (polyTrim_trimmed p).imp (fun h => by omega) id

theorem canonical_polyModQInplace {q : Mpz} (hq : 0 < q) {p : List Mpz} (hne : p ≠ []) :
    Canonical q (polyModQInplace p q) := by
  refine canonical_polyTrim (by simpa using hne) fun c hc => ?_
  obtain ⟨a, _, rfl⟩ := List.mem_map.mp hc
  exact emod_range hq a

theorem canonical_zero {q : Mpz} (hq : 0 < q) : Canonical q [0] where
  ne_nil := by simp
  range := by simpa [Reduced] using hq
  trimmed := .inl rfl

theorem canonical_map_emod {q : Mpz} (hq : 0 < q) {n : ℕ} (hn : 0 < n) (f : ℕ → Mpz) :
    Canonical q (polyTrim ((List.range n).map fun i => f i % q)) := by
  refine canonical_polyTrim (by simp; omega) fun c hc => ?_
  obtain ⟨i, _, rfl⟩ := List.mem_map.mp hc
  exact emod_range hq _

theorem canonical_polyAddMod {q : Mpz} (hq : 0 < q) {a b : List Mpz} (h : a ≠ [] ∨ b ≠ []) :
    Canonical q (polyAddMod a b q) := by
  refine canonical_map_emod hq ?_ _
  rcases h with h | h <;> have := List.length_pos_iff.mpr h <;> omega

theorem canonical_polySubMod {q : Mpz} (hq : 0 < q) {a b : List Mpz} (h : a ≠ [] ∨ b ≠ []) :
    Canonical q (polySubMod a b q) := by
  refine canonical_map_emod hq ?_ _
  rcases h with h | h <;> have := List.length_pos_iff.mpr h <;> omega

theorem polyAddMod_length_le (a b : List Mpz) (q : Mpz) :
    (polyAddMod a b q).length ≤ max a.length b.length :=
  (polyTrim_length_le _).trans (by simp)

theorem polySlice_length_le (p : List Mpz) {b e : ℕ} :
    (polySlice p b e).length ≤ max 1 (e - b) := by
  dsimp only [polySlice]
  split
  · simp
  · simp only [List.length_drop, List.length_take]
    omega

section

variable {R : Type*} [CommRing R]

@[simp] theorem toPoly_polyTrim (p : List Mpz) : toPoly R (polyTrim p) = toPoly R p := by
  obtain ⟨k, hk⟩ := polyTrim_append p
  conv_rhs => rw [hk]
  rw [toPoly_append, toPoly_replicate_zero, mul_zero, add_zero]

variable {q : Mpz} (hq : (q : R) = 0)
include hq

theorem toPoly_polyModQInplace (p : List Mpz) : toPoly R (polyModQInplace p q) = toPoly R p := by
  rw [polyModQInplace, toPoly_polyTrim, toPoly_map_emod hq]

theorem toPoly_polyAddMod (a b : List Mpz) :
    toPoly R (polyAddMod a b q) = toPoly R a + toPoly R b := by
  rw [polyAddMod, toPoly_polyTrim]
  ext i
  rw [coeff_add, coeff_toPoly, coeff_toPoly, coeff_toPoly]
  by_cases hi : i < max a.length b.length
  · simp [hi, cast_emod hq]
  · have ha : a.length ≤ i := by omega
    have hb : b.length ≤ i := by omega
    simp [hi, List.getElem?_eq_none ha, List.getElem?_eq_none hb]

theorem toPoly_polySubMod (a b : List Mpz) :
    toPoly R (polySubMod a b q) = toPoly R a - toPoly R b := by
  rw [polySubMod, toPoly_polyTrim]
  ext i
  rw [coeff_sub, coeff_toPoly, coeff_toPoly, coeff_toPoly]
  by_cases hi : i < max a.length b.length
  · simp [hi, cast_emod hq]
  · have ha : a.length ≤ i := by omega
    have hb : b.length ≤ i := by omega
    simp [hi, List.getElem?_eq_none ha, List.getElem?_eq_none hb]

end

section

variable {R : Type*} [CommRing R]

theorem toPoly_polySlice_split (p : List Mpz) {half : ℕ} (hh : 0 < half) (hp : p ≠ []) :
    toPoly R p =
      toPoly R (polySlice p 0 half) + X ^ half * toPoly R (polySlice p half p.length) := by
  have hpos := List.length_pos_iff.mpr hp
  have h0 : polySlice p 0 half = p.take half := by
    have hm : ¬ min half p.length ≤ 0 := by omega
    simp only [polySlice, Nat.zero_min, if_neg hm, List.drop_zero]
    exact (List.take_eq_take_min ..).symm
  by_cases hl : p.length ≤ half
  · have h1 : polySlice p half p.length = [0] := by
      simp [polySlice, Nat.min_eq_right hl]
    simp [h0, h1, List.take_of_length_le hl, toPoly_cons]
  · have h1 : polySlice p half p.length = p.drop half := by
      have hm : ¬ p.length ≤ half := hl
      simp [polySlice, Nat.min_eq_left (not_le.mp hl).le, hm]
    conv_lhs => rw [← List.take_append_drop half p]
    rw [h0, h1, toPoly_append, List.length_take, Nat.min_eq_left (not_le.mp hl).le]

theorem mulNaiveLoop_inner (a b out : List Mpz) (i m : ℕ) (hm : m ≤ b.length)
    (hlen : i + b.length ≤ out.length) :
    ((List.range m).foldl (fun out j =>
        out.set (i + j) (out.getD (i + j) 0 + a.getD i 0 * b.getD j 0)) out).length = out.length ∧
    toPoly R ((List.range m).foldl (fun out j =>
        out.set (i + j) (out.getD (i + j) 0 + a.getD i 0 * b.getD j 0)) out) =
      toPoly R out + C ((a.getD i 0 : ℤ) : R) * X ^ i * toPoly R (b.take m) := by
  induction m with
  | zero => simp
  | succ m ih =>
    obtain ⟨hl, hp⟩ := ih (by omega)
    rw [List.range_succ, List.foldl_append, List.foldl_cons, List.foldl_nil]
    refine ⟨by rw [List.length_set, hl], ?_⟩
    rw [toPoly_set (by rw [hl]; omega), hp, toPoly_take_succ (by omega), add_sub_cancel_left,
      Int.cast_mul, C_mul, pow_add]
    ring

theorem mulNaiveLoop_spec (a b out : List Mpz)
    (hlen : a.length + b.length ≤ out.length + 1) :
    (mulNaiveLoop a b out).length = out.length ∧
      toPoly R (mulNaiveLoop a b out) = toPoly R out + toPoly R a * toPoly R b := by
  have key : ∀ n ≤ a.length,
      ((List.range n).foldl (fun out i => (List.range b.length).foldl (fun out j =>
        out.set (i + j) (out.getD (i + j) 0 + a.getD i 0 * b.getD j 0)) out) out).length =
          out.length ∧
      toPoly R ((List.range n).foldl (fun out i => (List.range b.length).foldl (fun out j =>
        out.set (i + j) (out.getD (i + j) 0 + a.getD i 0 * b.getD j 0)) out) out) =
          toPoly R out + toPoly R (a.take n) * toPoly R b := by
    intro n
    induction n with
    | zero => simp
    | succ n ih =>
      intro hn
      obtain ⟨hl, hp⟩ := ih (by omega)
      rw [List.range_succ, List.foldl_append, List.foldl_cons, List.foldl_nil]
      have hin := mulNaiveLoop_inner (R := R) a b _ n b.length le_rfl (by rw [hl]; omega)
      refine ⟨hin.1.trans hl, ?_⟩
      rw [hin.2, hp, toPoly_take_succ (by omega), List.take_length]
      ring
  have hh := key a.length le_rfl
  rw [List.take_length] at hh
  exact hh

theorem toPoly_polyMulNaiveMod {q : Mpz} (hq : (q : R) = 0) (a b : List Mpz) :
    toPoly R (polyMulNaiveMod a b q) = toPoly R a * toPoly R b := by
  unfold polyMulNaiveMod
  split
  · next h => rcases h with rfl | rfl <;> simp [toPoly_cons]
  · next h =>
    rw [toPoly_polyModQInplace hq, (mulNaiveLoop_spec a b _ (by simp; omega)).2,
      toPoly_replicate_zero, zero_add]

end

theorem canonical_polyMulNaiveMod {q : Mpz} (hq : 0 < q) (a b : List Mpz) :
    Canonical q (polyMulNaiveMod a b q) := by
  unfold polyMulNaiveMod
  split
  · exact canonical_zero hq
  · next h =>
    refine canonical_polyModQInplace hq (List.ne_nil_of_length_pos ?_)
    have ha := List.length_pos_iff.mpr (not_or.mp h).1
    have hb := List.length_pos_iff.mpr (not_or.mp h).2
    rw [(mulNaiveLoop_spec (R := ℤ) a b _ (by simp; omega)).1, List.length_replicate]
    omega

end RfClassGroups
