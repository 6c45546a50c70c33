import Mathlib.LinearAlgebra.Lagrange
import RfClassGroups.ProductTree

/-! The optional backend of the polynomial code: above a size limit products, evaluations and
interpolations are taken by an external library, which is a parameter here. -/

open Polynomial CoeffList ExceptList Loops

namespace RfClassGroups

/-- What the code calls of the library under one modulus. `conv` and `rep`
stand for the conversions with the decimal text that carries an integer over. -/
structure Ntl (ZZp ZZpX : Type) where
  conv : Mpz → ZZp
  rep : ZZp → Mpz
  zero : ZZpX
  setCoeff : ZZpX → ℕ → ZZp → ZZpX
  coeff : ZZpX → ℕ → ZZp
  deg : ZZpX → ℤ
  mul : ZZpX → ZZpX → ZZpX
  buildFromRoots : List ZZp → ZZpX
  eval : ZZpX → List ZZp → List ZZp
  interpolate : List ZZp → List ZZp → Except String ZZpX

/-- The documented behaviour of the library: `val` reads its polynomials as
polynomials over `ZMod q`, and a zero polynomial has degree `-1`. Interpolation is promised at
distinct points of a field only. -/
structure Ntl.Lawful {ZZp ZZpX : Type} (ntl : Ntl ZZp ZZpX) (q : ℕ) (val : ZZpX → (ZMod q)[X]) :
    Prop where
  conv : ∀ x, ((ntl.rep (ntl.conv x) : ℤ) : ZMod q) = ((x : ℤ) : ZMod q)
  rep : ∀ c, 0 ≤ ntl.rep c ∧ ntl.rep c < q
  zero : val ntl.zero = 0
  setCoeff : ∀ p i c, val (ntl.setCoeff p i c) =
    val p + C (((ntl.rep c : ℤ) : ZMod q) - (val p).coeff i) * X ^ i
  coeff : ∀ p i, ((ntl.rep (ntl.coeff p i) : ℤ) : ZMod q) = (val p).coeff i
  deg : ∀ p, (val p = 0 → ntl.deg p = -1) ∧ (val p ≠ 0 → ntl.deg p = (val p).natDegree)
  mul : ∀ p r, val (ntl.mul p r) = val p * val r
  buildFromRoots : ∀ cs, val (ntl.buildFromRoots cs) =
    (cs.map fun c => X - C ((ntl.rep c : ℤ) : ZMod q)).prod
  eval : ∀ p xs, (ntl.eval p xs).map (fun y => ((ntl.rep y : ℤ) : ZMod q)) =
    xs.map fun x => (val p).eval ((ntl.rep x : ℤ) : ZMod q)
  interpolate : q.Prime → ∀ xs ys, xs.length = ys.length →
    (xs.map fun x => ((ntl.rep x : ℤ) : ZMod q)).Nodup → ∃ p, ntl.interpolate xs ys = .ok p ∧
      (val p).degree < ys.length ∧ xs.map (fun x => (val p).eval ((ntl.rep x : ℤ) : ZMod q)) =
        ys.map fun y => ((ntl.rep y : ℤ) : ZMod q)

/-- Whatever library the build has, it obeys the laws under the modulus `q`. -/
def LawfulBackend {ZZp ZZpX : Type} (backend : Option (Mpz → Ntl ZZp ZZpX)) (q : ℕ) : Prop :=
  ∀ lib ∈ backend, ∃ val, (lib q).Lawful q val

/-- A build without the library. -/
def builtIn : Option (Mpz → Ntl Unit Unit) := none

theorem lawfulBackend_builtIn (q : ℕ) : LawfulBackend builtIn q := by
  rintro lib ⟨⟩

section

variable {ZZp ZZpX : Type}

def ntlVecFromMpzVec (ntl : Ntl ZZp ZZpX) (values : List Mpz) : List ZZp := values.map ntl.conv

def ntlPolyFromCoeffs (ntl : Ntl ZZp ZZpX) (coeffs : List Mpz) : ZZpX :=
  (List.range coeffs.length).foldl
    (fun p i => ntl.setCoeff p i (ntl.conv (coeffs.getD i 0))) ntl.zero

def mpzVecFromNtlPoly (ntl : Ntl ZZp ZZpX) (p : ZZpX) : List Mpz :=
  if ntl.deg p < 0 then [0]
  else polyTrim ((List.range (ntl.deg p + 1).toNat).map fun i => ntl.rep (ntl.coeff p i))

def ntlPolyThreshold (env : Env) : Except String ℕ :=
  match env.text "CG_NTL_POLY_THRESHOLD" with
  | some value => cgParseSize env (some value) "polynomial threshold" true 0
  | none => return 512

def ntlPolyEnabled (env : Env) : Bool := env.text "CG_USE_NTL_POLY_RUNTIME" != some "0"

/-- The library where the build has it and the size asks for it. A lookup at a
modulus is `ZZ_pPush`. -/
def ntlSelected (backend : Option (Mpz → Ntl ZZp ZZpX)) (env : Env) (size : ℕ) :
    Except String (Option (Mpz → Ntl ZZp ZZpX)) :=
  match backend with
  | none => return none
  | some lib =>
    if ntlPolyEnabled env then do
      let threshold ← ntlPolyThreshold env
      return if threshold ≤ size then some lib else none
    else return none

/-- The size limit of the library can be read wherever it is. -/
def Selects (backend : Option (Mpz → Ntl ZZp ZZpX)) (env : Env) : Prop :=
  ∀ size, ∃ sel, ntlSelected backend env size = .ok sel

def polyMulNtlMod (lib : Mpz → Ntl ZZp ZZpX) (a b : List Mpz) (q : Mpz) : List Mpz :=
  let ntl := lib q
  mpzVecFromNtlPoly ntl (ntl.mul (ntlPolyFromCoeffs ntl a) (ntlPolyFromCoeffs ntl b))

/-- `poly_mul_mod` of a build with (`some`) or without (`none`) the library. -/
def polyMulModWith (backend : Option (Mpz → Ntl ZZp ZZpX)) (env : Env) (a b : List Mpz)
    (q : Mpz) : Except String (List Mpz) :=
  if a = [] ∨ b = [] then return [0]
  else do
    let nttN ← nextPowerOfTwoSize (a.length + b.length - 1)
    let threshold ← nttPolyThreshold env
    if threshold ≤ max a.length b.length ∧ nttDomainSupported env q nttN then
      polyMulNttMod env a b q
    else
      match ← ntlSelected backend env (max a.length b.length) with
      | some lib => return polyMulNtlMod lib a b q
      | none =>
        if h : a.length < karatsubaCutoff ∨ b.length < karatsubaCutoff then
          return polyMulNaiveMod a b q
        else
          let n := max a.length b.length
          let half := (n + 1) / 2
          let a0 := polySlice a 0 half
          let a1 := polySlice a half a.length
          let b0 := polySlice b 0 half
          let b1 := polySlice b half b.length
          let z0 ← polyMulModWith backend env a0 b0 q
          let z2 ← polyMulModWith backend env a1 b1 q
          let z1 ← polyMulModWith backend env (polyAddMod a0 a1 q) (polyAddMod b0 b1 q) q
          return karatsubaCombine (a.length + b.length - 1) half z0
            (polySubMod (polySubMod z1 z0 q) z2 q) z2 q
termination_by max a.length b.length
decreasing_by
  all_goals
    have hn : karatsubaCutoff ≤ n := (not_lt.mp (not_or.mp h).1).trans (le_max_left _ _)
    have ha := karatsuba_lengths (p := a) hn (le_max_left _ _) rfl q
    have hb := karatsuba_lengths (p := b) hn (le_max_right _ _) rfl q
    have hlt : half < n := by
      have hcut : karatsubaCutoff = 32 := rfl
      dsimp only [half]
      omega
    refine lt_of_le_of_lt (max_le ?_ ?_) hlt
  exacts [ha.1, hb.1, ha.2.1, hb.2.1, ha.2.2, hb.2.2]

end

section

variable {ZZp ZZpX : Type} {ntl : Ntl ZZp ZZpX} {q : ℕ} {val : ZZpX → (ZMod q)[X]}

theorem val_ntlPolyFromCoeffs (hl : ntl.Lawful q val) (coeffs : List Mpz) :
    val (ntlPolyFromCoeffs ntl coeffs) = toPoly (ZMod q) coeffs := by
  have hinv := foldl_range_inv (fun m p => val p = toPoly (ZMod q) (coeffs.take m))
    (fun p i => ntl.setCoeff p i (ntl.conv (coeffs.getD i 0))) ntl.zero coeffs.length
    (by simpa using hl.zero) ?_
  · rwa [List.take_length] at hinv
  · intro m p hm hp
    have hz : (toPoly (ZMod q) (coeffs.take m)).coeff m = 0 := by
      rw [coeff_toPoly_eq_entry]
      refine entry_of_length_le ?_
      rw [List.length_take]
      exact min_le_left _ _
    rw [hl.setCoeff, hl.conv, hp, hz, sub_zero, toPoly_take_succ hm]

theorem mpzVecFromNtlPoly_spec (hq : 0 < q) (hl : ntl.Lawful q val) (p : ZZpX) :
    Canonical q (mpzVecFromNtlPoly ntl p) ∧
      toPoly (ZMod q) (mpzVecFromNtlPoly ntl p) = val p := by
  have hq0 : (0 : ℤ) < (q : ℕ) := by exact_mod_cast hq
  by_cases h0 : val p = 0
  · have hdeg := (hl.deg p).1 h0
    rw [mpzVecFromNtlPoly, if_pos (by omega)]
    exact ⟨canonical_zero hq0, by simp [toPoly_cons, h0]⟩
  · have hdeg := (hl.deg p).2 h0
    have hlen : (ntl.deg p + 1).toNat = (val p).natDegree + 1 := by omega
    rw [mpzVecFromNtlPoly, if_neg (by omega), hlen]
    refine ⟨canonical_polyTrim (by simp) ?_, ?_⟩
    · intro c hc
      obtain ⟨i, _, rfl⟩ := List.mem_map.mp hc
      exact hl.rep _
    · rw [toPoly_polyTrim]
      ext i
      rw [coeff_toPoly]
      by_cases hi : i < (val p).natDegree + 1
      · rw [List.getD_eq_getElem _ _ (by simpa using hi), List.getElem_map, List.getElem_range,
          hl.coeff]
      · rw [List.getD_eq_default _ _ (by simpa using hi), Int.cast_zero,
          coeff_eq_zero_of_natDegree_lt (by omega)]

theorem polyMulNtlMod_spec (hq : 0 < q) {lib : Mpz → Ntl ZZp ZZpX} (hl : (lib q).Lawful q val)
    (a b : List Mpz) : Canonical q (polyMulNtlMod lib a b q) ∧
      toPoly (ZMod q) (polyMulNtlMod lib a b q) = toPoly (ZMod q) a * toPoly (ZMod q) b := by
  have hspec := mpzVecFromNtlPoly_spec hq hl
    ((lib q).mul (ntlPolyFromCoeffs (lib q) a) (ntlPolyFromCoeffs (lib q) b))
  rwa [hl.mul, val_ntlPolyFromCoeffs hl, val_ntlPolyFromCoeffs hl] at hspec

end

section

variable {ZZp ZZpX : Type} {backend : Option (Mpz → Ntl ZZp ZZpX)} {env : Env}

theorem ntlSelected_none_of_le {m n : ℕ} (hmn : m ≤ n)
    (h : ntlSelected backend env n = .ok none) : ntlSelected backend env m = .ok none := by
  cases backend with
  | none => rfl
  | some lib =>
    simp only [ntlSelected] at h ⊢
    by_cases he : ntlPolyEnabled env
    · rw [if_pos he] at h ⊢
      obtain ⟨threshold, ht, h⟩ := bind_eq_ok.mp h
      have hlt : ¬ threshold ≤ n := by
        intro hle
        rw [if_pos hle] at h
        simp at h
      rw [ht, ok_bind, if_neg (fun hle => hlt (hle.trans hmn))]
      rfl
    · rw [if_neg he]
      rfl

theorem selects_builtIn (env : Env) : Selects builtIn env := fun _ => ⟨none, rfl⟩

/-- A limit that could be read once can be read for every size. -/
theorem selects_of_ok {sel : Option (Mpz → Ntl ZZp ZZpX)} {n : ℕ}
    (h : ntlSelected backend env n = .ok sel) : Selects backend env := by
  intro size
  cases backend with
  | none => exact ⟨_, rfl⟩
  | some lib =>
    simp only [ntlSelected] at h ⊢
    by_cases he : ntlPolyEnabled env
    · rw [if_pos he] at h ⊢
      obtain ⟨threshold, ht, _⟩ := bind_eq_ok.mp h
      rw [ht, ok_bind]
      exact ⟨_, rfl⟩
    · rw [if_neg he]
      exact ⟨_, rfl⟩

theorem ntlSelected_mem {lib : Mpz → Ntl ZZp ZZpX} {n : ℕ}
    (h : ntlSelected backend env n = .ok (some lib)) : backend = some lib := by
  cases backend with
  | none => simp [ntlSelected] at h
  | some lib' =>
    simp only [ntlSelected] at h
    by_cases he : ntlPolyEnabled env
    · rw [if_pos he] at h
      obtain ⟨threshold, _, h⟩ := bind_eq_ok.mp h
      by_cases hle : threshold ≤ n
      · simpa [hle] using h
      · simp [hle] at h
    · simp [he] at h

/-- Below the size limit of the library the two builds compute the same. -/
theorem polyMulModWith_eq {a b : List Mpz} {q : Mpz}
    (hsel : ntlSelected backend env (max a.length b.length) = .ok none) :
    polyMulModWith backend env a b q = polyMulMod env a b q := by
  induction hn : max a.length b.length using Nat.strong_induction_on generalizing a b with
  | _ n ih =>
    rw [polyMulModWith, polyMulMod]
    by_cases hnil : a = [] ∨ b = []
    · rw [if_pos hnil, if_pos hnil]
    rw [if_neg hnil, if_neg hnil]
    refine congrArg _ (funext fun nttN => congrArg _ (funext fun threshold => ?_))
    by_cases hntt : threshold ≤ max a.length b.length ∧ nttDomainSupported env q nttN
    · rw [if_pos hntt, if_pos hntt]
    rw [if_neg hntt, if_neg hntt, hsel, ok_bind]
    by_cases hcut : a.length < karatsubaCutoff ∨ b.length < karatsubaCutoff
    · rw [dif_pos hcut, dif_pos hcut]
    simp only [dif_neg hcut]
    rw [hn] at hsel ⊢
    obtain ⟨half, hhalf, _, hlt, hm0, hm1, hm2⟩ := karatsuba_halves hn hcut q
    rw [← hhalf]
    have hrec : ∀ {x y : List Mpz}, max x.length y.length ≤ half →
        polyMulModWith backend env x y q = polyMulMod env x y q := fun hxy =>
      ih _ (hxy.trans_lt hlt) (ntlSelected_none_of_le (hxy.trans hlt.le) hsel) rfl
    rw [hrec hm0, hrec hm1, hrec hm2]

theorem polyMulModWith_none (env : Env) (a b : List Mpz) (q : Mpz) :
    polyMulModWith (none : Option (Mpz → Ntl ZZp ZZpX)) env a b q = polyMulMod env a b q :=
  polyMulModWith_eq rfl

theorem mulsMod_polyMulModWith {q : ℕ} (hq : 0 < q) (hlib : LawfulBackend backend q) (env : Env) :
    MulsMod q (polyMulModWith backend env · · q) := by
  intro a b c h
  change polyMulModWith backend env a b q = .ok c at h
  by_cases hsel : ntlSelected backend env (max a.length b.length) = .ok none
  · rw [polyMulModWith_eq hsel] at h
    exact polyMulMod_spec hq h
  rw [polyMulModWith] at h
  split at h
  · next hnil =>
    rw [pure_eq_ok, Except.ok.injEq] at h
    subst h
    refine ⟨canonical_zero (by exact_mod_cast hq), ?_⟩
    rcases hnil with rfl | rfl <;> simp [toPoly_cons]
  obtain ⟨nttN, _, h⟩ := bind_eq_ok.mp h
  obtain ⟨threshold, _, h⟩ := bind_eq_ok.mp h
  split at h
  · exact polyMulNttMod_spec hq h
  obtain ⟨sel, hs, h⟩ := bind_eq_ok.mp h
  cases sel with
  | none => exact absurd hs hsel
  | some lib =>
    obtain ⟨val, hl⟩ := hlib lib (ntlSelected_mem hs)
    obtain rfl : polyMulNtlMod lib a b q = c := Except.ok.inj h
    exact polyMulNtlMod_spec hq hl a b

theorem polyMulModWith_exists {q : Mpz} {threshold : ℕ}
    (ht : nttPolyThreshold env = .ok threshold)
    (hsel : Selects backend env) {a b : List Mpz}
    (hlen : a.length + b.length ≤ 2 ^ 63) : ∃ r, polyMulModWith backend env a b q = .ok r := by
  obtain ⟨sel, hs⟩ := hsel (max a.length b.length)
  cases sel with
  | none =>
    rw [polyMulModWith_eq hs]
    exact polyMulMod_exists ht hlen
  | some lib =>
    rw [polyMulModWith]
    split
    · exact ⟨_, rfl⟩
    obtain ⟨k, hk, hsize⟩ := nextPowerOfTwoSize_exists (n := a.length + b.length - 1) (by omega)
    rw [hsize, ht, ok_bind, ok_bind]
    split
    · next hsup => exact polyMulNttMod_exists hk hsize hsup.2
    · rw [hs, ok_bind]
      exact ⟨_, rfl⟩

end

open Classical in
/-- Polynomials of Mathlib obey the laws of the library. -/
noncomputable def polynomialNtl (q : ℕ) : Ntl (ZMod q) (ZMod q)[X] where
  conv := fun x => ((x : ℤ) : ZMod q)
  rep := fun c => (c.val : ℤ)
  zero := 0
  setCoeff := fun p i c => p.update i c
  coeff := fun p i => p.coeff i
  deg := fun p => if p.degree = ⊥ then -1 else p.natDegree
  mul := fun p r => p * r
  buildFromRoots := fun cs => (cs.map fun c => X - C c).prod
  eval := fun p xs => xs.map p.eval
  interpolate := fun xs ys =>
    if h : ∃ p : (ZMod q)[X], p.degree < ys.length ∧ xs.map p.eval = ys then .ok h.choose
    else .error "ZZ_p: division by non-invertible element"

theorem exists_interpolant {F : Type*} [Field F] {xs ys : List F} (hlen : xs.length = ys.length)
    (hnodup : xs.Nodup) : ∃ p : F[X], p.degree < ys.length ∧ xs.map p.eval = ys := by
  have hinj : Set.InjOn (fun i => xs.getD i 0) (Finset.range xs.length) := by
    intro i hi j hj h
    rw [Finset.coe_range, Set.mem_Iio] at hi hj
    simp only [List.getD_eq_getElem _ _ hi, List.getD_eq_getElem _ _ hj] at h
    exact (List.Nodup.getElem_inj_iff hnodup).mp h
  have hdeg := Lagrange.degree_interpolate_lt (fun i => ys.getD i 0) hinj
  rw [Finset.card_range] at hdeg
  refine ⟨Lagrange.interpolate (Finset.range xs.length) (fun i => xs.getD i 0)
    (fun i => ys.getD i 0), by rwa [← hlen], ?_⟩
  refine List.ext_getElem (by rw [List.length_map, hlen]) fun i hi hi' => ?_
  have hix : i < xs.length := by rwa [List.length_map] at hi
  have hval := Lagrange.eval_interpolate_at_node (fun i => ys.getD i 0) hinj
    (Finset.mem_range.mpr hix)
  rw [List.getD_eq_getElem _ _ hix, List.getD_eq_getElem _ _ hi'] at hval
  rw [List.getElem_map, hval]

theorem lawful_polynomialNtl {q : ℕ} (hq : 0 < q) : (polynomialNtl q).Lawful q id := by
  have : NeZero q := ⟨hq.ne'⟩
  have hrep : ∀ c : ZMod q, (((polynomialNtl q).rep c : ℤ) : ZMod q) = c := fun c => by
    simp [polynomialNtl]
  constructor
  · exact fun x => hrep _
  · intro c
    exact ⟨Int.natCast_nonneg _, Int.ofNat_lt.mpr (ZMod.val_lt c)⟩
  · rfl
  · intro p i c
    rw [hrep]
    change p.update i c = p + C (c - p.coeff i) * X ^ i
    ext j
    rw [coeff_update, coeff_add, coeff_C_mul_X_pow]
    by_cases hj : j = i
    · rw [if_pos hj, hj, Function.update_self, add_sub_cancel]
    · rw [if_neg hj, Function.update_of_ne hj, add_zero]
  · exact fun p i => hrep _
  · intro p
    exact ⟨fun h => if_pos (degree_eq_bot.mpr h), fun h => if_neg (degree_eq_bot.not.mpr h)⟩
  · exact fun p r => rfl
  · intro cs
    simp only [hrep]
    rfl
  · intro p xs
    simp only [hrep, List.map_id']
    rfl
  · intro hprime xs ys hlen hnodup
    have : Fact q.Prime := ⟨hprime⟩
    simp only [hrep, List.map_id'] at hnodup ⊢
    have hex := exists_interpolant hlen hnodup
    exact ⟨hex.choose, dif_pos hex, hex.choose_spec⟩

end RfClassGroups
