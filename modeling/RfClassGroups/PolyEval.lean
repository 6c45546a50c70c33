import RfClassGroups.PublicPoints

/-! Batch evaluation: Horner's rule, the transform on the public points, the library, and
the remainder descent in a subproduct tree, with the dispatcher over them. -/

open Polynomial CoeffList ExceptList Loops

namespace RfClassGroups

/-- The counter `int i = (int)coeffs.size()-2` has 32 bits. -/
def polyEval (coeffs : List Mpz) (x q : Mpz) : Mpz :=
  if coeffs = [] then 0
  else (countdown (int32 (int32 coeffs.length - 2))).foldl
    (fun res i => (res * x + coeffs.getD i 0) % q) (coeffs.getLastD 0 % q)

def polyModMonicStep (divisor : List Mpz) (d : ℕ) (q : Mpz) (rem : List Mpz) (k : ℕ) : List Mpz :=
  let coeff := rem.getD k 0
  if coeff ≠ 0 then
    (List.range d).foldl (fun rem j =>
      rem.set (k - d + j) ((rem.getD (k - d + j) 0 - coeff * divisor.getD j 0) % q)) rem
  else rem

def polyModMonic (dividend divisor : List Mpz) (q : Mpz) : Except String (List Mpz) :=
  if divisor = [] then throw "poly_mod_monic: empty divisor"
  else if dividend = [] then return [0]
  else
    let rem := polyModQInplace dividend q
    if rem.length < divisor.length then return rem
    else
      let d := divisor.length - 1
      if d = 0 then return [0]
      else
        let out := (List.range (rem.length - d)).foldl
          (fun out i => polyModMonicStep divisor d q out (rem.length - 1 - i)) rem
        return polyTrim (out.take d)

def descendLevel (rems children : List (List Mpz)) (q : Mpz) : Except String (List (List Mpz)) :=
  (List.range children.length).mapM fun c =>
    polyModMonic (rems.getD (c / 2) []) (children.getD c []) q

def polyEvalBatchWithProductTree (coeffs : List Mpz) (tree : PolyProductTree) (nPoints : ℕ)
    (q : Mpz) : Except String (List Mpz) :=
  if nPoints = 0 then return []
  else if coeffs = [] then return List.replicate nPoints 0
  else if tree.levels = [] ∨ (tree.levels.getD 0 []).length ≠ nPoints then
    throw "poly_eval_batch_with_product_tree: bad tree"
  else do
    let root ← polyModMonic coeffs tree.root q
    let rems ← (List.range (tree.levels.length - 1)).foldlM (fun rems i =>
      descendLevel rems (tree.levels.getD (tree.levels.length - 2 - i) []) q) [root]
    return (List.range nPoints).map fun i =>
      if rems.getD i [] ≠ [] then (rems.getD i []).getD 0 0 % q else 0

def polyEvalBatchNtt (env : Env) (coeffs : List Mpz) (nPoints : ℕ) (q : Mpz) :
    Except String (List Mpz) :=
  if !nttDomainSupported env q nPoints then
    throw "poly_eval_batch_ntt: unsupported NTT domain"
  else if nPoints < coeffs.length then
    throw "poly_eval_batch_ntt: polynomial degree exceeds NTT domain"
  else nttInplace env (padMod coeffs nPoints q) q false

def polyEvalBatchHorner (coeffs points : List Mpz) (q : Mpz) : List Mpz :=
  if points = [] ∨ coeffs = [] then List.replicate points.length 0
  else points.map fun x => polyEval coeffs x q

def polyEvalAutoHornerMaxPoints (env : Env) : Except String ℕ :=
  match env.text "CG_POLY_HORNER_MAX_POINTS" with
  | some value => cgParseSize env (some value) "CG_POLY_HORNER_MAX_POINTS" true 0
  | none => return 65536

def polyEvalMethodEnv (env : Env) : String := (env.text "CG_POLY_EVAL_METHOD").getD "auto"

/-- The condition under which the automatic choice is the transform. -/
def nttConditions (env : Env) (coeffs points : List Mpz) (q : Mpz) : Except String Bool :=
  if nttDomainSupported env q points.length ∧ coeffs.length ≤ points.length then
    isPublicEvalPoints env points q
  else return false

section

variable {ZZp ZZpX : Type}

def polyEvalBatchNtl (lib : Mpz → Ntl ZZp ZZpX) (coeffs points : List Mpz) (q : Mpz) : List Mpz :=
  if points = [] ∨ coeffs = [] then List.replicate points.length 0
  else
    let ntl := lib q
    (ntl.eval (ntlPolyFromCoeffs ntl coeffs) (ntlVecFromMpzVec ntl points)).map ntl.rep

/-- `poly_eval_batch_product_tree` of a build with or without the library. -/
def polyEvalBatchProductTreeWith (backend : Option (Mpz → Ntl ZZp ZZpX)) (env : Env)
    (coeffs points : List Mpz) (q : Mpz) : Except String (List Mpz) :=
  if points = [] then return []
  else do
    if ← isPublicEvalPoints env points q then
      let tree ← publicProductTreeCachedWith backend env points.length q
      polyEvalBatchWithProductTree coeffs tree points.length q
    else
      let tree ← polyBuildProductTreeWith backend env points q
      polyEvalBatchWithProductTree coeffs tree points.length q

/-- What `poly_eval_batch_auto` does when the method names no strategy. -/
def polyEvalBatchBySize (backend : Option (Mpz → Ntl ZZp ZZpX)) (env : Env)
    (coeffs points : List Mpz) (q : Mpz) : Except String (List Mpz) := do
  if ← nttConditions env coeffs points q then polyEvalBatchNtt env coeffs points.length q
  else
    let hornerMax ← polyEvalAutoHornerMaxPoints env
    if points.length ≤ hornerMax then return polyEvalBatchHorner coeffs points q
    else
      match ← ntlSelected backend env (max coeffs.length points.length) with
      | some lib => return polyEvalBatchNtl lib coeffs points q
      | none => polyEvalBatchProductTreeWith backend env coeffs points q

/-- `poly_eval_batch_auto` of a build with or without the library; only the former knows the
method `ntl`. -/
def polyEvalBatchAutoWith (backend : Option (Mpz → Ntl ZZp ZZpX)) (env : Env)
    (coeffs points : List Mpz) (q : Mpz) : Except String (List Mpz) :=
  let method := polyEvalMethodEnv env
  if method = "ntt" then do
    if !(← isPublicEvalPoints env points q) then
      throw "CG_POLY_EVAL_METHOD=ntt requires public NTT points"
    else polyEvalBatchNtt env coeffs points.length q
  else if method = "horner" then return polyEvalBatchHorner coeffs points q
  else
    match if method = "ntl" then backend else none with
    | some lib => return polyEvalBatchNtl lib coeffs points q
    | none =>
      if method = "multipoint" ∨ method = "product_tree" then
        polyEvalBatchProductTreeWith backend env coeffs points q
      else polyEvalBatchBySize backend env coeffs points q

end

def polyEvalBatchProductTree (env : Env) (coeffs points : List Mpz) (q : Mpz) :
    Except String (List Mpz) :=
  polyEvalBatchProductTreeWith builtIn env coeffs points q

def polyEvalBatchAuto (env : Env) (coeffs points : List Mpz) (q : Mpz) :
    Except String (List Mpz) :=
  polyEvalBatchAutoWith builtIn env coeffs points q

def polyValue (coeffs : List Mpz) (q x : Mpz) : Mpz :=
  (∑ j ∈ Finset.range coeffs.length, coeffs.getD j 0 * x ^ j) % q

theorem polyValue_range {q : Mpz} (hq : 0 < q) (coeffs : List Mpz) (x : Mpz) :
    0 ≤ polyValue coeffs q x ∧ polyValue coeffs q x < q := emod_range hq _

theorem cast_polyValue {R : Type*} [CommRing R] {q : Mpz} (hq : (q : R) = 0) (coeffs : List Mpz)
    (x : Mpz) : ((polyValue coeffs q x : ℤ) : R) = (toPoly R coeffs).eval (x : R) := by
  rw [polyValue, cast_emod hq, eval_toPoly, Int.cast_sum]
  refine Finset.sum_congr rfl fun j _ => ?_
  rw [Int.cast_mul, Int.cast_pow]

theorem eq_polyValue {q : ℕ} {coeffs : List Mpz} {x r : Mpz} (hr : 0 ≤ r ∧ r < q)
    (h : (r : ZMod q) = (toPoly (ZMod q) coeffs).eval (x : ZMod q)) : r = polyValue coeffs q x :=
  eq_of_cast_eq hr (polyValue_range (hr.1.trans_lt hr.2) _ _)
    (h.trans (cast_polyValue (by simp) coeffs x).symm)

theorem polyEval_start {n : ℕ} (hn : n + 1 < 2 ^ 31) :
    int32 (int32 ((n + 1 : ℕ) : ℤ) - 2) = (n : ℤ) - 1 := by
  rw [int32_of_lt (n := ((n + 1 : ℕ) : ℤ)) (by omega) (by omega), int32_of_lt (by omega) (by omega)]
  omega

theorem polyEval_eq {q : ℕ} (hq : 0 < q) {coeffs : List Mpz} (hlen : coeffs.length < 2 ^ 31)
    (x : Mpz) : polyEval coeffs x q = polyValue coeffs q x := by
  have hq0 : (0 : ℤ) < (q : ℕ) := by exact_mod_cast hq
  have hqz : (((q : ℕ) : ℤ) : ZMod q) = 0 := by simp
  unfold polyEval
  split
  · next hnil => simp [hnil, polyValue]
  · next hne =>
    obtain ⟨cs, c, rfl⟩ := (List.eq_nil_or_concat' coeffs).resolve_left hne
    rw [List.length_append, List.length_singleton] at hlen
    rw [List.length_append, List.length_singleton, polyEval_start hlen]
    have hinv := foldl_countdown_inv
      (fun i (res : ℤ) => (0 ≤ res ∧ res < q) ∧
        (res : ZMod q) = (toPoly (ZMod q) ((cs ++ [c]).drop i)).eval (x : ZMod q))
      (fun res i => (res * x + (cs ++ [c]).getD i 0) % (q : ℤ)) ((cs ++ [c]).getLastD 0 % q)
      cs.length ⟨emod_range hq0 _, by simp [toPoly_cons, cast_emod hqz]⟩ ?_
    · exact eq_polyValue hinv.1 hinv.2
    · rintro i res hi ⟨-, hres⟩
      refine ⟨emod_range hq0 _, ?_⟩
      have hlt : i < (cs ++ [c]).length := by simp; omega
      rw [cast_emod hqz, Int.cast_add, Int.cast_mul, hres, List.drop_eq_getElem_cons hlt,
        toPoly_cons, eval_add, eval_C, eval_mul, eval_X, List.getD_eq_getElem _ _ hlt]
      ring

/-- From `2 ^ 31 + 2` coefficients on the counter starts below zero, and the loop is skipped. -/
theorem polyEval_skips {coeffs : List Mpz} (hlow : 2 ^ 31 + 2 ≤ coeffs.length)
    (hhigh : coeffs.length < 2 ^ 32 + 2) (x q : Mpz) :
    polyEval coeffs x q = coeffs.getLastD 0 % q := by
  have hne : coeffs ≠ [] := List.ne_nil_of_length_pos (by omega)
  rw [polyEval, if_neg hne, int32_of_ge (n := (coeffs.length : ℤ)) (by omega) (by omega),
    int32_of_lt (by omega) (by omega), countdown_of_neg (by omega), List.foldl_nil]

theorem polyEvalBatchHorner_eq {q : ℕ} (hq : 0 < q) {coeffs : List Mpz}
    (hlen : coeffs.length < 2 ^ 31) (points : List Mpz) :
    polyEvalBatchHorner coeffs points q = points.map (polyValue coeffs q) := by
  unfold polyEvalBatchHorner
  split
  · next h =>
    rcases h with rfl | rfl
    · rfl
    · exact (List.map_eq_replicate_iff.mpr fun x _ => by simp [polyValue]).symm
  · exact List.map_congr_left fun x _ => polyEval_eq hq hlen x

theorem polyEvalBatchNtl_eq {ZZp ZZpX : Type} {lib : Mpz → Ntl ZZp ZZpX} {q : ℕ}
    {val : ZZpX → (ZMod q)[X]} (hl : (lib q).Lawful q val) (coeffs points : List Mpz) :
    polyEvalBatchNtl lib coeffs points q = points.map (polyValue coeffs q) := by
  unfold polyEvalBatchNtl
  split
  · next h =>
    rcases h with rfl | rfl
    · rfl
    · exact (List.map_eq_replicate_iff.mpr fun x _ => by simp [polyValue]).symm
  · dsimp only
    have heval := hl.eval (ntlPolyFromCoeffs (lib q) coeffs) (ntlVecFromMpzVec (lib q) points)
    rw [val_ntlPolyFromCoeffs hl, ntlVecFromMpzVec, List.map_map] at heval
    have hlen := congrArg List.length heval
    rw [List.length_map, List.length_map] at hlen
    refine List.ext_getElem (by simpa [ntlVecFromMpzVec] using hlen) fun i hi hi' => ?_
    rw [List.length_map] at hi
    have hentry := List.getElem_of_eq heval (i := i) (by rwa [List.length_map])
    simp only [List.getElem_map, Function.comp_apply, hl.conv] at hentry
    rw [List.getElem_map, List.getElem_map]
    exact eq_polyValue (hl.rep _) hentry

section

variable {R : Type*} [CommRing R] {q : Mpz}

theorem polyModMonicStep_spec (hq : (q : R) = 0) {divisor a : List Mpz} {d k : ℕ}
    (hlen : divisor.length = d + 1) (hlead : entry R divisor d = 1) (hd : d ≤ k)
    (hk : k < a.length) :
    (polyModMonicStep divisor d q a k).length = a.length ∧
      toPoly R (a.take (k + 1)) = toPoly R ((polyModMonicStep divisor d q a k).take k) +
        C (entry R a k) * X ^ (k - d) * toPoly R divisor := by
  have hdiv : toPoly R divisor = toPoly R (divisor.take d) + X ^ d := by
    have hh := toPoly_take_succ (R := R) (p := divisor) (k := d) (by omega)
    rw [← hlen, List.take_length] at hh
    rw [hh]
    rw [entry] at hlead
    rw [hlead, C_1, one_mul]
  have hpow : (X : R[X]) ^ k = X ^ (k - d) * X ^ d := by rw [← pow_add, Nat.sub_add_cancel hd]
  have htake : toPoly R (a.take (k + 1)) = toPoly R (a.take k) + C (entry R a k) * X ^ k :=
    toPoly_take_succ hk
  dsimp only [polyModMonicStep]
  split
  · have hinv := foldl_range_inv
      (fun j s => s.length = a.length ∧ toPoly R (s.take k) = toPoly R (a.take k) -
        C (entry R a k) * X ^ (k - d) * toPoly R (divisor.take j))
      (fun s j => s.set (k - d + j)
        ((s.getD (k - d + j) 0 - a.getD k 0 * divisor.getD j 0) % q)) a d
      ⟨rfl, by simp⟩ ?_
    · refine ⟨hinv.1, ?_⟩
      rw [hinv.2, htake, hdiv, hpow]
      ring
    · rintro j s hj ⟨hl, hs⟩
      refine ⟨by rw [List.length_set, hl], ?_⟩
      have hget : (s.take k).getD (k - d + j) 0 = s.getD (k - d + j) 0 := by
        simp only [List.getD_eq_getElem?_getD, List.getElem?_take]
        rw [if_pos (by omega)]
      rw [List.take_set, toPoly_set (by rw [List.length_take]; omega), hs,
        toPoly_take_succ (p := divisor) (by omega), hget, Int.cast_sub, cast_emod hq,
        Int.cast_sub, Int.cast_mul, sub_sub_cancel_left, C_neg, C_mul, pow_add]
      simp only [entry]
      ring
  · next h0 =>
    refine ⟨rfl, ?_⟩
    have hz : entry R a k = 0 := by rw [entry, not_not.mp h0, Int.cast_zero]
    rw [htake, hz, C_0, zero_mul, zero_mul, zero_mul]

theorem polyModMonicStep_reduced (hq : 0 < q) (divisor : List Mpz) (d : ℕ) {rem : List Mpz}
    (hr : Reduced q rem) (k : ℕ) : Reduced q (polyModMonicStep divisor d q rem k) := by
  dsimp only [polyModMonicStep]
  split
  · exact foldl_inv (P := fun s : List Mpz => Reduced q s)
      (fun s j hs => hs.set (emod_range hq _) _) hr _
  · exact hr

end

structure MonicList (R : Type*) [CommRing R] (divisor : List Mpz) : Prop where
  ne_nil : divisor ≠ []
  leading : entry R divisor (divisor.length - 1) = 1

/-- After `m` passes the last `m` entries are stale: the partial remainder is
what precedes them. -/
theorem polyModMonic_loop {q : ℕ} (hq : 0 < q) {divisor rem : List Mpz} {d : ℕ}
    (hlen : divisor.length = d + 1) (hlead : entry (ZMod q) divisor d = 1)
    (hrem : Reduced q rem) (hd : d ≤ rem.length) {out : List Mpz}
    (hout : out = (List.range (rem.length - d)).foldl
      (fun out i => polyModMonicStep divisor d q out (rem.length - 1 - i)) rem) :
    out.length = rem.length ∧ Reduced q out ∧ ∃ Q, toPoly (ZMod q) rem =
      toPoly (ZMod q) (out.take d) + Q * toPoly (ZMod q) divisor := by
  have hq0 : (0 : ℤ) < (q : ℕ) := by exact_mod_cast hq
  have hqz : (((q : ℕ) : ℤ) : ZMod q) = 0 := by simp
  have hinv := foldl_range_inv
    (fun m s => s.length = rem.length ∧ Reduced q s ∧ ∃ Q, toPoly (ZMod q) rem =
      toPoly (ZMod q) (s.take (rem.length - m)) + Q * toPoly (ZMod q) divisor)
    (fun out i => polyModMonicStep divisor d q out (rem.length - 1 - i)) rem (rem.length - d)
    ⟨rfl, hrem, 0, by rw [Nat.sub_zero, List.take_length, zero_mul, add_zero]⟩ ?_
  · rw [Nat.sub_sub_self hd, ← hout] at hinv
    exact hinv
  · rintro m s hm ⟨hl, hred, Q, hQ⟩
    have hk : rem.length - m = rem.length - 1 - m + 1 := by omega
    have hk' : rem.length - (m + 1) = rem.length - 1 - m := by omega
    obtain ⟨hl', hstep⟩ := polyModMonicStep_spec hqz hlen hlead
      (k := rem.length - 1 - m) (a := s) (by omega) (by omega)
    refine ⟨hl'.trans hl, polyModMonicStep_reduced hq0 _ _ hred _,
      C (entry (ZMod q) s (rem.length - 1 - m)) * X ^ (rem.length - 1 - m - d) + Q, ?_⟩
    rw [hk, hstep] at hQ
    rw [hk', hQ]
    ring

theorem polyModMonic_spec {q : ℕ} (hq : 0 < q) {dividend divisor r : List Mpz}
    (hdiv : MonicList (ZMod q) divisor) (h : polyModMonic dividend divisor q = .ok r) :
    Canonical q r ∧ r.length ≤ max 1 (divisor.length - 1) ∧
      ∃ Q, toPoly (ZMod q) dividend = toPoly (ZMod q) r + Q * toPoly (ZMod q) divisor := by
  have hq0 : (0 : ℤ) < (q : ℕ) := by exact_mod_cast hq
  have hqz : (((q : ℕ) : ℤ) : ZMod q) = 0 := by simp
  have hpos := List.length_pos_iff.mpr hdiv.ne_nil
  rw [polyModMonic, if_neg hdiv.ne_nil] at h
  split at h
  · next hnil =>
    simp only [pure_eq_ok, Except.ok.injEq] at h
    subst h
    exact ⟨canonical_zero hq0, by simp, 0, by simp [hnil, toPoly_cons]⟩
  next hnil =>
  have hcan := canonical_polyModQInplace hq0 hnil
  have hpoly := toPoly_polyModQInplace hqz dividend
  dsimp only at h
  generalize polyModQInplace dividend q = rem at h hcan hpoly
  split at h
  · simp only [pure_eq_ok, Except.ok.injEq] at h
    subst h
    exact ⟨hcan, by omega, 0, by rw [hpoly, zero_mul, add_zero]⟩
  next hge =>
  split at h
  · next hd =>
    simp only [pure_eq_ok, Except.ok.injEq] at h
    subst h
    refine ⟨canonical_zero hq0, by simp, toPoly (ZMod q) dividend, ?_⟩
    obtain ⟨c, rfl⟩ : ∃ c, divisor = [c] := List.length_eq_one_iff.mp (by omega)
    have hlead : ((c : ℤ) : ZMod q) = 1 := by simpa [entry] using hdiv.leading
    simp [toPoly_cons, hlead]
  next hd =>
  simp only [pure_eq_ok, Except.ok.injEq] at h
  subst h
  obtain ⟨d, hlen⟩ : ∃ d, divisor.length = d + 1 := ⟨divisor.length - 1, by omega⟩
  have hlead := hdiv.leading
  rw [hlen, Nat.add_sub_cancel] at hlead hd ⊢
  obtain ⟨hl, hred, Q, hQ⟩ := polyModMonic_loop hq hlen hlead hcan.range (by omega) rfl
  refine ⟨canonical_polyTrim ?_ (fun c hc => hred c (List.mem_of_mem_take hc)), ?_, Q, ?_⟩
  · refine List.ne_nil_of_length_pos ?_
    rw [List.length_take]
    refine lt_min (Nat.pos_of_ne_zero hd) (hl.symm ▸ ?_)
    omega
  · refine (polyTrim_length_le _).trans ?_
    rw [List.length_take]
    exact (min_le_left _ _).trans (le_max_right _ _)
  · rw [toPoly_polyTrim, ← hpoly, hQ]

theorem polyModMonic_exists {divisor : List Mpz} (hdiv : divisor ≠ []) (dividend : List Mpz)
    (q : Mpz) : ∃ r, polyModMonic dividend divisor q = .ok r := by
  rw [polyModMonic, if_neg hdiv]
  dsimp only
  repeat' split
  all_goals exact ⟨_, rfl⟩

theorem toPoly_append_one (R : Type*) [CommRing R] (ds : List Mpz) :
    toPoly R (ds ++ [1]) = X ^ ds.length + toPoly R ds := by
  rw [toPoly_append, toPoly_cons, toPoly_nil, mul_zero, add_zero, Int.cast_one, C_1, mul_one,
    add_comm]

theorem monicList_append_one (R : Type*) [CommRing R] (ds : List Mpz) :
    MonicList R (ds ++ [1]) where
  ne_nil := by simp
  leading := by simp [entry]

theorem polyModMonic_const {q : Mpz} (hq : 0 < q) (dividend : List Mpz) (c : Mpz) :
    polyModMonic dividend [c] q = .ok [0] := by
  rw [polyModMonic, if_neg (List.cons_ne_nil c [])]
  by_cases hnil : dividend = []
  · rw [if_pos hnil]
    rfl
  · rw [if_neg hnil]
    have hpos := List.length_pos_iff.mpr (canonical_polyModQInplace hq hnil).ne_nil
    dsimp only
    rw [if_neg (by rw [List.length_singleton]; omega), if_pos (by simp)]
    rfl

/-- A remainder has a smaller degree than the divisor, a constant one included. -/
theorem polyModMonic_degree_lt {q : ℕ} (hq : 1 < q) {dividend ds r : List Mpz}
    (h : polyModMonic dividend (ds ++ [1]) q = .ok r) :
    (toPoly (ZMod q) r).degree < ds.length := by
  by_cases hds : ds = []
  · subst hds
    rw [List.nil_append, polyModMonic_const (by exact_mod_cast zero_lt_one.trans hq),
      Except.ok.injEq] at h
    subst h
    simp [toPoly_cons]
  · have hpos := List.length_pos_iff.mpr hds
    obtain ⟨_, hlen, _⟩ := polyModMonic_spec (by omega) (monicList_append_one _ ds) h
    rw [List.length_append, List.length_singleton, Nat.add_sub_cancel] at hlen
    exact (degree_toPoly_lt r).trans_le (by exact_mod_cast (by omega : r.length ≤ ds.length))

/-- The long division of the code is the remainder of the polynomial ring. -/
theorem polyModMonic_remainder {q : ℕ} (hq : 2 ≤ q) (dividend : List Mpz) {divisor : List Mpz}
    (hdiv : divisor.getLast? = some 1) :
    ∃ r, polyModMonic dividend divisor q = .ok r ∧ Canonical q r ∧
      (toPoly (ZMod q) r).degree < (toPoly (ZMod q) divisor).degree ∧
      toPoly (ZMod q) divisor ∣ toPoly (ZMod q) dividend - toPoly (ZMod q) r ∧
      toPoly (ZMod q) r = toPoly (ZMod q) dividend %ₘ toPoly (ZMod q) divisor := by
  have hq1 : 1 < q := hq
  have : Fact (1 < q) := ⟨hq1⟩
  obtain ⟨ds, rfl⟩ := List.getLast?_eq_some_iff.mp hdiv
  obtain ⟨r, hr⟩ := polyModMonic_exists (by simp : ds ++ [1] ≠ []) dividend q
  obtain ⟨hcan, _, Q, hQ⟩ := polyModMonic_spec (by omega) (monicList_append_one _ ds) hr
  have hlow : (toPoly (ZMod q) ds).degree < ds.length := degree_toPoly_lt ds
  have hmonic : (toPoly (ZMod q) (ds ++ [1])).Monic := by
    rw [toPoly_append_one]
    exact monic_X_pow_add hlow
  have hdeg : (toPoly (ZMod q) r).degree < (toPoly (ZMod q) (ds ++ [1])).degree := by
    rw [toPoly_append_one, degree_add_eq_left_of_degree_lt (by rwa [degree_X_pow]), degree_X_pow]
    exact polyModMonic_degree_lt hq1 hr
  refine ⟨r, hr, hcan, hdeg, ⟨Q, ?_⟩, ?_⟩
  · rw [hQ, add_sub_cancel_left, mul_comm]
  · refine (div_modByMonic_unique Q _ hmonic ⟨?_, hdeg⟩).2.symm
    rw [hQ, mul_comm]

theorem polyModMonic_remainder_cubic :
    polyModMonic [10, -3, 5, 20] [3, 1, 1] ((7 : ℕ) : ℤ) = .ok [6, 1] ∧
      toPoly (ZMod 7) [6, 1] = toPoly (ZMod 7) [10, -3, 5, 20] %ₘ toPoly (ZMod 7) [3, 1, 1] := by
  have hlead : [3, 1, (1 : ℤ)].getLast? = some 1 := rfl
  obtain ⟨r, hr, -, -, -, hmod⟩ :=
    polyModMonic_remainder (q := 7) (by decide) [10, -3, 5, 20] hlead
  have hrun : polyModMonic [10, -3, 5, 20] [3, 1, 1] ((7 : ℕ) : ℤ) = .ok [6, 1] := by decide
  obtain rfl : r = [6, 1] := Except.ok.inj (hr.symm.trans hrun)
  exact ⟨hrun, hmod⟩

theorem TreeLevel.monicList {q : ℕ} (hq : 1 < q) {xs : List Mpz} {k : ℕ}
    {level : List (List Mpz)} (hl : TreeLevel q xs k level) {i : ℕ} (hi : i < level.length) :
    MonicList (ZMod q) (level.getD i []) where
  ne_nil := (hl.canonical i hi).ne_nil
  leading := by
    have : Fact (1 < q) := ⟨hq⟩
    have hmonic := monic_prod_of_monic (Chunk.leaves xs.length k i) (linearFactor q xs)
      fun j _ => monic_linearFactor q xs j
    rw [← coeff_toPoly_eq_entry, (hl.canonical i hi).length_eq hq, Nat.add_sub_cancel,
      hl.toPoly_eq i hi]
    exact hmonic

def RemaindersAt (q : ℕ) (xs coeffs : List Mpz) (k : ℕ) (rems : List (List Mpz)) : Prop :=
  rems.length = Chunk.size xs.length k ∧ ∀ i < rems.length, ∀ j ∈ Chunk.leaves xs.length k i,
    (toPoly (ZMod q) (rems.getD i [])).eval (entry (ZMod q) xs j) =
      (toPoly (ZMod q) coeffs).eval (entry (ZMod q) xs j)

theorem eval_prod_linearFactor {q : ℕ} {xs : List Mpz} {s : Finset ℕ} {j : ℕ} (hj : j ∈ s) :
    (∏ l ∈ s, linearFactor q xs l).eval (entry (ZMod q) xs j) = 0 := by
  rw [eval_prod]
  refine Finset.prod_eq_zero hj ?_
  rw [linearFactor, eval_sub, eval_X, eval_C, entry, sub_self]

theorem polyModMonic_eval {q : ℕ} (hq : 1 < q) {xs : List Mpz} {k : ℕ}
    {level : List (List Mpz)} (hl : TreeLevel q xs k level) {i : ℕ} (hi : i < level.length)
    {dividend r : List Mpz} (h : polyModMonic dividend (level.getD i []) q = .ok r) {j : ℕ}
    (hj : j ∈ Chunk.leaves xs.length k i) :
    (toPoly (ZMod q) r).eval (entry (ZMod q) xs j) =
      (toPoly (ZMod q) dividend).eval (entry (ZMod q) xs j) := by
  obtain ⟨_, _, Q, hQ⟩ := polyModMonic_spec (by omega) (hl.monicList hq hi) h
  rw [hQ, eval_add, eval_mul, hl.toPoly_eq i hi, eval_prod_linearFactor hj, mul_zero, add_zero]

theorem polyModMonic_leaf {q : ℕ} (hq : 1 < q) {xs : List Mpz} {level : List (List Mpz)}
    (hl : TreeLevel q xs 0 level) {i : ℕ} (hi : i < level.length) {dividend r : List Mpz}
    (h : polyModMonic dividend (level.getD i []) q = .ok r) : Canonical q r ∧ r.length ≤ 1 := by
  obtain ⟨hcan, hlen, _⟩ := polyModMonic_spec (by omega) (hl.monicList hq hi) h
  have hnode := length_of_prod hq (hl.canonical i hi) (hl.toPoly_eq i hi)
  have hix : i < xs.length := by
    rw [hl.length_eq, Chunk.size] at hi
    exact hi
  rw [Chunk.leaves_zero hix, Finset.card_singleton] at hnode
  exact ⟨hcan, hlen.trans (by rw [hnode]; simp)⟩

theorem remaindersAt_singleton {q : ℕ} (hq : 1 < q) {xs coeffs : List Mpz} {k : ℕ}
    {level : List (List Mpz)} (hl : TreeLevel q xs k level) (hone : level.length = 1)
    {root : List Mpz} (h : polyModMonic coeffs (level.getD 0 []) q = .ok root) :
    RemaindersAt q xs coeffs k [root] := by
  refine ⟨by rw [← hl.length_eq, hone, List.length_singleton], fun i hi j hj => ?_⟩
  obtain rfl : i = 0 := by simpa using hi
  exact polyModMonic_eval hq hl (by omega) h hj

theorem RemaindersAt.descend {q : ℕ} (hq : 1 < q) {xs coeffs : List Mpz} {k : ℕ}
    {rems children next : List (List Mpz)} (hr : RemaindersAt q xs coeffs (k + 1) rems)
    (hl : TreeLevel q xs k children) (h : descendLevel rems children q = .ok next) :
    RemaindersAt q xs coeffs k next := by
  have hlen : next.length = children.length := by rw [mapM_length h, List.length_range]
  refine ⟨hlen.trans hl.length_eq, fun c hc j hj => ?_⟩
  have hstep := mapM_range_getElem h c hc
  have hparent : c / 2 < rems.length := by
    rw [hr.1, Chunk.size, ← hl.length_eq]
    omega
  have hmem : j ∈ Chunk.leaves xs.length (k + 1) (c / 2) := by
    rw [Chunk.leaves_succ, Finset.mem_union]
    rcases Nat.mod_two_eq_zero_or_one c with h2 | h2
    · left
      rwa [show 2 * (c / 2) = c by omega]
    · right
      rwa [show 2 * (c / 2) + 1 = c by omega]
  rw [List.getD_eq_getElem _ _ hc, polyModMonic_eval hq hl (hlen ▸ hc) hstep hj,
    hr.2 _ hparent j hmem]

theorem eq_polyValue_of_leaf {q : ℕ} (hq : 1 < q) {xs coeffs rem : List Mpz} {i : ℕ}
    (hcan : Canonical q rem) (hlen : rem.length ≤ 1)
    (h : (toPoly (ZMod q) rem).eval (entry (ZMod q) xs i) =
      (toPoly (ZMod q) coeffs).eval (entry (ZMod q) xs i)) :
    (if rem ≠ [] then rem.getD 0 0 % (q : Mpz) else 0) = polyValue coeffs q (xs.getD i 0) := by
  have hq0 : (0 : ℤ) < (q : ℕ) := by exact_mod_cast zero_lt_one.trans hq
  have hpos := List.length_pos_iff.mpr hcan.ne_nil
  obtain ⟨c, rfl⟩ : ∃ c, rem = [c] := List.length_eq_one_iff.mp (by omega)
  rw [if_pos hcan.ne_nil]
  refine eq_polyValue (emod_range hq0 _) ?_
  rw [← entry, ← h, cast_emod (by simp)]
  simp [toPoly_cons]

/-- Remainder descent in a tree over the points computes the values. -/
theorem polyEvalBatchWithProductTree_spec {q : ℕ} (hq : 1 < q) {xs coeffs r : List Mpz}
    {tree : PolyProductTree} (hxs : xs ≠ []) (ht : TreeOver q xs tree)
    (h : polyEvalBatchWithProductTree coeffs tree xs.length q = .ok r) :
    r = xs.map (polyValue coeffs q) := by
  have hn := List.length_pos_iff.mpr hxs
  have hpos := List.length_pos_iff.mpr ht.ne_nil
  rw [polyEvalBatchWithProductTree, if_neg hn.ne'] at h
  split at h
  · next hnil =>
    simp only [pure_eq_ok, Except.ok.injEq] at h
    rw [← h, hnil]
    exact (List.map_eq_replicate_iff.mpr fun x _ => by simp [polyValue]).symm
  split at h
  · simp at h
  obtain ⟨root, hroot, h⟩ := bind_eq_ok.mp h
  obtain ⟨rems, hrems, h⟩ := bind_eq_ok.mp h
  simp only [pure_eq_ok, Except.ok.injEq] at h
  have htop := ht.level (tree.levels.length - 1) (by omega)
  have htoplen : 0 < (tree.levels.getD (tree.levels.length - 1) []).length := by
    rw [htop.length_eq]
    exact size_pos hn _
  rw [ht.root_eq] at hroot
  have hinv := foldlM_range_inv (P := fun i rems =>
    RemaindersAt q xs coeffs (tree.levels.length - 1 - i) rems ∧
      (tree.levels.length - 1 - i = 0 → ∀ j < rems.length,
        Canonical q (rems.getD j []) ∧ (rems.getD j []).length ≤ 1)) hrems ?_ ?_
  · rw [Nat.sub_self] at hinv
    obtain ⟨⟨hlen, hev⟩, hleaf⟩ := hinv
    rw [Chunk.size] at hlen
    rw [← h]
    refine List.ext_getElem (by simp) fun i hi hi' => ?_
    have hix : i < xs.length := by simpa using hi'
    obtain ⟨hcan, hl1⟩ := hleaf rfl i (by omega)
    have hval := eq_polyValue_of_leaf hq hcan hl1
      (hev i (by omega) i (by rw [Chunk.leaves_zero hix]; exact Finset.mem_singleton_self i))
    simp only [List.getElem_map, List.getElem_range]
    rw [hval, List.getD_eq_getElem _ _ hix]
  · refine ⟨remaindersAt_singleton hq htop (le_antisymm ?_ htoplen) hroot, fun h0 j hj => ?_⟩
    · rw [htop.length_eq]
      exact ht.top
    · obtain rfl : j = 0 := by simpa using hj
      rw [Nat.sub_zero] at h0
      rw [h0] at htop htoplen hroot
      exact polyModMonic_leaf hq htop htoplen hroot
  · rintro i s s' hi ⟨hs, _⟩ hstep
    have hidx : tree.levels.length - 1 - i = tree.levels.length - 1 - (i + 1) + 1 := by omega
    have hidx' : tree.levels.length - 2 - i = tree.levels.length - 1 - (i + 1) := by omega
    rw [hidx] at hs
    rw [hidx'] at hstep
    have hlev := ht.level (tree.levels.length - 1 - (i + 1)) (by omega)
    refine ⟨hs.descend hq hlev hstep, fun h0 j hj => ?_⟩
    have hlen : s'.length = (tree.levels.getD (tree.levels.length - 1 - (i + 1)) []).length := by
      rw [mapM_length hstep, List.length_range]
    have hj' := mapM_range_getElem hstep j hj
    rw [h0] at hlev hj' hlen
    rw [List.getD_eq_getElem _ _ hj]
    exact polyModMonic_leaf hq hlev (hlen ▸ hj) hj'

theorem polyEvalBatchProductTreeWith_eq {ZZp ZZpX : Type} {backend : Option (Mpz → Ntl ZZp ZZpX)}
    {q : ℕ} (hq : 1 < q) (hlib : LawfulBackend backend q) {env : Env} {coeffs points r : List Mpz}
    (h : polyEvalBatchProductTreeWith backend env coeffs points q = .ok r) :
    r = points.map (polyValue coeffs q) := by
  unfold polyEvalBatchProductTreeWith at h
  split at h
  · next hnil =>
    simp only [pure_eq_ok, Except.ok.injEq] at h
    rw [← h, hnil, List.map_nil]
  next hne =>
  obtain ⟨isPublic, hpub, h⟩ := bind_eq_ok.mp h
  split at h
  · next hp =>
    obtain ⟨tree, htree, h⟩ := bind_eq_ok.mp h
    obtain ⟨publicPoints, hpoints, htree⟩ := bind_eq_ok.mp htree
    rw [isPublicEvalPoints_true (hp ▸ hpub), Except.ok.injEq] at hpoints
    subst hpoints
    exact polyEvalBatchWithProductTree_spec hq hne (polyBuildProductTreeWith_spec hq hlib hne htree) h
  · obtain ⟨tree, htree, h⟩ := bind_eq_ok.mp h
    exact polyEvalBatchWithProductTree_spec hq hne (polyBuildProductTreeWith_spec hq hlib hne htree) h

theorem polyEvalBatchNtt_eq {q : ℕ} (hq : 0 < q) {env : Env} {coeffs points r : List Mpz}
    (hpub : isPublicEvalPoints env points q = .ok true)
    (h : polyEvalBatchNtt env coeffs points.length q = .ok r) :
    r = points.map (polyValue coeffs q) := by
  have hpoints := isPublicEvalPoints_true hpub
  unfold polyEvalBatchNtt at h
  split at h
  · simp at h
  next hsup =>
  split at h
  · simp at h
  next hle =>
  have hsup' : nttDomainSupported env q points.length = true := by simpa using hsup
  obtain ⟨_, hqeq, k, hk⟩ := nttDomainSupported_iff.mp hsup'
  obtain rfl : q = cgNtt128Prime := by exact_mod_cast hqeq
  have hq0 : (0 : ℤ) < (cgNtt128Prime : ℕ) := by exact_mod_cast hq
  rw [hk] at h hpoints hsup' hle
  have hpad := padMod_length (p := coeffs) (n := 2 ^ k) (by omega) cgNtt128Prime
  obtain ⟨_, hlen, hx⟩ := nttInplace_forward hpad h
  have hred := nttInplace_reduced hq0 (padMod_reduced hq0 _ _) h
  have hroots := (publicEvalPoints_ntt hsup' hpoints).2
  refine List.ext_getElem (by rw [List.length_map, hlen, hk]) fun i hi hi' => ?_
  have hik : i < 2 ^ k := hlen ▸ hi
  rw [List.getElem_map]
  refine eq_polyValue (hred _ (List.getElem_mem hi)) ?_
  have hpt := hroots i hik
  have hval := hx i hik
  rw [entry, List.getD_eq_getElem _ _ (by rwa [hk])] at hpt
  rw [entry, List.getD_eq_getElem _ _ hi, toPoly_padMod cast_cgNtt128Prime] at hval
  rw [hpt, hval]

section

variable {ZZp ZZpX : Type} {backend : Option (Mpz → Ntl ZZp ZZpX)} {q : ℕ} {env : Env}
  {coeffs points r : List Mpz}

theorem nttConditions_true {b : Bool} (hb : b = true) (h : nttConditions env coeffs points q = .ok b) :
    nttDomainSupported env q points.length = true ∧ coeffs.length ≤ points.length ∧
      isPublicEvalPoints env points q = .ok true := by
  subst hb
  unfold nttConditions at h
  split at h
  · next hcond => exact ⟨hcond.1, hcond.2, h⟩
  · simp at h

theorem polyEvalBatchBySize_eq (hq : 1 < q) (hlib : LawfulBackend backend q)
    (hlen : coeffs.length < 2 ^ 31) (h : polyEvalBatchBySize backend env coeffs points q = .ok r) :
    r = points.map (polyValue coeffs q) := by
  obtain ⟨useNtt, huse, h⟩ := bind_eq_ok.mp h
  split at h
  · next hn => exact polyEvalBatchNtt_eq (by omega) (nttConditions_true hn huse).2.2 h
  obtain ⟨hornerMax, _, h⟩ := bind_eq_ok.mp h
  split at h
  · simp only [pure_eq_ok, Except.ok.injEq] at h
    rw [← h, polyEvalBatchHorner_eq (by omega) hlen]
  obtain ⟨sel, hsel, h⟩ := bind_eq_ok.mp h
  cases sel with
  | some lib =>
    obtain ⟨val, hl⟩ := hlib lib (ntlSelected_mem hsel)
    obtain rfl := Except.ok.inj h
    exact polyEvalBatchNtl_eq hl coeffs points
  | none => exact polyEvalBatchProductTreeWith_eq hq hlib h

theorem polyEvalBatchAutoWith_eq (hq : 1 < q) (hlib : LawfulBackend backend q)
    (hlen : coeffs.length < 2 ^ 31) (h : polyEvalBatchAutoWith backend env coeffs points q = .ok r) :
    r = points.map (polyValue coeffs q) := by
  unfold polyEvalBatchAutoWith at h
  dsimp only at h
  split at h
  · obtain ⟨isPublic, hpub, h⟩ := bind_eq_ok.mp h
    split at h
    · simp at h
    · next hp =>
      have hp' : isPublic = true := by simpa using hp
      exact polyEvalBatchNtt_eq (by omega) (hp' ▸ hpub) h
  split at h
  · simp only [pure_eq_ok, Except.ok.injEq] at h
    rw [← h, polyEvalBatchHorner_eq (by omega) hlen]
  split at h
  · next lib hlibrary =>
    have hmem : backend = some lib := by
      split at hlibrary
      · exact hlibrary
      · simp at hlibrary
    obtain ⟨val, hl⟩ := hlib lib hmem
    obtain rfl := Except.ok.inj h
    exact polyEvalBatchNtl_eq hl coeffs points
  split at h
  · exact polyEvalBatchProductTreeWith_eq hq hlib h
  · exact polyEvalBatchBySize_eq hq hlib hlen h

end

theorem polyEvalBatchWithProductTree_exists {q : ℕ} {tree : PolyProductTree} {coeffs xs : List Mpz}
    (hxs : xs ≠ []) (ht : TreeOver q xs tree) :
    ∃ r, polyEvalBatchWithProductTree coeffs tree xs.length q = .ok r := by
  have hn := List.length_pos_iff.mpr hxs
  rw [polyEvalBatchWithProductTree, if_neg hn.ne']
  split
  · exact ⟨_, rfl⟩
  rw [if_neg (not_or.mpr ⟨ht.ne_nil, not_not.mpr ht.length_zero⟩)]
  obtain ⟨root, hroot⟩ := polyModMonic_exists (ht.root_spec hxs).1.ne_nil coeffs (q : ℤ)
  obtain ⟨rems, hrems, _⟩ := foldlM_range_exists (P := fun _ _ => True)
    (f := fun rems i => descendLevel rems (tree.levels.getD (tree.levels.length - 2 - i) []) q)
    (s := [root]) (n := tree.levels.length - 1) trivial fun i rems hi _ => by
      have hlev := ht.level (tree.levels.length - 2 - i) (by omega)
      obtain ⟨next, hnext⟩ := mapM_exists (l := List.range
          (tree.levels.getD (tree.levels.length - 2 - i) []).length)
        (f := fun c => polyModMonic (rems.getD (c / 2) [])
          ((tree.levels.getD (tree.levels.length - 2 - i) []).getD c []) q) fun c hc =>
            polyModMonic_exists (hlev.canonical c (List.mem_range.mp hc)).ne_nil _ _
      exact ⟨next, hnext, trivial⟩
  rw [hroot, ok_bind, hrems]
  exact ⟨_, rfl⟩

theorem isPublicEvalPoints_exists {env : Env} {points publicPoints : List Mpz} {q : Mpz}
    (h : publicEvalPointsCached env points.length q = .ok publicPoints) :
    ∃ b, isPublicEvalPoints env points q = .ok b := by
  rw [isPublicEvalPoints, h]
  exact ⟨_, rfl⟩

theorem polyEvalBatchProductTreeWith_exists {ZZp ZZpX : Type}
    {backend : Option (Mpz → Ntl ZZp ZZpX)} {q : ℕ} (hq : 1 < q) (hlib : LawfulBackend backend q)
    {env : Env} {threshold : ℕ} (ht : nttPolyThreshold env = .ok threshold)
    (hsel : Selects backend env) (coeffs : List Mpz) {points publicPoints : List Mpz}
    (hlen : points.length + 2 ≤ 2 ^ 63)
    (hpub : publicEvalPointsCached env points.length q = .ok publicPoints) :
    ∃ r, polyEvalBatchProductTreeWith backend env coeffs points q = .ok r := by
  unfold polyEvalBatchProductTreeWith
  split
  · exact ⟨_, rfl⟩
  next hne =>
  obtain ⟨b, hb⟩ := isPublicEvalPoints_exists hpub
  obtain ⟨tree, htree⟩ := polyBuildProductTreeWith_exists hq hlib ht hsel hlen
  have hover := polyBuildProductTreeWith_spec hq hlib hne htree
  cases b with
  | true =>
    have hsame : publicPoints = points := by
      have hh := (isPublicEvalPoints_true hb).symm.trans hpub
      simpa using hh.symm
    simp only [hb, ok_bind, if_true, publicProductTreeCachedWith, hpub, hsame, htree]
    exact polyEvalBatchWithProductTree_exists hne hover
  | false =>
    simp only [hb, ok_bind, Bool.false_eq_true, if_false, htree]
    exact polyEvalBatchWithProductTree_exists hne hover

theorem publicEvalPointsCached_exists (env : Env) {n : ℕ} (hn : n ≤ 2 ^ 63) (q : Mpz) :
    ∃ points, publicEvalPointsCached env n q = .ok points := by
  unfold publicEvalPointsCached
  split
  · next hsup =>
    obtain ⟨henv, rfl, k, rfl⟩ := nttDomainSupported_iff.mp hsup
    have hk : k ≤ 63 := (Nat.pow_le_pow_iff_right (by omega)).mp hn
    exact nttDomainPoints_exists henv (by omega)
  · exact ⟨_, rfl⟩

theorem polyEvalBatchNtt_exists {env : Env} {coeffs points : List Mpz} {q : Mpz}
    (hle : coeffs.length ≤ points.length)
    (hsup : nttDomainSupported env q points.length = true)
    (hpub : isPublicEvalPoints env points q = .ok true) :
    ∃ r, polyEvalBatchNtt env coeffs points.length q = .ok r := by
  obtain ⟨henv, rfl, k, hk⟩ := nttDomainSupported_iff.mp hsup
  have hpoints := isPublicEvalPoints_true hpub
  rw [hk] at hpoints hsup hle
  have hk64 := (publicEvalPoints_ntt hsup hpoints).1
  rw [polyEvalBatchNtt, hk, hsup, if_neg (by simp), if_neg (not_lt.mpr hle)]
  exact nttInplace_exists henv hk64 (padMod_length hle _) false

theorem polyEvalBatchAutoWith_exists {ZZp ZZpX : Type} {backend : Option (Mpz → Ntl ZZp ZZpX)}
    {q : ℕ} (hq : 1 < q) (hlib : LawfulBackend backend q) {env : Env} {threshold hornerMax : ℕ}
    (ht : nttPolyThreshold env = .ok threshold) (hsel : Selects backend env)
    (hh : polyEvalAutoHornerMaxPoints env = .ok hornerMax) (hm : polyEvalMethodEnv env ≠ "ntt")
    {coeffs points : List Mpz} (hlen : points.length + 2 ≤ 2 ^ 63) :
    ∃ r, polyEvalBatchAutoWith backend env coeffs points q = .ok r := by
  obtain ⟨publicPoints, hpub⟩ := publicEvalPointsCached_exists env (n := points.length) (by omega)
    (q : ℤ)
  have htree := polyEvalBatchProductTreeWith_exists hq hlib ht hsel coeffs hlen hpub
  unfold polyEvalBatchAutoWith
  dsimp only
  rw [if_neg hm]
  split
  · exact ⟨_, rfl⟩
  split
  · exact ⟨_, rfl⟩
  split
  · exact htree
  have hrest : ∃ r, (do
      let hornerMax ← polyEvalAutoHornerMaxPoints env
      if points.length ≤ hornerMax then return polyEvalBatchHorner coeffs points q
      else
        match ← ntlSelected backend env (max coeffs.length points.length) with
        | some lib => return polyEvalBatchNtl lib coeffs points q
        | none => polyEvalBatchProductTreeWith backend env coeffs points q) = .ok r := by
    rw [hh, ok_bind]
    split
    · exact ⟨_, rfl⟩
    · obtain ⟨sel, hs⟩ := hsel (max coeffs.length points.length)
      rw [hs, ok_bind]
      cases sel with
      | some lib => exact ⟨_, rfl⟩
      | none => exact htree
  unfold polyEvalBatchBySize nttConditions
  split
  · next hcond =>
    obtain ⟨b, hb⟩ := isPublicEvalPoints_exists hpub
    rw [hb, ok_bind]
    cases b with
    | true => exact polyEvalBatchNtt_exists hcond.2 hcond.1 hb
    | false => exact hrest
  · exact hrest

/-- All batch evaluation strategies return the vector of values on every input
on which they return: the dispatcher under every configuration, Horner's rule,
the transform on public points, and remainder descent with the cached or with a
freshly built tree. The counter of Horner's rule bounds the coefficients. -/
theorem batchEvaluation_agree {q : ℕ} (hq : 2 ≤ q) (env : Env) (coeffs points : List Mpz) :
    (coeffs.length < 2 ^ 31 → ∀ r, polyEvalBatchAuto env coeffs points q = .ok r →
      r = points.map fun x =>
        (∑ j ∈ Finset.range coeffs.length, coeffs.getD j 0 * x ^ j) % (q : Mpz)) ∧
    (coeffs.length < 2 ^ 31 →
      polyEvalBatchHorner coeffs points q = points.map (polyValue coeffs q)) ∧
    (∀ r, isPublicEvalPoints env points q = .ok true →
      polyEvalBatchNtt env coeffs points.length q = .ok r →
        r = points.map (polyValue coeffs q)) ∧
    (∀ r, polyEvalBatchProductTree env coeffs points q = .ok r →
      r = points.map (polyValue coeffs q)) ∧
    ∀ tree r, polyBuildProductTree env points q = .ok tree →
      polyEvalBatchWithProductTree coeffs tree points.length q = .ok r →
        r = points.map (polyValue coeffs q) := by
  have hlib := lawfulBackend_builtIn q
  refine ⟨fun hlen r h => polyEvalBatchAutoWith_eq hq hlib hlen h,
    fun hlen => polyEvalBatchHorner_eq (by omega) hlen points,
    fun r hpub h => polyEvalBatchNtt_eq (by omega) hpub h,
    fun r h => polyEvalBatchProductTreeWith_eq hq hlib h, fun tree r ht h => ?_⟩
  by_cases hnil : points = []
  · subst hnil
    simp only [polyEvalBatchWithProductTree, List.length_nil, if_true, pure_eq_ok,
      Except.ok.injEq] at h
    rw [← h, List.map_nil]
  · exact polyEvalBatchWithProductTree_spec hq hnil (polyBuildProductTree_spec hq hnil ht) h

theorem batchEvaluation_agree_unreduced : ∃ r,
    polyEvalBatchAuto (fun _ => none) [-1, 7, 3] [6, 2, -3] (5 : ℕ) = .ok r ∧ r = [4, 0, 0] :=
  ⟨_, rfl, ((batchEvaluation_agree (q := 5) (by decide) (fun _ => none) [-1, 7, 3]
    [6, 2, -3]).1 (by decide) _ rfl).trans (by decide)⟩

end RfClassGroups
