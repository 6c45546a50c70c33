import RfClassGroups.Interpolation

/-! Barycentric evaluation at the points `1, …, n`: the denominator table, the
prefix and suffix tables, and the weighted sum. -/

open Polynomial CoeffList ExceptList Loops

namespace RfClassGroups

section

variable {R : Type*} [CommRing R] {q : Mpz}

theorem factorialTable_spec (hq : (q : R) = 0) {n : ℕ} :
    (factorialTable n q).length = n ∧
      ∀ x < n, entry R (factorialTable n q) x = (x.factorial : R) := by
  have hinv := foldl_range_inv
    (fun m s => s.length = n ∧ ∀ x ≤ m, x < n → entry R s x = (x.factorial : R))
    (fun fact i => fact.set (i + 1) (fact.getD i 0 * ((i + 1 : ℕ) : Mpz) % q))
    (List.replicate n 1) (n - 1) ⟨List.length_replicate, fun x hx hxn => ?_⟩ ?_
  · exact ⟨hinv.1, fun x hx => hinv.2 x (by omega) hx⟩
  · obtain rfl : x = 0 := Nat.le_zero.mp hx
    simp [entry, hxn]
  · rintro m s hm ⟨hlen, hs⟩
    refine ⟨by rw [List.length_set, hlen], fun x hx hxn => ?_⟩
    rw [entry_set (by omega)]
    by_cases hxm : x = m + 1
    · subst hxm
      have hprev := hs m le_rfl (by omega)
      rw [entry] at hprev
      rw [if_pos rfl, cast_emod hq, Int.cast_mul, hprev, Nat.factorial_succ, Int.cast_natCast,
        Nat.cast_mul, mul_comm]
    · rw [if_neg hxm]
      exact hs x (by omega) hxn

theorem prefixProducts_spec (hq : (q : R) = 0) (n : ℕ) (xi : Mpz) (x : ℕ) (hx : x < n) :
    entry R (prefixProducts n xi q) x =
      ∏ j ∈ Finset.range x, ((xi : R) - ((j + 1 : ℕ) : R)) := by
  have hinv := foldl_range_inv
    (fun m (s : List Mpz × Mpz) => s.1.length = n ∧
      (s.2 : R) = ∏ j ∈ Finset.range m, ((xi : R) - ((j + 1 : ℕ) : R)) ∧
      ∀ x ≤ m, x < n → entry R s.1 x = ∏ j ∈ Finset.range x, ((xi : R) - ((j + 1 : ℕ) : R)))
    (fun s i => (s.1.set (i + 1) (s.2 * ((xi - ((i + 1 : ℕ) : Mpz)) % q) % q),
      s.2 * ((xi - ((i + 1 : ℕ) : Mpz)) % q) % q))
    (List.replicate n 1, 1) (n - 1)
    ⟨List.length_replicate, by simp, fun x hx hxn => ?_⟩ ?_
  · exact hinv.2.2 x (by omega) hx
  · obtain rfl : x = 0 := Nat.le_zero.mp hx
    simp [entry, hxn]
  · rintro m s hm ⟨hlen, hcur, hs⟩
    have hcur' : ((s.2 * ((xi - ((m + 1 : ℕ) : Mpz)) % q) % q : ℤ) : R) =
        ∏ j ∈ Finset.range (m + 1), ((xi : R) - ((j + 1 : ℕ) : R)) := by
      rw [cast_emod hq, Int.cast_mul, cast_emod hq, Int.cast_sub, hcur, Int.cast_natCast,
        Finset.prod_range_succ]
    refine ⟨by rw [List.length_set, hlen], hcur', fun x hx hxn => ?_⟩
    rw [entry_set (by omega)]
    by_cases hxm : x = m + 1
    · rw [if_pos hxm, hcur', hxm]
    · rw [if_neg hxm]
      exact hs x (by omega) hxn

theorem suffixProducts_start {m : ℕ} (hm : m + 1 < 2 ^ 31) :
    int32 (int32 ((m + 1 : ℕ) : ℤ) - 1) - 1 = (m : ℤ) - 1 := by
  rw [int32_of_lt (n := ((m + 1 : ℕ) : ℤ)) (by omega) (by omega), int32_of_lt (by omega) (by omega)]
  omega

theorem suffixProducts_spec (hq : (q : R) = 0) {n : ℕ} (hn : n < 2 ^ 31) (xi : Mpz) (x : ℕ)
    (hx : x < n) : entry R (suffixProducts n xi q) x =
      ∏ j ∈ Finset.Ico (x + 1) n, ((xi : R) - ((j + 1 : ℕ) : R)) := by
  obtain ⟨m, rfl⟩ : ∃ m, n = m + 1 := ⟨n - 1, by omega⟩
  -- above index `k` the table is filled, and `cur` is the product of the entries above `k`
  have hinv := foldl_countdown_inv
    (fun k (s : List Mpz × Mpz) => s.1.length = m + 1 ∧
      (s.2 : R) = ∏ j ∈ Finset.Ico (k + 1) (m + 1), ((xi : R) - ((j + 1 : ℕ) : R)) ∧
      ∀ x, k ≤ x → x < m + 1 →
        entry R s.1 x = ∏ j ∈ Finset.Ico (x + 1) (m + 1), ((xi : R) - ((j + 1 : ℕ) : R)))
    (fun s k => (s.1.set k (s.2 * ((xi - ((k + 1 + 1 : ℕ) : Mpz)) % q) % q),
      s.2 * ((xi - ((k + 1 + 1 : ℕ) : Mpz)) % q) % q))
    (List.replicate (m + 1) 1, 1) m
    ⟨List.length_replicate, by simp, fun x hmx hxn => ?_⟩ ?_
  · rw [suffixProducts, suffixProducts_start hn]
    exact hinv.2.2 x (Nat.zero_le x) hx
  · obtain rfl : x = m := by omega
    simp [entry]
  · rintro k s hk ⟨hlen, hcur, hs⟩
    have hcur' : ((s.2 * ((xi - ((k + 1 + 1 : ℕ) : Mpz)) % q) % q : ℤ) : R) =
        ∏ j ∈ Finset.Ico (k + 1) (m + 1), ((xi : R) - ((j + 1 : ℕ) : R)) := by
      rw [cast_emod hq, Int.cast_mul, cast_emod hq, Int.cast_sub, hcur, Int.cast_natCast,
        Finset.prod_eq_prod_Ico_succ_bot (a := k + 1) (b := m + 1) (by omega), mul_comm]
    refine ⟨by rw [List.length_set, hlen], hcur', fun x hkx hxn => ?_⟩
    rw [entry_set (by omega)]
    by_cases hxk : x = k
    · rw [if_pos hxk, hcur', hxk]
    · rw [if_neg hxk]
      exact hs x (by omega) hxn

end

theorem requirePublicEvalPointsDistinct_eq {q n : ℕ} (hn : 0 < n) :
    (n ≤ q → requirePublicEvalPointsDistinct n q = .ok ()) ∧
      (q < n → ∃ e, requirePublicEvalPointsDistinct n q = .error e) := by
  unfold requirePublicEvalPointsDistinct
  rw [if_neg hn.ne']
  refine ⟨fun h => ?_, fun h => ?_⟩
  · rw [if_neg (by exact_mod_cast not_lt.mpr h)]
    rfl
  · rw [if_pos (by exact_mod_cast h)]
    exact ⟨_, rfl⟩

section

variable {q : ℕ} [Fact q.Prime]

theorem natCast_modulus : (((q : ℕ) : ℤ) : ZMod q) = 0 := by
  rw [Int.cast_natCast, ZMod.natCast_self]

theorem denominator_cast {n i : ℕ} (hi : i < n) :
    (((if (n - 1 - i) % 2 ≠ 0 then (q : Mpz) - (factorialTable n q).getD i 0 *
        (factorialTable n q).getD (n - 1 - i) 0 % q
      else (factorialTable n q).getD i 0 * (factorialTable n q).getD (n - 1 - i) 0 % q) : ℤ) :
        ZMod q) =
      ∏ j ∈ (Finset.range n).erase i, (((i + 1 : ℕ) : ZMod q) - ((j + 1 : ℕ) : ZMod q)) := by
  obtain ⟨_, hfact⟩ := factorialTable_spec (R := ZMod q) natCast_modulus (n := n)
  have hprod : (((factorialTable n q).getD i 0 * (factorialTable n q).getD (n - 1 - i) 0 %
      (q : Mpz) : ℤ) : ZMod q) = (i.factorial : ZMod q) * ((n - 1 - i).factorial : ZMod q) := by
    rw [cast_emod natCast_modulus, Int.cast_mul]
    exact congrArg₂ (· * ·) (hfact i hi) (hfact (n - 1 - i) (by omega))
  rw [Barycentric.prod_erase_sub hi]
  split
  · next hodd =>
    have hneg : (-1 : ZMod q) ^ (n - 1 - i) = -1 :=
      Odd.neg_one_pow (Nat.odd_iff.mpr (by omega))
    rw [Int.cast_sub, natCast_modulus, hprod, hneg]
    ring
  · next heven =>
    have hpos : (-1 : ZMod q) ^ (n - 1 - i) = 1 :=
      Even.neg_one_pow (Nat.even_iff.mpr (by omega))
    rw [hprod, hpos, one_mul]

theorem succ_inj {n : ℕ} (hn : n ≤ q) : ∀ i < n, ∀ j < n,
    ((i + 1 : ℕ) : ZMod q) = ((j + 1 : ℕ) : ZMod q) → i = j := by
  have henv : nttDomainSupported (fun _ => some "0") q n = false := by
    simp [nttDomainSupported, nttRuntimeEnabled, Env.text]
  have hpts : publicEvalPointsCached (fun _ => some "0") n q =
      .ok ((List.range n).map fun i => ((i + 1 : ℕ) : Mpz)) := by
    rw [publicEvalPointsCached, henv]
    rfl
  intro i hi j hj h
  refine publicEvalPoints_injOn hn hpts hi hj ?_
  rw [entry, entry, publicEvalPoints_succ henv hpts i hi, publicEvalPoints_succ henv hpts j hj,
    Int.cast_natCast, Int.cast_natCast, h]

theorem lagrangeDenominatorInverses_ok {n : ℕ} {dInv : List Mpz}
    (h : lagrangeDenominatorInverses n q = .ok dInv) : dInv.length = n ∧ ∀ i < n,
      entry (ZMod q) dInv i =
        (∏ j ∈ (Finset.range n).erase i, (((i + 1 : ℕ) : ZMod q) - ((j + 1 : ℕ) : ZMod q)))⁻¹ := by
  obtain ⟨_, _, h⟩ := bind_eq_ok.mp h
  have hlen := mapM_length h
  rw [List.length_range] at hlen
  refine ⟨hlen, fun i hi => ?_⟩
  have hstep := mapM_range_getElem h i (hlen ▸ hi)
  rw [entry, List.getD_eq_getElem _ _ (hlen ▸ hi), modInverse_cast hstep, denominator_cast hi]

theorem lagrangeDenominatorInverses_exists {n : ℕ} (hn : 0 < n) (hle : n ≤ q) :
    ∃ dInv, lagrangeDenominatorInverses n q = .ok dInv := by
  rw [lagrangeDenominatorInverses, (requirePublicEvalPointsDistinct_eq hn).1 hle, ok_bind]
  refine mapM_exists fun i hi => modInverse_exists (Fact.out : q.Prime) ?_
  rw [denominator_cast (List.mem_range.mp hi)]
  exact Barycentric.prod_erase_sub_ne_zero (v := fun i => ((i + 1 : ℕ) : ZMod q))
    (succ_inj hle) (List.mem_range.mp hi)

theorem lagrangeDenominatorInverses_range {n : ℕ} {dInv : List Mpz}
    (h : lagrangeDenominatorInverses n q = .ok dInv) : Reduced q dInv := by
  have hq : (0 : ℤ) < (q : ℕ) := by exact_mod_cast (Fact.out : q.Prime).pos
  obtain ⟨_, _, h⟩ := bind_eq_ok.mp h
  intro c hc
  obtain ⟨i, hi, rfl⟩ := List.getElem_of_mem hc
  obtain ⟨_, hinv⟩ := modInverse_eq_ok (mapM_range_getElem h i hi)
  rw [hinv]
  exact emod_range hq _

theorem lagrangeEvalAt_cast (w : List Mpz) {n : ℕ} (hn : n < 2 ^ 31) (xi : Mpz) :
    ((lagrangeEvalAt w n xi q : ℤ) : ZMod q) = ∑ i ∈ Finset.range n, entry (ZMod q) w i *
      ((∏ j ∈ Finset.range i, ((xi : ZMod q) - ((j + 1 : ℕ) : ZMod q))) *
        ∏ j ∈ Finset.Ico (i + 1) n, ((xi : ZMod q) - ((j + 1 : ℕ) : ZMod q))) := by
  have hinv := foldl_range_inv (fun m (res : Mpz) => m ≤ n → ((res : ℤ) : ZMod q) =
    ∑ i ∈ Finset.range m, entry (ZMod q) w i *
      ((∏ j ∈ Finset.range i, ((xi : ZMod q) - ((j + 1 : ℕ) : ZMod q))) *
        ∏ j ∈ Finset.Ico (i + 1) n, ((xi : ZMod q) - ((j + 1 : ℕ) : ZMod q))))
    (fun res i => (res + w.getD i 0 * (prefixProducts n xi q).getD i 0 % q *
      (suffixProducts n xi q).getD i 0 % q) % q) 0 n (fun _ => by simp) ?_
  · exact hinv le_rfl
  · intro m res hm hres hmn
    have hL := prefixProducts_spec (R := ZMod q) natCast_modulus n xi m hm
    have hR := suffixProducts_spec (R := ZMod q) natCast_modulus hn xi m hm
    rw [entry] at hL hR
    rw [cast_emod natCast_modulus, Int.cast_add, cast_emod natCast_modulus, Int.cast_mul,
      cast_emod natCast_modulus, Int.cast_mul, hres hm.le, hL, hR, Finset.sum_range_succ, entry,
      mul_assoc]

theorem lagrangeEvalAt_range (w : List Mpz) (n : ℕ) (xi : Mpz) :
    0 ≤ lagrangeEvalAt w n xi q ∧ lagrangeEvalAt w n xi q < q := by
  have hq : (0 : ℤ) < (q : ℕ) := by exact_mod_cast (Fact.out : q.Prime).pos
  refine foldl_inv (P := fun res : ℤ => 0 ≤ res ∧ res < q) (fun res i _ => ?_) ⟨le_rfl, hq⟩ _
  exact emod_range hq _

theorem eq_val_of_cast {r : ℤ} (hr : 0 ≤ r ∧ r < q) {z : ZMod q} (h : (r : ZMod q) = z) :
    r = (z.val : ℤ) := by
  rw [← h, ZMod.val_intCast, Int.emod_eq_of_lt hr.1 hr.2]

theorem lagrangeEvalBatch_ok {env : Env} {y alpha targets r : List Mpz} (hy : y ≠ [])
    (hlen : y.length < 2 ^ 31)
    (hsup : nttDomainSupported env q y.length = false)
    (ha : rfOpaEvalPoints env y.length q = .ok alpha)
    (h : lagrangeEvalBatch y targets q = .ok r) :
    r = targets.map fun t : Mpz => (((interpolant q y alpha).eval (t : ZMod q)).val : ℤ) := by
  rw [lagrangeEvalBatch, if_neg hy] at h
  obtain ⟨dInv, hd, h⟩ := bind_eq_ok.mp h
  simp only [pure_eq_ok, Except.ok.injEq] at h
  obtain ⟨_, hdx⟩ := lagrangeDenominatorInverses_ok hd
  have hpt : ∀ i < y.length, entry (ZMod q) alpha i = ((i + 1 : ℕ) : ZMod q) := by
    intro i hi
    rw [entry, publicEvalPoints_succ hsup ha i hi, Int.cast_natCast]
  have hprod : ∀ s ⊆ Finset.range y.length, ∀ x : ZMod q,
      ∏ j ∈ s, (x - entry (ZMod q) alpha j) = ∏ j ∈ s, (x - ((j + 1 : ℕ) : ZMod q)) := by
    intro s hs x
    exact Finset.prod_congr rfl fun j hj => by rw [hpt j (Finset.mem_range.mp (hs hj))]
  subst h
  refine List.map_congr_left fun t _ => eq_val_of_cast (q := q) (lagrangeEvalAt_range _ _ _) ?_
  rw [lagrangeEvalAt_cast _ hlen, interpolant, Barycentric.eval_interpolate]
  refine Finset.sum_congr rfl fun i hi => ?_
  have hi' := Finset.mem_range.mp hi
  have hw : entry (ZMod q) ((List.range y.length).map fun i => y.getD i 0 * dInv.getD i 0 % (q : ℤ)) i =
      entry (ZMod q) y i * entry (ZMod q) dInv i := by
    simp [entry, hi', cast_emod natCast_modulus]
  have hsub : Finset.range i ⊆ Finset.range y.length := Finset.range_subset_range.mpr hi'.le
  have hsub' : Finset.Ico (i + 1) y.length ⊆ Finset.range y.length := fun j hj =>
    Finset.mem_range.mpr (Finset.mem_Ico.mp hj).2
  have hsub'' : (Finset.range y.length).erase i ⊆ Finset.range y.length := Finset.erase_subset _ _
  rw [hw, hdx i hi', hpt i hi', hprod _ hsub'', hprod _ hsub, hprod _ hsub', div_eq_mul_inv]

theorem lagrangeEvalBatch_exists {y : List Mpz} (hle : y.length ≤ q) (targets : List Mpz) :
    ∃ r, lagrangeEvalBatch y targets q = .ok r := by
  unfold lagrangeEvalBatch
  split
  · exact ⟨_, rfl⟩
  · next hy =>
    obtain ⟨dInv, hd⟩ := lagrangeDenominatorInverses_exists (List.length_pos_iff.mpr hy) hle
    rw [hd, ok_bind]
    exact ⟨_, rfl⟩

end

/-- Up to the limit `n = q`, entry `i` is the inverse of the product of the
differences between the public point `i + 1` and the others. -/
theorem lagrangeDenominatorInverses_inverse {q n : ℕ} (hq : q.Prime) (hn : 1 ≤ n) (hle : n ≤ q) :
    ∃ inv, lagrangeDenominatorInverses n q = .ok inv ∧ inv.length = n ∧
      ∀ i < n, 0 ≤ inv.getD i 0 ∧ inv.getD i 0 < q ∧
        inv.getD i 0 * (∏ j ∈ (Finset.range n).erase i, (((i : ℤ) + 1) - ((j : ℤ) + 1))) % q = 1 := by
  have : Fact q.Prime := ⟨hq⟩
  have hq0 : (0 : ℤ) < (q : ℕ) := by exact_mod_cast hq.pos
  obtain ⟨inv, hinv⟩ := lagrangeDenominatorInverses_exists hn hle
  obtain ⟨hlen, hentry⟩ := lagrangeDenominatorInverses_ok hinv
  refine ⟨inv, hinv, hlen, fun i hi => ?_⟩
  obtain ⟨hlow, hhigh⟩ := (lagrangeDenominatorInverses_range hinv).getD hq0 i
  refine ⟨hlow, hhigh, ?_⟩
  have hne : ∏ j ∈ (Finset.range n).erase i, (((i + 1 : ℕ) : ZMod q) - ((j + 1 : ℕ) : ZMod q)) ≠ 0 :=
    Barycentric.prod_erase_sub_ne_zero (v := fun i => ((i + 1 : ℕ) : ZMod q)) (succ_inj hle) hi
  have hcast : ((inv.getD i 0 *
      (∏ j ∈ (Finset.range n).erase i, (((i : ℤ) + 1) - ((j : ℤ) + 1))) : ℤ) : ZMod q) =
        ((1 : ℤ) : ZMod q) := by
    have he := hentry i hi
    rw [entry] at he
    rw [Int.cast_mul, he, Int.cast_prod, Int.cast_one]
    refine (congrArg _ (Finset.prod_congr rfl fun j _ => ?_)).trans (inv_mul_cancel₀ hne)
    push_cast
    rfl
  rw [(ZMod.intCast_eq_intCast_iff' _ _ q).mp hcast]
  exact Int.emod_eq_of_lt zero_le_one (by exact_mod_cast hq.one_lt)

theorem lagrangeDenominatorInverses_inverse_full :
    ∃ inv, lagrangeDenominatorInverses 5 (5 : ℕ) = .ok inv ∧ ∀ i < 5, inv.getD i 0 *
      (∏ j ∈ (Finset.range 5).erase i, (((i : ℤ) + 1) - ((j : ℤ) + 1))) % (5 : ℕ) = 1 := by
  obtain ⟨inv, hinv, -, hprod⟩ :=
    lagrangeDenominatorInverses_inverse (q := 5) (n := 5) (by decide) (by decide) (by decide)
  exact ⟨inv, hinv, fun i hi => (hprod i hi).2.2⟩

theorem lagrangeEvalBatch_error {q : ℕ} {y : List Mpz} (hgt : q < y.length) (targets : List Mpz) :
    ∃ e, lagrangeEvalBatch y targets q = .error e := by
  have hy : y ≠ [] := List.ne_nil_of_length_pos (by omega)
  obtain ⟨e, he⟩ := (requirePublicEvalPointsDistinct_eq (List.length_pos_iff.mpr hy)).2 hgt
  exact ⟨e, by rw [lagrangeEvalBatch, if_neg hy, lagrangeDenominatorInverses, he]; rfl⟩

end RfClassGroups
