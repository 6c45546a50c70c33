import RfClassGroups.Lib.Bezout
import RfClassGroups.Lib.Fibers
import RfClassGroups.PsiRun

/-! The receiver's view of one-way PSI depends on the sender's set through its
size and the intersection only: the masks for two such sets are in bijection. -/

open Polynomial CoeffList ExceptList

namespace RfClassGroups

/-- The results of `random_poly` with `n` coefficients. -/
abbrev Mask (q n : ℕ) := {p : List Mpz // p.length = n ∧ Reduced q p}

section

variable {q : ℕ} [Fact q.Prime]

noncomputable def maskEquiv (n : ℕ) : Mask q n ≃ degreeLT (ZMod q) n where
  toFun p := ⟨toPoly (ZMod q) p.1, by
    rw [mem_degreeLT, degree_lt_iff_coeff_zero]
    intro i hi
    rw [coeff_toPoly_eq_entry, entry_of_length_le (p.2.1.trans_le hi)]⟩
  invFun f := ⟨(List.range n).map fun i => ((f.1.coeff i).val : ℤ), by simp, by
    intro c hc
    obtain ⟨i, _, rfl⟩ := List.mem_map.mp hc
    exact ⟨Int.natCast_nonneg _, by exact_mod_cast ZMod.val_lt _⟩⟩
  left_inv p := by
    refine Subtype.ext (List.ext_getElem (by simp [p.2.1]) fun i hi hi' => ?_)
    have hq := p.2.2 _ (List.getElem_mem hi')
    rw [List.getElem_map, List.getElem_range]
    refine eq_of_cast_eq ⟨Int.natCast_nonneg _, by exact_mod_cast ZMod.val_lt _⟩ hq ?_
    rw [coeff_toPoly, List.getD_eq_getElem _ _ hi', Int.cast_natCast, ZMod.natCast_zmod_val]
  right_inv f := by
    refine Subtype.ext (Polynomial.ext fun i => ?_)
    rw [coeff_toPoly]
    by_cases hi : i < n
    · rw [List.getD_eq_getElem _ _ (by simpa using hi), List.getElem_map, List.getElem_range,
        Int.cast_natCast, ZMod.natCast_zmod_val]
    · rw [List.getD_eq_getElem?_getD, List.getElem?_eq_none (by simpa using hi), Option.getD_none,
        Int.cast_zero]
      exact (coeff_eq_zero_of_degree_lt ((mem_degreeLT.mp f.2).trans_le
        (by exact_mod_cast not_lt.mp hi))).symm

instance finite_degreeLT (n : ℕ) : Finite (degreeLT (ZMod q) n) :=
  Finite.of_equiv _ (degreeLTEquiv (ZMod q) n).toEquiv.symm

noncomputable def maskMap (q : ℕ) (setA setB : List Mpz) (m n : ℕ) :
    degreeLT (ZMod q) m × degreeLT (ZMod q) n →+ (ZMod q)[X] where
  toFun r := vanishing q setA * r.2.1 + r.1.1 * vanishing q setB
  map_zero' := by simp
  map_add' r s := by
    simp only [Prod.fst_add, Prod.snd_add, Submodule.coe_add]
    ring

theorem vanishing_eq_prod (xs : List Mpz) :
    vanishing q xs = (xs.map fun x : Mpz => X - C (x : ZMod q)).prod := by
  induction xs with
  | nil => simp [vanishing]
  | cons x xs ih =>
    rw [List.map_cons, List.prod_cons, ← ih, vanishing, List.length_cons,
      Finset.prod_range_succ', mul_comm]
    rfl

theorem monic_vanishing (xs : List Mpz) : (vanishing q xs).Monic :=
  monic_prod_of_monic _ _ fun _ _ => monic_X_sub_C _

theorem vanishing_filter (xs : List Mpz) (p : Mpz → Bool) :
    vanishing q (xs.filter p) * vanishing q (xs.filter fun x => !p x) = vanishing q xs := by
  rw [vanishing_eq_prod, vanishing_eq_prod, vanishing_eq_prod, ← List.prod_append,
    ← List.map_append]
  exact ((List.filter_append_perm p xs).map _).prod_eq

theorem vanishing_inter {setA setB : List Mpz} (hA : setA.Nodup) (hB : setB.Nodup) :
    vanishing q (setA.filter (· ∈ setB)) = vanishing q (setB.filter (· ∈ setA)) := by
  rw [vanishing_eq_prod, vanishing_eq_prod]
  refine List.Perm.prod_eq (List.Perm.map _ ?_)
  rw [List.perm_ext_iff_of_nodup (hA.filter _) (hB.filter _)]
  intro x
  rw [List.mem_filter, List.mem_filter, decide_eq_true_iff, decide_eq_true_iff]
  exact and_comm

theorem isCoprime_vanishing {xs ys : List Mpz} (hx : Reduced q xs) (hy : Reduced q ys)
    (h : ∀ x ∈ xs, x ∉ ys) : IsCoprime (vanishing q xs) (vanishing q ys) := by
  rw [vanishing, vanishing]
  refine IsCoprime.prod_left fun i hi => IsCoprime.prod_right fun j hj => ?_
  rw [Finset.mem_range] at hi hj
  refine isCoprime_X_sub_C_of_isUnit_sub (IsUnit.mk0 _ (sub_ne_zero.mpr fun heq => ?_))
  rw [List.getD_eq_getElem _ _ hi, List.getD_eq_getElem _ _ hj] at heq
  have hmem := List.getElem_mem hj
  rw [← eq_of_cast_eq (hx _ (List.getElem_mem hi)) (hy _ hmem) heq] at hmem
  exact h _ (List.getElem_mem hi) hmem

theorem natDegree_le_of_degree_lt {f : (ZMod q)[X]} {d : ℕ} (h : f.degree < (d + 1 : ℕ)) :
    f.natDegree ≤ d := by
  rw [natDegree_le_iff_coeff_eq_zero]
  intro i hi
  exact coeff_eq_zero_of_degree_lt (h.trans_le (by exact_mod_cast hi))

theorem degree_cofactor_lt {g h : (ZMod q)[X]} (hg : g.Monic) {m : ℕ}
    (hdeg : (g * h).degree < ((g.natDegree + m : ℕ) : WithBot ℕ)) : h.degree < (m : WithBot ℕ) := by
  by_cases h0 : h = 0
  · rw [h0, degree_zero]
    exact WithBot.bot_lt_coe _
  · rw [degree_mul, degree_eq_natDegree hg.ne_zero, degree_eq_natDegree h0] at hdeg
    rw [degree_eq_natDegree h0]
    have hnat : g.natDegree + h.natDegree < g.natDegree + m := by exact_mod_cast hdeg
    exact_mod_cast Nat.lt_of_add_lt_add_left hnat

theorem degree_masked_lt (setA setB : List Mpz) {r r' : (ZMod q)[X]}
    (hr : r.degree < (setA.length + 1 : ℕ)) (hr' : r'.degree < (setB.length + 1 : ℕ)) :
    (vanishing q setA * r' + r * vanishing q setB).degree <
      (setA.length + setB.length + 1 : ℕ) := by
  have h1 := natDegree_mul_le_of_le (natDegree_vanishing (q := q) setA).le
    (natDegree_le_of_degree_lt hr')
  have h2 := natDegree_mul_le_of_le (natDegree_le_of_degree_lt hr)
    (natDegree_vanishing (q := q) setB).le
  refine lt_of_le_of_lt degree_le_natDegree ?_
  exact_mod_cast Nat.lt_succ_of_le (natDegree_add_le_of_degree_le h1 h2)

/-- The views for a pair of sets come from the polynomials below the degree
bound that vanish on the intersection. -/
theorem mem_range_maskMap {setA setB : List Mpz} (hA : Reduced q setA ∧ setA.Nodup)
    (hB : Reduced q setB ∧ setB.Nodup) (f : (ZMod q)[X]) :
    f ∈ (maskMap q setA setB (setA.length + 1) (setB.length + 1)).range ↔
      vanishing q (setB.filter (· ∈ setA)) ∣ f ∧
        f.degree < (setA.length + setB.length + 1 : ℕ) := by
  have hsplitA := vanishing_filter (q := q) setA (· ∈ setB)
  have hsplitB := vanishing_filter (q := q) setB (· ∈ setA)
  rw [vanishing_inter hA.2 hB.2] at hsplitA
  set g := vanishing q (setB.filter (· ∈ setA)) with hg
  set a := vanishing q (setA.filter fun x => !decide (x ∈ setB)) with ha
  set b := vanishing q (setB.filter fun x => !decide (x ∈ setA)) with hb
  have hg0 : g.Monic := monic_vanishing _
  have hdegA : g.natDegree + a.natDegree = setA.length := by
    rw [← natDegree_vanishing (q := q) setA, ← hsplitA, hg0.natDegree_mul (monic_vanishing _)]
  have hdegB : g.natDegree + b.natDegree = setB.length := by
    rw [← natDegree_vanishing (q := q) setB, ← hsplitB, hg0.natDegree_mul (monic_vanishing _)]
  constructor
  · rintro ⟨⟨⟨r, hr⟩, ⟨r', hr'⟩⟩, rfl⟩
    rw [mem_degreeLT] at hr hr'
    refine ⟨?_, degree_masked_lt setA setB hr hr'⟩
    change g ∣ vanishing q setA * r' + r * vanishing q setB
    rw [← hsplitA, ← hsplitB]
    exact dvd_add (dvd_mul_of_dvd_left (dvd_mul_right _ _) _)
      (dvd_mul_of_dvd_right (dvd_mul_right _ _) _)
  · rintro ⟨⟨h, rfl⟩, hdeg⟩
    have hcop : IsCoprime a b := by
      refine isCoprime_vanishing (fun x hx => hA.1 x (List.mem_of_mem_filter hx))
        (fun x hx => hB.1 x (List.mem_of_mem_filter hx)) fun x hx hx' => ?_
      have hmem := List.mem_of_mem_filter hx'
      simp [hmem] at hx
    have hsum : setA.length + setB.length + 1 =
        g.natDegree + (a.natDegree + b.natDegree + g.natDegree + 1) := by omega
    rw [hsum] at hdeg
    have hh := degree_cofactor_lt hg0 hdeg
    obtain ⟨r, r', hr, hr', hcomb⟩ :=
      Bezout.exists_combination (monic_vanishing _) (monic_vanishing _) hcop hh
    refine ⟨⟨⟨r, mem_degreeLT.mpr (hr.trans_le ?_)⟩, ⟨r', mem_degreeLT.mpr (hr'.trans_le ?_)⟩⟩, ?_⟩
    · exact_mod_cast (by omega : a.natDegree + g.natDegree + 1 ≤ setA.length + 1)
    · exact_mod_cast (by omega : b.natDegree + g.natDegree + 1 ≤ setB.length + 1)
    · change vanishing q setA * r' + r * vanishing q setB = g * h
      rw [← hcomb, ← hsplitA, ← hsplitB]
      ring

/-- A permutation of the mask pairs that carries the polynomials of one sender
set to those of the other. -/
theorem exists_maskPerm {setA setA' setB : List Mpz} (hA : Reduced q setA ∧ setA.Nodup)
    (hA' : Reduced q setA' ∧ setA'.Nodup) (hB : Reduced q setB ∧ setB.Nodup)
    (hlen : setA.length = setA'.length) (hinter : ∀ x ∈ setB, x ∈ setA ↔ x ∈ setA') :
    ∃ e : Mask q (setA.length + 1) × Mask q (setB.length + 1) ≃
        Mask q (setA.length + 1) × Mask q (setB.length + 1),
      ∀ m, psiPolynomial q setA setB m.1.1 m.2.1 =
        psiPolynomial q setA' setB (e m).1.1 (e m).2.1 := by
  have hfilter : setB.filter (· ∈ setA) = setB.filter (· ∈ setA') :=
    List.filter_congr fun x hx => by rw [decide_eq_decide, hinter x hx]
  have hrange : (maskMap q setA setB (setA.length + 1) (setB.length + 1)).range =
      (maskMap q setA' setB (setA.length + 1) (setB.length + 1)).range := by
    ext f
    rw [mem_range_maskMap hA hB, hlen, mem_range_maskMap hA' hB, hfilter]
  obtain ⟨e, he⟩ := Fibers.exists_perm_of_range_eq hrange
  let masks := Equiv.prodCongr (maskEquiv (q := q) (setA.length + 1))
    (maskEquiv (q := q) (setB.length + 1))
  refine ⟨masks.trans (e.trans masks.symm), fun m => ?_⟩
  have hview : ∀ (xs : List Mpz) (m : Mask q (setA.length + 1) × Mask q (setB.length + 1)),
      psiPolynomial q xs setB m.1.1 m.2.1 = maskMap q xs setB _ _ (masks m) := fun _ _ => rfl
  rw [hview, hview, he, Equiv.trans_apply, Equiv.trans_apply, Equiv.apply_symm_apply]

section

variable {ZZp ZZpX : Type} {backendA backendB : Option (Mpz → Ntl ZZp ZZpX)} {envA envB : Env}
  {roleA roleB : String} {setA setA' setB rA rAPrime sA sAPrime : List Mpz}

theorem psiView_eq (hlibA : LawfulBackend backendA q) (hlibB : LawfulBackend backendB q)
    (hmode : nttRuntimeEnabled envA = nttRuntimeEnabled envB) {y y' : List Mpz}
    (hlen : setA.length = setA'.length)
    (hr : rA.length = setA.length + 1) (hr' : rAPrime.length = setB.length + 1)
    (hs : sA.length = setA'.length + 1) (hs' : sAPrime.length = setB.length + 1)
    (h : psiView backendA backendB envA envB roleA roleB setA setB rA rAPrime q = .ok y)
    (h' : psiView backendA backendB envA envB roleA roleB setA' setB sA sAPrime q = .ok y')
    (hpoly : psiPolynomial q setA setB rA rAPrime = psiPolynomial q setA' setB sA sAPrime) :
    y = y' := by
  obtain ⟨_, _, hcount, _, alpha, halpha, hred, hval⟩ := psiView_ok hlibA hlibB hmode hr hr' h
  obtain ⟨_, _, hcount', _, alpha', halpha', hred', hval'⟩ :=
    psiView_ok hlibA hlibB hmode hs hs' h'
  rw [← hlen] at hcount'
  have hylen : y.length = y'.length := psiOpaPointCount_unique rfl hcount hcount'
  rw [← hylen] at halpha' hval'
  obtain rfl : alpha = alpha' := by simpa using halpha.symm.trans halpha'
  refine List.ext_getElem hylen fun i hi hi' => ?_
  refine eq_of_cast_eq (hred _ (List.getElem_mem hi)) (hred' _ (List.getElem_mem hi')) ?_
  have hentry := (hval i hi).trans ((congrArg _ hpoly).trans (hval' i hi).symm)
  rwa [entry, entry, List.getD_eq_getElem _ _ hi, List.getD_eq_getElem _ _ hi'] at hentry

theorem psiView_transfer (hlibA : LawfulBackend backendA q) {y : List Mpz}
    (hlen : setA.length = setA'.length) (hA' : Reduced q setA' ∧ setA'.Nodup)
    (hr : rA.length = setA.length + 1) (hr' : rAPrime.length = setB.length + 1)
    (hs : sA.length = setA'.length + 1) (hs' : sAPrime.length = setB.length + 1)
    (h : psiView backendA backendB envA envB roleA roleB setA setB rA rAPrime q = .ok y) :
    ∃ y', psiView backendA backendB envA envB roleA roleB setA' setB sA sAPrime q = .ok y' := by
  have hq := (Fact.out : q.Prime).one_lt
  obtain ⟨sent, hsent, h⟩ := bind_eq_ok.mp h
  obtain ⟨xVals, hx, _⟩ := bind_eq_ok.mp h
  obtain ⟨n, hc⟩ := psiSender_config hq hlibA hr hr' hsent
  obtain ⟨⟨⟩, hvalid, _⟩ := bind_eq_ok.mp hsent
  have hpos := (cgValidateCount_ok.mp (validatePsiSet_ok.mp hvalid).1).1
  rw [hlen] at hc hpos hx
  obtain ⟨sent', hsent'⟩ :=
    psiSender_exists hlibA hc roleA (List.ne_nil_of_length_pos hpos) hA'.1 hA'.2 hs hs'
  refine ⟨oleOutputs sent'.aVals sent'.bVals xVals q, ?_⟩
  rw [psiView, hsent', ok_bind, hx, ok_bind]
  rfl

end

/-- Two sender sets of one size with one intersection with the receiver's set
give the receiver every view equally often: a bijection of the mask pairs
carries the view for the one to the view for the other. -/
theorem psiView_privacy {ZZp ZZpX : Type} {backendA backendB : Option (Mpz → Ntl ZZp ZZpX)}
    (hlibA : LawfulBackend backendA q) (hlibB : LawfulBackend backendB q) {envA envB : Env}
    (hmode : nttRuntimeEnabled envA = nttRuntimeEnabled envB) (roleA roleB : String)
    {setA setA' : List Mpz} (setB : List Mpz) (hA : Reduced q setA ∧ setA.Nodup)
    (hA' : Reduced q setA' ∧ setA'.Nodup) (hlen : setA.length = setA'.length)
    (hinter : ∀ x ∈ setB, x ∈ setA ↔ x ∈ setA') :
    (∃ e : Mask q (setA.length + 1) × Mask q (setB.length + 1) ≃
        Mask q (setA.length + 1) × Mask q (setB.length + 1),
      ∀ m y, psiView backendA backendB envA envB roleA roleB setA setB m.1.1 m.2.1 q = .ok y ↔
        psiView backendA backendB envA envB roleA roleB setA' setB (e m).1.1 (e m).2.1 q = .ok y) ∧
    ∀ y, Nat.card {m : Mask q (setA.length + 1) × Mask q (setB.length + 1) //
        psiView backendA backendB envA envB roleA roleB setA setB m.1.1 m.2.1 q = .ok y} =
      Nat.card {m : Mask q (setA.length + 1) × Mask q (setB.length + 1) //
        psiView backendA backendB envA envB roleA roleB setA' setB m.1.1 m.2.1 q = .ok y} := by
  have hperm : ∃ e : Mask q (setA.length + 1) × Mask q (setB.length + 1) ≃
        Mask q (setA.length + 1) × Mask q (setB.length + 1),
      ∀ m y, psiView backendA backendB envA envB roleA roleB setA setB m.1.1 m.2.1 q = .ok y ↔
        psiView backendA backendB envA envB roleA roleB setA' setB (e m).1.1 (e m).2.1 q = .ok y := by
    by_cases hB : Reduced q setB ∧ setB.Nodup
    · obtain ⟨e, he⟩ := exists_maskPerm hA hA' hB hlen hinter
      refine ⟨e, fun m y => ?_⟩
      have hr := m.1.2.1
      have hr' := m.2.2.1
      have hs : (e m).1.1.length = setA'.length + 1 := (e m).1.2.1.trans (by rw [hlen])
      have hs' := (e m).2.2.1
      constructor
      · intro h
        obtain ⟨y', h'⟩ := psiView_transfer hlibA hlen hA' hr hr' hs hs' h
        rwa [psiView_eq hlibA hlibB hmode hlen hr hr' hs hs' h h' (he m)]
      · intro h
        obtain ⟨y', h'⟩ := psiView_transfer hlibA hlen.symm hA hs hs' hr hr' h
        rwa [psiView_eq hlibA hlibB hmode hlen.symm hs hs' hr hr' h h' (he m).symm]
    · -- an invalid receiver set gives no view at all
      refine ⟨Equiv.refl _, fun m y => ⟨fun h => ?_, fun h => ?_⟩⟩
      · exact absurd (psiView_ok hlibA hlibB hmode m.1.2.1 m.2.2.1 h).2.1 hB
      · exact absurd (psiView_ok hlibA hlibB hmode (m.1.2.1.trans (by rw [hlen])) m.2.2.1 h).2.1 hB
  obtain ⟨e, he⟩ := hperm
  exact ⟨⟨e, he⟩, fun y => Nat.card_congr (e.subtypeEquiv fun m => he m y)⟩

theorem psiView_privacy_exchange : ∃ e : Mask 7 3 × Mask 7 4 ≃ Mask 7 3 × Mask 7 4,
    ∀ m y, psiView builtIn builtIn (fun _ => none) (fun _ => none) "cg_psi_sender" "cg_psi_receiver"
        [3, 5] [1, 3, 4] m.1.1 m.2.1 (7 : ℕ) = .ok y ↔
      psiView builtIn builtIn (fun _ => none) (fun _ => none) "cg_psi_sender" "cg_psi_receiver"
        [3, 6] [1, 3, 4] (e m).1.1 (e m).2.1 (7 : ℕ) = .ok y := by
  have : Fact (Nat.Prime 7) := ⟨by decide⟩
  have hlib := lawfulBackend_builtIn 7
  have hA : Reduced (7 : ℕ) [3, 5] ∧ ([3, 5] : List Mpz).Nodup := by decide
  have hA' : Reduced (7 : ℕ) [3, 6] ∧ ([3, 6] : List Mpz).Nodup := by decide
  exact (psiView_privacy (q := 7) hlib hlib rfl _ _ [1, 3, 4] hA hA' rfl (by decide)).1

end

end RfClassGroups
