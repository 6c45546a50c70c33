import RfClassGroups.Horner
import RfClassGroups.Lib.Buffer
import RfClassGroups.PsiPrivacy

/-! Oblivious polynomial evaluation: a degree-`d` polynomial is evaluated by `d`
linear evaluations at one point, each a masked transition of Horner's rule. -/

open CoeffList ExceptList Loops Buffer MaskedHorner

namespace RfClassGroups

structure OpeSenderLoop where
  sPrev : Mpz
  aVals : List Mpz
  bVals : List Mpz

/-- `rho` lists the values that `random_mpz` returns; pass `k` is the source's
`i = k + 1`. -/
def buildOpeSenderOleInputs (coeffs : List Mpz) (q : Mpz) (rho : List Mpz) :
    Except String (List Mpz × List Mpz) :=
  if coeffs.length < 2 then throw "OPE requires degree >= 1"
  else
    let d := coeffs.length - 1
    let st := (List.range (d - 1)).foldl (fun (st : OpeSenderLoop) k =>
        ⟨rho.getD k 0, st.aVals.set k st.sPrev,
          st.bVals.set k (subMod (coeffs.getD (d - (k + 1)) 0) (rho.getD k 0) q)⟩)
      ⟨coeffs.getD d 0, List.replicate d 0, List.replicate d 0⟩
    return (st.aVals.set (d - 1) st.sPrev, st.bVals.set (d - 1) (coeffs.getD 0 0))

def finishOpeReceiver (yVals : List Mpz) (alpha q : Mpz) : Except String Mpz :=
  if yVals = [] then throw "OPE requires at least one OLE output"
  else
    let sB := (List.range (yVals.length - 1)).foldl
      (fun sB i => addMod (yVals.getD i 0) (mulMod alpha sB q) q) 0
    return addMod (yVals.getLastD 0) (mulMod alpha sB q) q

/-- The receiver's view: one OLE at `alpha` for each pair of the sender. -/
def opeView (coeffs : List Mpz) (alpha q : Mpz) (rho : List Mpz) : Except String (List Mpz) := do
  let (aVals, bVals) ← buildOpeSenderOleInputs coeffs q rho
  return oleOutputs aVals bVals (List.replicate aVals.length alpha) q

def opeA (coeffs : List Mpz) (rho : List Mpz) (d k : ℕ) : Mpz :=
  match k with
  | 0 => coeffs.getD d 0
  | k + 1 => rho.getD k 0

def opeB (coeffs : List Mpz) (q : Mpz) (rho : List Mpz) (d k : ℕ) : Mpz :=
  if k + 1 = d then coeffs.getD 0 0 else subMod (coeffs.getD (d - (k + 1)) 0) (rho.getD k 0) q

variable {coeffs : List Mpz} {d : ℕ}

theorem buildOpeSenderOleInputs_eq (hd : 1 ≤ d) (hc : coeffs.length = d + 1) (q : Mpz)
    (rho : List Mpz) : buildOpeSenderOleInputs coeffs q rho =
      .ok ((List.range d).map (opeA coeffs rho d), (List.range d).map (opeB coeffs q rho d)) := by
  obtain ⟨m, rfl⟩ : ∃ m, d = m + 1 := ⟨d - 1, by omega⟩
  have hinv := foldl_range_inv
    (fun k (st : OpeSenderLoop) => st = ⟨opeA coeffs rho (m + 1) k,
      filled (opeA coeffs rho (m + 1)) (List.replicate (m + 1) 0) 0 k,
      filled (opeB coeffs q rho (m + 1)) (List.replicate (m + 1) 0) 0 k⟩)
    (fun st k => ⟨rho.getD k 0, st.aVals.set k st.sPrev,
      st.bVals.set k (subMod (coeffs.getD (m + 1 - (k + 1)) 0) (rho.getD k 0) q)⟩)
    ⟨coeffs.getD (m + 1) 0, List.replicate (m + 1) 0, List.replicate (m + 1) 0⟩ m
    (by rw [filled_self, filled_self]; rfl) fun k st hk hst => ?_
  · rw [buildOpeSenderOleInputs, if_neg (by omega)]
    simp only [hc, Nat.add_sub_cancel, hinv]
    have hB : coeffs.getD 0 0 = opeB coeffs q rho (m + 1) m := (if_pos rfl).symm
    rw [hB, filled_set, filled_set, filled_append _ _ m.zero_le m.le_succ,
      filled_append _ _ m.zero_le m.le_succ, filled_all, filled_all]
    rfl
  · subst hst
    have hB : subMod (coeffs.getD (m + 1 - (k + 1)) 0) (rho.getD k 0) q =
        opeB coeffs q rho (m + 1) k := (if_neg (by omega)).symm
    rw [hB, filled_set, filled_set, filled_append _ _ k.zero_le k.le_succ,
      filled_append _ _ k.zero_le k.le_succ]
    rfl

section

variable {n : ℕ}

theorem cast_opeA (coeffs rho : List Mpz) (d k : ℕ) :
    ((opeA coeffs rho d k : ℤ) : ZMod n) = chain (fromTop n coeffs d) (entry (ZMod n) rho) k := by
  cases k with
  | zero => rfl
  | succ k => rfl

theorem cast_opeB_of_lt (coeffs rho : List Mpz) {d k : ℕ} (hk : k + 1 < d) :
    ((opeB coeffs n rho d k : ℤ) : ZMod n) =
      fromTop n coeffs d (k + 1) - entry (ZMod n) rho k := by
  rw [opeB, if_neg hk.ne, cast_subMod]
  rfl

theorem opeView_eq (hd : 1 ≤ d) (hc : coeffs.length = d + 1) (alpha q : Mpz) (rho : List Mpz) :
    opeView coeffs alpha q rho = .ok ((List.range d).map fun k =>
      (opeA coeffs rho d k * alpha + opeB coeffs q rho d k) % q) := by
  rw [opeView, buildOpeSenderOleInputs_eq hd hc, ok_bind]
  refine congrArg Except.ok ?_
  simp only [oleOutputs, List.length_map, List.length_range, List.length_replicate]
  refine List.map_congr_left fun k hk => ?_
  have hk' := List.mem_range.mp hk
  simp [hk']

variable {y : List Mpz} {alpha : Mpz}

theorem entry_opeView (hd : 1 ≤ d) (hc : coeffs.length = d + 1) {rho : List Mpz}
    (h : opeView coeffs alpha n rho = .ok y) {k : ℕ} (hk : k + 1 < d) :
    entry (ZMod n) y k = output (fromTop n coeffs d) (alpha : ZMod n) (entry (ZMod n) rho) k := by
  rw [opeView_eq hd hc, Except.ok.injEq] at h
  subst h
  have hk' : k < d := by omega
  rw [output, ← cast_opeA, add_sub_assoc, ← cast_opeB_of_lt coeffs rho hk]
  simp [entry, hk']

theorem entry_opeView_last (hc : coeffs.length = d + 2) {rho : List Mpz}
    (h : opeView coeffs alpha n rho = .ok y) :
    entry (ZMod n) y d = chain (fromTop n coeffs (d + 1)) (entry (ZMod n) rho) d * alpha +
      fromTop n coeffs (d + 1) (d + 1) := by
  rw [opeView_eq (d := d + 1) (by omega) hc, Except.ok.injEq] at h
  subst h
  rw [← cast_opeA]
  simp [entry, fromTop, opeB]

theorem length_opeView (hd : 1 ≤ d) (hc : coeffs.length = d + 1) {rho : List Mpz} {q : Mpz}
    (h : opeView coeffs alpha q rho = .ok y) : y.length = d := by
  rw [opeView_eq hd hc, Except.ok.injEq] at h
  simp [← h]

theorem reduced_opeView {q : Mpz} (hq : 0 < q) (hd : 1 ≤ d) (hc : coeffs.length = d + 1)
    {rho : List Mpz} (h : opeView coeffs alpha q rho = .ok y) : Reduced q y := by
  rw [opeView_eq hd hc, Except.ok.injEq] at h
  exact h ▸ reduced_map_emod hq _ _

theorem finishOpeReceiver_spec (hn : 0 < n) (hy : y.length = d + 1) (alpha : Mpz) :
    ∃ v, finishOpeReceiver y alpha n = .ok v ∧ (0 ≤ v ∧ v < n) ∧
      (v : ZMod n) = entry (ZMod n) y d + alpha * unmask (alpha : ZMod n) (entry (ZMod n) y) d := by
  have hne : y ≠ [] := List.ne_nil_of_length_pos (by omega)
  have hn' : (0 : Mpz) < n := by exact_mod_cast hn
  have hfold := foldl_range_inv
    (fun k (sB : Mpz) => (sB : ZMod n) = unmask (alpha : ZMod n) (entry (ZMod n) y) k)
    (fun sB i => addMod (y.getD i 0) (mulMod alpha sB n) n) 0 d (by simp [unmask])
    fun k sB _ hsB => by
      rw [cast_addMod, cast_mulMod, hsB]
      rfl
  have hlast : y.getLastD 0 = y.getD d 0 := by
    rw [List.getLastD_eq_getLast?, List.getLast?_eq_getElem?, hy]
    rfl
  refine ⟨_, by rw [finishOpeReceiver, if_neg hne, hy]; rfl, emod_range hn' _, ?_⟩
  show ((addMod (y.getLastD 0) (mulMod alpha _ n) n : ℤ) : ZMod n) = _
  rw [cast_addMod, cast_mulMod, hlast, Nat.add_sub_cancel, hfold]
  rfl

/-- What the receiver ends with depends on the view through the state of Horner's rule. -/
theorem opeView_finish (hc : coeffs.length = d + 2) {rho : List Mpz}
    (h : opeView coeffs alpha n rho = .ok y) :
    entry (ZMod n) y d + alpha * unmask (alpha : ZMod n) (entry (ZMod n) y) d =
      horner (fromTop n coeffs (d + 1)) (alpha : ZMod n) (d + 1) := by
  have hmasked : unmask (alpha : ZMod n) (entry (ZMod n) y) d =
      unmask (alpha : ZMod n) (output (fromTop n coeffs (d + 1)) (alpha : ZMod n)
        (entry (ZMod n) rho)) d := by
    apply unmask_congr
    intro k hk
    exact entry_opeView (by omega) hc h (by omega)
  rw [entry_opeView_last hc h, hmasked, unmask_last]

end

/-- The receiver ends with the value of the sender's polynomial, whatever the masks. -/
theorem finishOpeReceiver_correct {q : Mpz} (hq : 2 ≤ q) (hd : 1 ≤ d)
    (hc : coeffs.length = d + 1) (alpha : Mpz) (rho : List Mpz) :
    ∃ aVals bVals, buildOpeSenderOleInputs coeffs q rho = .ok (aVals, bVals) ∧
      aVals.length = d ∧ bVals.length = d ∧
      (∀ yVals : List Mpz, yVals.length = d →
        (∀ i < d, yVals.getD i 0 = (aVals.getD i 0 * alpha + bVals.getD i 0) % q) →
        finishOpeReceiver yVals alpha q =
          .ok ((∑ j ∈ Finset.range (d + 1), coeffs.getD j 0 * alpha ^ j) % q)) ∧
      evalPolyHorner coeffs alpha q =
        (∑ j ∈ Finset.range (d + 1), coeffs.getD j 0 * alpha ^ j) % q := by
  obtain ⟨n, rfl⟩ := Int.eq_ofNat_of_zero_le (zero_le_two.trans hq)
  obtain ⟨m, rfl⟩ : ∃ m, d = m + 1 := ⟨d - 1, by omega⟩
  have hn : 0 < n := by exact_mod_cast zero_lt_two.trans_le hq
  have hn' : (0 : Mpz) < n := by exact_mod_cast hn
  have hsum := (horner_fromTop (n := n) coeffs (m + 1) alpha).trans (cast_emod_self _).symm
  refine ⟨_, _, buildOpeSenderOleInputs_eq hd hc n rho, by simp, by simp, fun y hy hyi => ?_, ?_⟩
  · have hview : opeView coeffs alpha n rho = .ok y := by
      rw [opeView_eq hd hc]
      refine congrArg Except.ok (List.ext_getElem (by simp [hy]) fun i _ hi => ?_)
      have hyd : i < m + 1 := hy ▸ hi
      rw [← List.getD_eq_getElem y 0 hi, hyi i hyd]
      simp [hyd]
    obtain ⟨v, hv, hrange, hcast⟩ := finishOpeReceiver_spec hn hy alpha
    rw [opeView_finish hc hview, hsum] at hcast
    rw [hv, eq_of_cast_eq hrange (emod_range hn' _) hcast]
  · exact evalPolyHorner_eq hn' hc alpha

theorem finishOpeReceiver_correct_cubic :
    ∃ aVals bVals, buildOpeSenderOleInputs [3, 5, 2, 4] 7 [1, 5] = .ok (aVals, bVals) ∧
      aVals.length = 3 ∧ bVals.length = 3 ∧
      (∀ yVals : List Mpz, yVals.length = 3 →
        (∀ i < 3, yVals.getD i 0 = (aVals.getD i 0 * 6 + bVals.getD i 0) % 7) →
        finishOpeReceiver yVals 6 7 =
          .ok ((∑ j ∈ Finset.range (3 + 1), [3, 5, 2, 4].getD j 0 * 6 ^ j) % 7)) ∧
      evalPolyHorner [3, 5, 2, 4] 6 7 =
        (∑ j ∈ Finset.range (3 + 1), [3, 5, 2, 4].getD j 0 * 6 ^ j) % 7 :=
  finishOpeReceiver_correct (by decide) (by decide) rfl 6 [1, 5]

section

variable {q : ℕ}

noncomputable def maskOf [NeZero q] (n : ℕ) (f : ℕ → ZMod q) : Mask q n :=
  ⟨(List.range n).map fun k => ((f k).val : ℤ), by simp, by
    intro c hc
    obtain ⟨k, _, rfl⟩ := List.mem_map.mp hc
    exact ⟨Int.natCast_nonneg _, by exact_mod_cast ZMod.val_lt _⟩⟩

theorem entry_maskOf [NeZero q] {n : ℕ} (f : ℕ → ZMod q) {k : ℕ} (hk : k < n) :
    entry (ZMod q) (maskOf n f).1 k = f k := by
  simp [entry, maskOf, hk]

theorem reduced_ext {a b : List Mpz} (hlen : a.length = b.length) (ha : Reduced q a)
    (hb : Reduced q b) (h : ∀ k < a.length, entry (ZMod q) a k = entry (ZMod q) b k) : a = b := by
  refine List.ext_getElem hlen fun k hk hk' => ?_
  have hh := h k hk
  rw [entry, entry, List.getD_eq_getElem _ _ hk, List.getD_eq_getElem _ _ hk'] at hh
  exact eq_of_cast_eq (ha _ (List.getElem_mem hk)) (hb _ (List.getElem_mem hk')) hh

variable {c c' : List Mpz}

theorem opeView_existsUnique [NeZero q] (hc : c.length = d + 2) (alpha : Mpz) (v : Mask q d) :
    ∃! rho : Mask q d, ∃ y, opeView c alpha q rho.1 = .ok y ∧ y.take d = v.1 := by
  have hq : (0 : Mpz) < q := by exact_mod_cast NeZero.pos q
  have hview := fun rho : Mask q d => opeView_eq (d := d + 1) (by omega) hc alpha q rho.1
  have hshown : ∀ rho : Mask q d, (∃ y, opeView c alpha q rho.1 = .ok y ∧ y.take d = v.1) ↔
      ∀ k < d, output (fromTop q c (d + 1)) (alpha : ZMod q) (entry (ZMod q) rho.1) k =
        entry (ZMod q) v.1 k := by
    intro rho
    have hentry := fun k (hk : k < d) =>
      entry_opeView (by omega) hc (hview rho) (show k + 1 < d + 1 by omega)
    constructor
    · rintro ⟨y, hy, htake⟩ k hk
      rw [hview rho, Except.ok.injEq] at hy
      rw [← hentry k hk, hy, entry, entry, ← htake, List.getD_eq_getElem?_getD,
        List.getD_eq_getElem?_getD, List.getElem?_take_of_lt hk]
    · intro hout
      refine ⟨_, hview rho, reduced_ext (by simp [v.2.1]) ?_ v.2.2 fun k hk => ?_⟩
      · exact fun x hx => reduced_map_emod hq _ _ x (List.mem_of_mem_take hx)
      · have hkd : k < d := by simpa using hk
        rw [← hout k hkd, ← hentry k hkd, entry, entry, List.getD_eq_getElem?_getD,
          List.getD_eq_getElem?_getD, List.getElem?_take_of_lt hkd]
  let masks := fun k => enter (fromTop q c (d + 1)) (alpha : ZMod q) (entry (ZMod q) v.1) (k + 1)
  refine ⟨maskOf d masks, (hshown _).mpr fun k hk => ?_, fun rho hrho => ?_⟩
  · exact output_enter _ _ (fun j hj => entry_maskOf masks hj) hk
  · refine Subtype.ext (reduced_ext (rho.2.1.trans (maskOf d _).2.1.symm) rho.2.2 (maskOf d _).2.2
      fun k hk => ?_)
    have hkd : k < d := rho.2.1 ▸ hk
    have hmask := mask_eq_enter (fromTop q c (d + 1)) (alpha : ZMod q) ((hshown rho).mp hrho) hkd
    rw [hmask, entry_maskOf masks hkd]

theorem opeView_ext [NeZero q] (hc : c.length = d + 2) (hc' : c'.length = d + 2) {alpha : Mpz}
    (heval : evalPolyHorner c alpha q = evalPolyHorner c' alpha q) {rho rho' y y' : List Mpz}
    (h : opeView c alpha q rho = .ok y) (h' : opeView c' alpha q rho' = .ok y') :
    y = y' ↔ y.take d = y'.take d := by
  have hq : (0 : Mpz) < q := by exact_mod_cast NeZero.pos q
  have hlen := length_opeView (by omega) hc h
  have hlen' := length_opeView (by omega) hc' h'
  refine ⟨fun hy => hy ▸ rfl, fun htake => ?_⟩
  have hentry : ∀ k < d, entry (ZMod q) y k = entry (ZMod q) y' k := by
    intro k hk
    have hh := congrArg (fun l : List Mpz => l.getD k 0) htake
    simp only [List.getD_eq_getElem?_getD, List.getElem?_take_of_lt hk] at hh
    rw [entry, entry, List.getD_eq_getElem?_getD, List.getD_eq_getElem?_getD, hh]
  refine reduced_ext (hlen.trans hlen'.symm) (reduced_opeView hq (by omega) hc h)
    (reduced_opeView hq (by omega) hc' h') fun k hk => ?_
  by_cases hkd : k < d
  · exact hentry k hkd
  · obtain rfl : k = d := by omega
    have hfin := opeView_finish hc h
    have hfin' := opeView_finish hc' h'
    rw [← (evalPolyHorner_spec (NeZero.pos q) hc alpha).2, heval,
      (evalPolyHorner_spec (NeZero.pos q) hc' alpha).2, ← hfin', unmask_congr _ hentry] at hfin
    exact add_right_cancel hfin

/-- The view depends on the sender's polynomial through its value only: with the
masks in bijection, and the masked entries taking each value once. -/
theorem opeView_privacy (hq : q.Prime) (hd : 1 ≤ d) (hc : c.length = d + 1)
    (hc' : c'.length = d + 1) (alpha : Mpz)
    (heval : evalPolyHorner c alpha q = evalPolyHorner c' alpha q) :
    (∀ rho : Mask q (d - 1), ∃! rho' : Mask q (d - 1),
      ∃ y, opeView c alpha q rho.1 = .ok y ∧ opeView c' alpha q rho'.1 = .ok y) ∧
    ∀ v : Mask q (d - 1), ∃! rho : Mask q (d - 1),
      ∃ y, opeView c alpha q rho.1 = .ok y ∧ y.take (d - 1) = v.1 := by
  obtain ⟨m, rfl⟩ : ∃ m, d = m + 1 := ⟨d - 1, by omega⟩
  have : NeZero q := ⟨hq.ne_zero⟩
  refine ⟨fun rho => ?_, opeView_existsUnique hc alpha⟩
  obtain ⟨y, hy⟩ : ∃ y, opeView c alpha q rho.1 = .ok y := ⟨_, opeView_eq hd hc alpha q rho.1⟩
  have hlen := length_opeView hd hc hy
  have hred := reduced_opeView (by exact_mod_cast hq.pos) hd hc hy
  have hmatch : ∀ rho' : Mask q m,
      (∃ z, opeView c alpha q rho.1 = .ok z ∧ opeView c' alpha q rho'.1 = .ok z) ↔
        ∃ z, opeView c' alpha q rho'.1 = .ok z ∧ z.take m = y.take m := by
    intro rho'
    constructor
    · rintro ⟨z, hz, hz'⟩
      rw [hy, Except.ok.injEq] at hz
      exact ⟨z, hz', hz ▸ rfl⟩
    · rintro ⟨z, hz, htake⟩
      exact ⟨z, (opeView_ext hc hc' heval hy hz).mpr htake.symm ▸ hy, hz⟩
  simp only [hmatch]
  exact opeView_existsUnique hc' alpha ⟨y.take m, by simp [hlen],
    fun x hx => hred x (List.mem_of_mem_take hx)⟩

theorem opeView_privacy_cubic :
    (∀ rho : Mask 7 (3 - 1), ∃! rho' : Mask 7 (3 - 1),
      ∃ y, opeView [3, 5, 2, 4] 6 (7 : ℕ) rho.1 = .ok y ∧
        opeView [3, 0, 0, 0] 6 (7 : ℕ) rho'.1 = .ok y) ∧
    ∀ v : Mask 7 (3 - 1), ∃! rho : Mask 7 (3 - 1),
      ∃ y, opeView [3, 5, 2, 4] 6 (7 : ℕ) rho.1 = .ok y ∧ y.take (3 - 1) = v.1 :=
  opeView_privacy (by decide) (by decide) rfl rfl 6 (by decide)

end

end RfClassGroups
