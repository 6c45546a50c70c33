import RfClassGroups.GenerateSets
import RfClassGroups.Psi2Reveal
import RfClassGroups.PsiRun

/-! The benchmarks of PSI on generated files: both endpoints read their file, the parties with
an output write it, and the checker compares it with the true intersection. -/

open Polynomial CoeffList ExceptList

namespace RfClassGroups

/-- The exit code of `check_correctness.py`. -/
def checkCorrectness (maxDigits : ℕ) (trueFile receiverOutputFile : String × List Char) : ℕ :=
  match (do
    let trueSet ← readSet maxDigits trueFile.1 trueFile.2
    let receiverSet ← readSet maxDigits receiverOutputFile.1 receiverOutputFile.2
    return checkOne trueSet receiverSet : Except String Bool) with
  | .ok okay => if okay then 0 else 1
  | .error _ => 1

section

variable {ZZp ZZpX : Type} (backendA backendB : Option (Mpz → Ntl ZZp ZZpX))

/-- The processes of `run_2pc_direct_psi.sh` after `generate_sets.py`, up to the check. -/
def directPsi (envA envB : Env) (maxDigits : ℕ) (files : GenerateSets.SetFiles)
    (rA rAPrime : List Mpz) (q : Mpz) : Except String ℕ := do
  let setA ← readMpzListFile envA "set_A.txt" (some files.fileA) q "psi_sender"
  let setB ← readMpzListFile envB "set_B.txt" (some files.fileB) q "psi_receiver"
  let intersection ← psiRun backendA backendB envA envB "cg_psi_sender" "cg_psi_receiver" setA setB
    rA rAPrime q
  return checkCorrectness maxDigits ("true_intersection.txt", files.fileTrue)
    ("intersection_out.txt", outputFile (intersection.map Int.toNat))

/-- The same for `run_2pc_direct_psi2.sh`, with both outputs. -/
def directPsi2 (envA envB : Env) (maxDigits : ℕ) (files : GenerateSets.SetFiles)
    (rA rAPrime : List Mpz) (q : Mpz) : Except String ℕ := do
  let setA ← readMpzListFile envA "set_A.txt" (some files.fileA) q "psi2_sender"
  let setB ← readMpzListFile envB "set_B.txt" (some files.fileB) q "psi2_receiver"
  let intersection ← psiRun backendA backendB envA envB "cg_psi2_sender" "cg_psi2_receiver" setA setB
    rA rAPrime q
  let kept ← psi2DirectReveal setA.length setB.length intersection setA
  return checkPsi2 maxDigits ("true_intersection.txt", files.fileTrue)
    ("psi2_A_intersection.txt", outputFile (kept.map Int.toNat))
    ("psi2_B_intersection.txt", outputFile (intersection.map Int.toNat))

end

section

variable {env : Env} {maxDigits limit : ℕ} {path role : String} {text : List Char} {q : Mpz}
  {values : List Mpz} {s : Finset ℕ}

theorem readMpzListFile_valid (hlimit : cgMaxItems env = .ok limit)
    (h : readMpzListFile env path (some text) q role = .ok values) :
    values ≠ [] ∧ Reduced q values ∧ values.Nodup := by
  have hfile := (readMpzListFile_ok hlimit).mp h
  exact ⟨hfile.valid.1, hfile.valid.2, hfile.distinct⟩

theorem natCast_mem_iff (hs : values.toFinset = s.image fun n : ℕ => (n : Mpz)) (v : ℕ) :
    (v : Mpz) ∈ values ↔ v ∈ s := by
  rw [← List.mem_toFinset, hs, Finset.mem_image]
  constructor
  · rintro ⟨w, hw, h⟩
    rwa [← Int.ofNat_inj.mp h]
  · exact fun hv => ⟨v, hv, rfl⟩

theorem length_eq_card (hs : values.toFinset = s.image fun n : ℕ => (n : Mpz))
    (hnodup : values.Nodup) : values.length = s.card := by
  rw [← List.toFinset_card_of_nodup hnodup, hs, Finset.card_image_of_injective s Nat.cast_injective]

theorem mem_map_toNat (hred : Reduced q values) (v : ℕ) :
    v ∈ values.map Int.toNat ↔ (v : Mpz) ∈ values := by
  rw [List.mem_map]
  constructor
  · rintro ⟨w, hw, rfl⟩
    rwa [Int.toNat_of_nonneg (hred w hw).1]
  · exact fun hv => ⟨v, hv, Int.toNat_natCast v⟩

theorem nodup_map_toNat (hred : Reduced q values) (hnodup : values.Nodup) :
    (values.map Int.toNat).Nodup := by
  apply hnodup.map_on
  intro v hv w hw h
  rw [← Int.toNat_of_nonneg (hred v hv).1, h, Int.toNat_of_nonneg (hred w hw).1]

theorem checkCorrectness_zero {truePath : String} {expected : Finset ℕ} {out : List ℕ}
    (htrue : readSet maxDigits truePath text = .ok expected)
    (hfit : ∀ v ∈ out, DigitsFit maxDigits (Nat.toDigits 10 v)) (hnodup : out.Nodup) :
    checkCorrectness maxDigits (truePath, text) (path, outputFile out) = 0 ↔
      expected = out.toFinset := by
  have hexit : ∀ b : Bool, (if b then 0 else 1 : ℕ) = 0 ↔ b = true := by decide
  rw [checkCorrectness]
  dsimp only
  rw [htrue, ok_bind, readSet_outputFile hfit hnodup, ok_bind, pure_eq_ok, checkOne_eq]
  dsimp only
  rw [hexit, decide_eq_true_eq]

end

/-- The sets of both parties and the receiver's output in a run on generated files. -/
structure GeneratedRun (a b : Finset ℕ) (q : Mpz) (rAPrime setA setB out : List Mpz) : Prop where
  mem_setA : ∀ v : ℕ, (v : Mpz) ∈ setA ↔ v ∈ a
  length_setA : setA.length = a.card
  length_setB : setB.length = b.card
  mem_out : ∀ v : ℕ, (v : Mpz) ∈ out ↔ v ∈ b ∧ (v ∈ a ∨ polyValue rAPrime q v = 0)
  nodup : out.Nodup
  reduced : Reduced q out

section

variable {ZZp ZZpX : Type} {backendA backendB : Option (Mpz → Ntl ZZp ZZpX)} {q : ℕ}
  {envA envB : Env} {maxDigits n coeffThreshold hornerMax : ℕ}
  {files : GenerateSets.SetFiles} {bound : Mpz} {a b : Finset ℕ} {rA rAPrime setA setB out : List Mpz}

theorem psiRun_generated [Fact q.Prime] (hlibA : LawfulBackend backendA q)
    (hlibB : LawfulBackend backendB q) (hfiles : files.Known maxDigits bound a b) (hbound : bound ≤ q)
    (ha : a.Nonempty) (hb : b.Nonempty) (hcA : PsiConfig backendA envA q a.card b.card n)
    (hcB : PsiConfig backendB envB q a.card b.card n)
    (hcoeff : psiLagrangeToCoeffThreshold envB = .ok coeffThreshold)
    (hh : polyEvalAutoHornerMaxPoints envB = .ok hornerMax) (hm : polyEvalMethodEnv envB ≠ "ntt")
    (hmode : nttRuntimeEnabled envA = nttRuntimeEnabled envB)
    (hr : rA.length = a.card + 1) (hr' : rAPrime.length = b.card + 1)
    (readA readB roleA roleB : String) :
    ∃ setA setB out, readMpzListFile envA "set_A.txt" (some files.fileA) q readA = .ok setA ∧
      readMpzListFile envB "set_B.txt" (some files.fileB) q readB = .ok setB ∧
      psiRun backendA backendB envA envB roleA roleB setA setB rA rAPrime q = .ok out ∧
      GeneratedRun a b q rAPrime setA setB out := by
  obtain ⟨limitA, hlimitA, -, hleA, hnA⟩ := psiPointCount_bounds hcA.count
  obtain ⟨limitB, hlimitB, -, hleB, hnB⟩ := psiPointCount_bounds hcB.count
  obtain ⟨setA, hreadA, hsetA⟩ := hfiles.holdsA.endpoint envA limitA "set_A.txt" readA q
    hlimitA ha (by omega) hbound
  obtain ⟨setB, hreadB, hsetB⟩ := hfiles.holdsB.endpoint envB limitB "set_B.txt" readB q
    hlimitB hb (by omega) hbound
  have hA := readMpzListFile_valid hlimitA hreadA
  have hB := readMpzListFile_valid hlimitB hreadB
  have hlenA := length_eq_card hsetA hA.2.2
  have hlenB := length_eq_card hsetB hB.2.2
  rw [← hlenA, ← hlenB] at hcA hcB
  rw [← hlenA] at hr
  rw [← hlenB] at hr'
  obtain ⟨out, hrun⟩ := psiRun_exists hlibA hlibB hcA hcB hcoeff hh hm roleA roleB hA hB hr hr'
  obtain ⟨-, hout⟩ := psiRun_zeros hlibA hlibB hmode hr hr' hrun
  have hsub : out.Sublist setB := by
    rw [hout]
    exact List.filter_sublist
  refine ⟨setA, setB, out, hreadA, hreadB, hrun, natCast_mem_iff hsetA, hlenA, hlenB, ?_,
    hB.2.2.sublist hsub, fun v hv => hB.2.1 v (hsub.subset hv)⟩
  intro v
  rw [hout, List.mem_filter, natCast_mem_iff hsetB]
  apply and_congr_right
  intro hv
  rw [beq_iff_eq, Int.natCast_eq_zero, ZMod.val_eq_zero,
    psiPolynomial_eval_zero hA.2.1 hB.2.1 ((natCast_mem_iff hsetB v).mpr hv), natCast_mem_iff hsetA]

theorem GeneratedRun.mem_output (h : GeneratedRun a b q rAPrime setA setB out) (v : ℕ) :
    v ∈ out.map Int.toNat ↔ v ∈ b ∧ (v ∈ a ∨ polyValue rAPrime q v = 0) := by
  rw [mem_map_toNat h.reduced, h.mem_out]

theorem GeneratedRun.output_eq (h : GeneratedRun a b q rAPrime setA setB out) :
    (out.map Int.toNat).toFinset = a ∩ b ↔ ∀ v ∈ b, v ∉ a → polyValue rAPrime q v ≠ 0 := by
  simp only [Finset.ext_iff, Finset.mem_inter, List.mem_toFinset, h.mem_output]
  constructor
  · intro heq v hv hva hroot
    exact hva ((heq v).mp ⟨hv, .inr hroot⟩).1
  · intro hroots v
    constructor
    · rintro ⟨hv, hva | hroot⟩
      · exact ⟨hva, hv⟩
      · exact ⟨by_contra fun hva => hroots v hv hva hroot, hv⟩
    · exact fun hv => ⟨hv.2, .inl hv.1⟩

theorem GeneratedRun.length_out (h : GeneratedRun a b q rAPrime setA setB out)
    (heq : (out.map Int.toNat).toFinset = a ∩ b) : out.length = (a ∩ b).card := by
  rw [← heq, List.toFinset_card_of_nodup (nodup_map_toNat h.reduced h.nodup), List.length_map]

theorem GeneratedRun.reduced_kept (h : GeneratedRun a b q rAPrime setA setB out) (hq : 0 < q) (R : ℕ) :
    Reduced q (revealed out setA R) := by
  intro v hv
  rcases (mem_revealed v).mp hv with hv | ⟨rfl, -, -⟩
  · exact h.reduced v hv.1
  · exact ⟨le_rfl, by exact_mod_cast hq⟩

theorem GeneratedRun.mem_of_kept (h : GeneratedRun a b q rAPrime setA setB out) (hq : 0 < q) {R v : ℕ}
    (hv : v ∈ (revealed out setA R).map Int.toNat) : v ∈ a := by
  rw [mem_map_toNat (h.reduced_kept hq R), mem_revealed] at hv
  rcases hv with hv | ⟨h0, hmem, -⟩
  · exact (h.mem_setA v).mp hv.2
  · exact (h.mem_setA v).mp (h0 ▸ hmem)

/-- Party A gains a false zero where it has zero and a slot is left unused. -/
theorem GeneratedRun.kept_eq (h : GeneratedRun a b q rAPrime setA setB out) (hq : 0 < q)
    (heq : (out.map Int.toNat).toFinset = a ∩ b) :
    ((revealed out setA (min setA.length setB.length)).map Int.toNat).toFinset = a ∩ b ↔
      (0 ∈ a → 0 ∈ b ∨ b ⊆ a) := by
  have hmem : ∀ v : ℕ, v ∈ (revealed out setA (min setA.length setB.length)).map Int.toNat ↔
      v ∈ a ∩ b ∨ v = 0 ∧ 0 ∈ a ∧ (a ∩ b).card < min a.card b.card := by
    intro v
    have hout : (v : Mpz) ∈ out ↔ v ∈ a ∩ b := by
      rw [← heq, List.mem_toFinset, mem_map_toNat h.reduced]
    have hzero : (0 : Mpz) ∈ setA ↔ 0 ∈ a := h.mem_setA 0
    rw [mem_map_toNat (h.reduced_kept hq _), mem_revealed, hout, h.mem_setA, hzero, h.length_setA,
      h.length_setB, h.length_out heq, Int.natCast_eq_zero, Finset.mem_inter]
    tauto
  have hiff : ((revealed out setA (min setA.length setB.length)).map Int.toNat).toFinset = a ∩ b ↔
      (0 ∈ a → (a ∩ b).card < min a.card b.card → 0 ∈ b) := by
    simp only [Finset.ext_iff, List.mem_toFinset, hmem]
    constructor
    · intro hall h0 hlt
      exact (Finset.mem_inter.mp ((hall 0).mp (.inr ⟨rfl, h0, hlt⟩))).2
    · intro h0 v
      constructor
      · rintro (hv | ⟨rfl, hva, hlt⟩)
        · exact hv
        · exact Finset.mem_inter.mpr ⟨hva, h0 hva hlt⟩
      · exact .inl
  rw [hiff]
  apply imp_congr_right
  intro h0
  constructor
  · intro hlt
    by_contra hnot
    obtain ⟨h0b, hsub⟩ := not_or.mp hnot
    have hssA : a ∩ b ⊂ a := Finset.ssubset_iff_subset_ne.mpr
      ⟨Finset.inter_subset_left, fun he => h0b (Finset.inter_eq_left.mp he h0)⟩
    have hssB : a ∩ b ⊂ b := Finset.ssubset_iff_subset_ne.mpr
      ⟨Finset.inter_subset_right, fun he => hsub (Finset.inter_eq_right.mp he)⟩
    exact h0b (hlt (lt_min (Finset.card_lt_card hssA) (Finset.card_lt_card hssB)))
  · rintro (h0b | hsub) hlt
    · exact h0b
    · rw [Finset.inter_eq_right.mpr hsub] at hlt
      exact absurd (hlt.trans_le (min_le_right _ _)) (lt_irrefl _)

end

/-- Three and five against one, three and four. -/
def smallFiles : GenerateSets.SetFiles where
  fileA := GenerateSets.joinLines (GenerateSets.texts [3, 5])
  fileB := GenerateSets.joinLines (GenerateSets.texts [1, 3, 4])
  fileTrue := GenerateSets.joinLines (GenerateSets.texts [3])

theorem smallFiles_fit : ∀ v : ℕ, v < 7 → DigitsFit 4300 (Nat.toDigits 10 v) :=
  fun v hv => GenerateSets.digitsFit_of_lt (.inr (by decide)) (hv.trans (by decide +kernel))

theorem smallFiles_known :
    smallFiles.Known 4300 7 ([3, 5] : List ℕ).toFinset ([1, 3, 4] : List ℕ).toFinset := by
  have hinter : ([3, 5] : List ℕ).toFinset ∩ ([1, 3, 4] : List ℕ).toFinset = ([3] : List ℕ).toFinset := by
    decide
  refine ⟨?_, ?_, ?_⟩
  · exact GenerateSets.holdsSet_joinLines (fun v hv => smallFiles_fit v (by revert v; decide))
      (by decide) (by decide)
  · exact GenerateSets.holdsSet_joinLines (fun v hv => smallFiles_fit v (by revert v; decide))
      (by decide) (by decide)
  · rw [hinter]
    exact GenerateSets.holdsSet_joinLines (fun v hv => smallFiles_fit v (by revert v; decide))
      (by decide) (by decide)

end RfClassGroups
