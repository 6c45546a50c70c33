import RfClassGroups.PartyLog

/-! The set files with a known intersection that `generate_sets.py` writes. The generator is
the list of its answers; a run that needs more of them than there are has no result. -/

open ExceptList Words

namespace RfClassGroups

namespace GenerateSets

/-- The values, the texts in use and the answers that are left. -/
structure Sample where
  values : List (List Char)
  used : Finset (List Char)
  draws : List ℕ

def sampleLoop (count : ℤ) : List ℕ → List (List Char) → Finset (List Char) → Option Sample
  | [], values, used => if values.length < count then none else some ⟨values, used, []⟩
  | d :: draws, values, used =>
    if values.length < count then
      let value := Nat.toDigits 10 d
      if value ∈ used then sampleLoop count draws values used
      else sampleLoop count draws (values ++ [value]) (insert value used)
    else some ⟨values, used, d :: draws⟩

/-- `sample_unique` -/
def sampleUnique (draws : List ℕ) (count : ℤ) (used : Finset (List Char)) : Option Sample :=
  sampleLoop count draws [] used

/-- `rng.shuffle`: some rearrangement of a list. -/
structure Shuffle where
  run : List (List Char) → List (List Char)
  perm : ∀ values, (run values).Perm values

def samplingBound (bits : ℤ) (fieldBound : Option ℤ) : ℤ :=
  match fieldBound with
  | some q => min (2 ^ bits.toNat) q
  | none => 2 ^ bits.toNat

/-- The checks before the first draw. -/
def generateChecks (sizeA sizeB overlap bits : ℤ) (fieldBound : Option ℤ) : Except String ℤ := do
  if sizeA ≤ 0 ∨ sizeB ≤ 0 ∨ min sizeA sizeB < overlap ∨ overlap < 0 then
    throw "Sizes must be positive and overlap must lie in [0,min(size_a,size_b)]."
  if max sizeA sizeB > 16777216 ∨ ¬ (1 ≤ bits ∧ bits ≤ 4096) then
    throw "Input sizes or bit bound exceed supported limits."
  if overlap > min sizeA sizeB then
    throw "Overlap cannot be greater than the size of the smallest set."
  let bound := samplingBound bits fieldBound
  if bound < sizeA + sizeB - overlap then
    throw "Sampling bound is too small for the requested unique sets."
  return bound

def joinLines (values : List (List Char)) : List Char :=
  ['\n'].intercalate values ++ ['\n']

structure SetFiles where
  fileA : List Char
  fileB : List Char
  fileTrue : List Char

def generateSets (sizeA sizeB overlap bits : ℤ) (fieldBound : Option ℤ) (draws : List ℕ)
    (shuffleA shuffleB : Shuffle) : Except String (Option SetFiles) := do
  let _ ← generateChecks sizeA sizeB overlap bits fieldBound
  return do
    let intersection ← sampleUnique draws overlap ∅
    let onlyA ← sampleUnique intersection.draws (sizeA - overlap) intersection.used
    let onlyB ← sampleUnique onlyA.draws (sizeB - overlap) onlyA.used
    let setA := shuffleA.run (intersection.values ++ onlyA.values)
    let setB := shuffleB.run (intersection.values ++ onlyB.values)
    return ⟨joinLines setA, joinLines setB, joinLines intersection.values⟩

section

variable {sizeA sizeB overlap bits bound : ℤ} {fieldBound : Option ℤ}

theorem generateChecks_ok : generateChecks sizeA sizeB overlap bits fieldBound = .ok bound ↔
    (0 ≤ overlap ∧ overlap ≤ min sizeA sizeB) ∧ (0 < min sizeA sizeB ∧ max sizeA sizeB ≤ 16777216) ∧
      (1 ≤ bits ∧ bits ≤ 4096) ∧ sizeA + sizeB - overlap ≤ bound ∧
      samplingBound bits fieldBound = bound := by
  unfold generateChecks
  by_cases hsizes : sizeA ≤ 0 ∨ sizeB ≤ 0 ∨ min sizeA sizeB < overlap ∨ overlap < 0
  · rw [if_pos hsizes]
    exact iff_of_false (fun h => nomatch h) fun h => by omega
  rw [if_neg hsizes]
  by_cases hlimits : max sizeA sizeB > 16777216 ∨ ¬ (1 ≤ bits ∧ bits ≤ 4096)
  · dsimp only
    rw [if_pos hlimits]
    exact iff_of_false (fun h => nomatch h) fun h => by omega
  dsimp only
  rw [if_neg hlimits, if_neg (by omega)]
  by_cases hbound : samplingBound bits fieldBound < sizeA + sizeB - overlap
  · rw [if_pos hbound]
    exact iff_of_false (fun h => nomatch h) fun h => by omega
  · rw [if_neg hbound, pure_eq_ok, Except.ok.injEq]
    omega

theorem samplingBound_le (hbits : bits ≤ 4096) : samplingBound bits fieldBound ≤ 2 ^ 4096 := by
  have hpow : (2 : ℤ) ^ bits.toNat ≤ 2 ^ 4096 :=
    pow_le_pow_right₀ (by decide) (Int.toNat_le.mpr hbits)
  cases fieldBound with
  | none => exact hpow
  | some q => exact (min_le_left _ _).trans hpow

end

def texts (ns : List ℕ) : List (List Char) := ns.map (Nat.toDigits 10)

/-- How a sample of `k` new numbers is taken from `draws` past the used ones; `all` are the
numbers that come up. -/
structure Sampled (k : ℕ) (draws : List ℕ) (used all : Finset ℕ) (new rest : List ℕ) : Prop where
  count : new.length = k
  nodup : new.Nodup
  fresh : ∀ v ∈ new, v ∈ draws ∧ v ∉ used
  rest_subset : rest ⊆ draws
  covers : all ⊆ (used ∪ new.toFinset) ∪ rest.toFinset

section

variable {draws new rest : List ℕ} {used all : Finset ℕ} {d k : ℕ}

theorem union_toFinset_cons : used ∪ (d :: new).toFinset = insert d used ∪ new.toFinset := by
  rw [List.toFinset_cons, Finset.union_insert, Finset.insert_union]

theorem Sampled.done (hall : all ⊆ used ∪ draws.toFinset) : Sampled 0 draws used all [] draws where
  count := rfl
  nodup := List.nodup_nil
  fresh := by simp
  rest_subset := List.Subset.refl draws
  covers := by simpa using hall

theorem Sampled.skip (h : Sampled k draws used all new rest) :
    Sampled k (d :: draws) used all new rest where
  count := h.count
  nodup := h.nodup
  fresh := fun v hv => ⟨List.mem_cons_of_mem d (h.fresh v hv).1, (h.fresh v hv).2⟩
  rest_subset := fun _ hv => List.mem_cons_of_mem d (h.rest_subset hv)
  covers := h.covers

theorem Sampled.take (hd : d ∉ used) (h : Sampled k draws (insert d used) all new rest) :
    Sampled (k + 1) (d :: draws) used all (d :: new) rest where
  count := by rw [List.length_cons, h.count]
  nodup := List.nodup_cons.mpr ⟨fun hmem => (h.fresh d hmem).2 (Finset.mem_insert_self d used), h.nodup⟩
  fresh := by
    intro v hv
    rcases List.mem_cons.mp hv with rfl | hv
    · exact ⟨List.mem_cons_self, hd⟩
    · exact ⟨List.mem_cons_of_mem d (h.fresh v hv).1,
        fun hmem => (h.fresh v hv).2 (Finset.mem_insert_of_mem hmem)⟩
  rest_subset := fun _ hv => List.mem_cons_of_mem d (h.rest_subset hv)
  covers := by
    rw [union_toFinset_cons]
    exact h.covers

theorem mem_image_toDigits : Nat.toDigits 10 d ∈ used.image (Nat.toDigits 10) ↔ d ∈ used := by
  rw [Finset.mem_image]
  constructor
  · rintro ⟨v, hv, h⟩
    have hvd := congrArg (Nat.ofDigitChars 10 · 0) h
    simp only [Nat.ofDigitChars_ten_toDigits] at hvd
    rwa [← hvd]
  · exact fun hd => ⟨d, hd, rfl⟩

/-- A sampling loop returns where as many numbers come up as are used and wanted. -/
theorem sampleLoop_spec {count : ℤ} {values : List (List Char)} (hcount : values.length + k = count)
    (hall : all ⊆ used ∪ draws.toFinset) (hcard : used.card + k ≤ all.card) :
    ∃ new rest, Sampled k draws used all new rest ∧
      sampleLoop count draws values (used.image (Nat.toDigits 10)) =
        some ⟨values ++ texts new, (used ∪ new.toFinset).image (Nat.toDigits 10), rest⟩ := by
  induction draws generalizing values used k with
  | nil =>
    have hle : all.card ≤ used.card := Finset.card_le_card (by simpa using hall)
    obtain rfl : k = 0 := by omega
    refine ⟨[], [], Sampled.done hall, ?_⟩
    rw [sampleLoop, if_neg (by omega)]
    simp [texts]
  | cons d draws ih =>
    cases k with
    | zero =>
      refine ⟨[], d :: draws, Sampled.done hall, ?_⟩
      rw [sampleLoop, if_neg (by omega)]
      simp [texts]
    | succ k =>
      by_cases hd : d ∈ used
      · have hrest : all ⊆ used ∪ draws.toFinset := by
          intro v hv
          have h := hall hv
          rw [List.toFinset_cons, Finset.union_insert, Finset.mem_insert] at h
          rcases h with rfl | h
          · exact Finset.mem_union_left _ hd
          · exact h
        obtain ⟨new, rest, hsampled, hloop⟩ := ih hcount hrest hcard
        refine ⟨new, rest, hsampled.skip, ?_⟩
        rw [sampleLoop, if_pos (by omega), if_pos (mem_image_toDigits.mpr hd), hloop]
      · have hrest : all ⊆ insert d used ∪ draws.toFinset := by
          rw [Finset.insert_union, ← Finset.union_insert, ← List.toFinset_cons]
          exact hall
        have hlen : ((values ++ [Nat.toDigits 10 d]).length : ℤ) + k = count := by
          rw [List.length_append, List.length_singleton]
          omega
        have hleft : (insert d used).card + k ≤ all.card := by
          rw [Finset.card_insert_of_notMem hd]
          omega
        obtain ⟨new, rest, hsampled, hloop⟩ := ih hlen hrest hleft
        refine ⟨d :: new, rest, hsampled.take hd, ?_⟩
        rw [sampleLoop, if_pos (by omega)]
        dsimp only
        rw [if_neg (mt mem_image_toDigits.mp hd), ← Finset.image_insert, hloop, union_toFinset_cons]
        simp [texts]

theorem Sampled.card (h : Sampled k draws used all new rest) :
    (used ∪ new.toFinset).card = used.card + k := by
  have hdisjoint : Disjoint used new.toFinset := by
    rw [Finset.disjoint_right]
    intro v hv
    exact (h.fresh v (List.mem_toFinset.mp hv)).2
  rw [Finset.card_union_of_disjoint hdisjoint, List.toFinset_card_of_nodup h.nodup, h.count]

theorem sampleUnique_spec {count : ℤ} (hcount : (k : ℤ) = count)
    (hall : all ⊆ used ∪ draws.toFinset) (hcard : used.card + k ≤ all.card) :
    ∃ new rest, Sampled k draws used all new rest ∧
      sampleUnique draws count (used.image (Nat.toDigits 10)) =
        some ⟨texts new, (used ∪ new.toFinset).image (Nat.toDigits 10), rest⟩ := by
  have hlen : (([] : List (List Char)).length : ℤ) + k = count := by simpa using hcount
  obtain ⟨new, rest, hsampled, hloop⟩ := sampleLoop_spec hlen hall hcard
  exact ⟨new, rest, hsampled, hloop⟩

end

section

variable {maxDigits : ℕ} {path : String} {ns : List ℕ}

theorem joinLines_cons (w : List Char) (ws : List (List Char)) :
    joinLines (w :: ws) = logText (w :: ws) := by
  induction ws generalizing w with
  | nil => simp [joinLines, logText]
  | cons v ws ih =>
    have hjoin : joinLines (w :: v :: ws) = w ++ '\n' :: joinLines (v :: ws) := by
      simp [joinLines, List.intercalate_cons_cons]
    have htext : logText (w :: v :: ws) = w ++ '\n' :: logText (v :: ws) := by simp [logText]
    rw [hjoin, htext, ih]

theorem gmpReads_toDigits (n : ℕ) : GmpReads (Nat.toDigits 10 n) n := by
  obtain ⟨c, cs, hcons⟩ := List.exists_cons_of_ne_nil (toDigits_ne_nil n)
  have hc : c ∈ Nat.toDigits 10 n := by
    rw [hcons]
    exact List.mem_cons_self
  rw [hcons]
  refine (gmpReads_plain (toDigits_not_isSpace hc) ?_ _).mpr ⟨n, ?_, rfl⟩
  · exact isDigit_ne_minus (isDigit_of_mem_toDigits hc)
  · rw [← hcons, mpzMagnitude_toDigits]

theorem readMpzListFile_outputFile {env : Env} {limit : ℕ} (hlimit : cgMaxItems env = .ok limit)
    {q : Mpz} {role : String} (hne : ns ≠ []) (hcount : ns.length ≤ limit) (hnodup : ns.Nodup)
    (hbelow : ∀ v ∈ ns, (v : Mpz) < q) :
    readMpzListFile env path (some (outputFile ns)) q role =
      .ok (ns.map fun n : ℕ => (n : Mpz)) := by
  have hwords : words isSpace (outputFile ns) = texts ns :=
    words_outputFile (by decide) (fun _ _ => toDigits_not_isSpace) ns
  rw [readMpzListFile_ok hlimit, hwords]
  refine ⟨?_, ?_, ?_, ?_, hnodup.map Nat.cast_injective⟩
  · rw [texts, List.forall₂_map_left_iff, List.forall₂_map_right_iff, List.forall₂_same]
    exact fun v _ => gmpReads_toDigits v
  · simpa [texts] using hne
  · rwa [texts, List.length_map]
  · intro w hw
    obtain ⟨v, hv, rfl⟩ := List.mem_map.mp hw
    exact hbelow v hv

/-- The checker reads the file as the set, and so does an endpoint that takes a set of this
size and numbers below the bound. -/
structure HoldsSet (maxDigits : ℕ) (bound : Mpz) (text : List Char) (s : Finset ℕ) : Prop where
  checker : ∀ path, readSet maxDigits path text = .ok s
  endpoint : ∀ env limit path role q, cgMaxItems env = .ok limit → s.Nonempty → s.card ≤ limit →
    bound ≤ q → ∃ values, readMpzListFile env path (some text) q role = .ok values ∧
      values.toFinset = s.image fun n : ℕ => (n : Mpz)

theorem holdsSet_joinLines {bound : Mpz} (hfit : ∀ v ∈ ns, DigitsFit maxDigits (Nat.toDigits 10 v))
    (hnodup : ns.Nodup) (hbelow : ∀ v ∈ ns, (v : Mpz) < bound) :
    HoldsSet maxDigits bound (joinLines (texts ns)) ns.toFinset := by
  cases ns with
  | nil => exact ⟨fun _ => rfl, fun _ _ _ _ _ _ h => absurd h (by simp)⟩
  | cons v ns =>
    have hfile : joinLines (texts (v :: ns)) = outputFile (v :: ns) := joinLines_cons _ _
    rw [hfile]
    refine ⟨fun _ => readSet_outputFile hfit hnodup, ?_⟩
    intro env limit path role q hlimit _ hcount hq
    rw [List.toFinset_card_of_nodup hnodup] at hcount
    have hbelow' := fun w hw => (hbelow w hw).trans_le hq
    exact ⟨_, readMpzListFile_outputFile hlimit (List.cons_ne_nil v ns) hcount hnodup hbelow',
      toFinset_map_cast _⟩

theorem Shuffle.exists_texts (shuffle : Shuffle) (ns : List ℕ) :
    ∃ ns', shuffle.run (texts ns) = texts ns' ∧ ns'.Perm ns := by
  refine ⟨(shuffle.run (texts ns)).map fun t => Nat.ofDigitChars 10 t 0, ?_, ?_⟩
  · have hid : ∀ t ∈ shuffle.run (texts ns), Nat.toDigits 10 (Nat.ofDigitChars 10 t 0) = t := by
      intro t ht
      obtain ⟨v, -, rfl⟩ := List.mem_map.mp ((shuffle.perm _).mem_iff.mp ht)
      rw [Nat.ofDigitChars_ten_toDigits]
    have h := List.map_congr_left hid
    rw [List.map_id'] at h
    conv_rhs => rw [texts, List.map_map]
    exact h.symm
  · have hback : (texts ns).map (fun t => Nat.ofDigitChars 10 t 0) = ns := by
      simp [texts, Function.comp_def]
    have h := (shuffle.perm (texts ns)).map fun t => Nat.ofDigitChars 10 t 0
    rwa [hback] at h

theorem holdsSet_shuffled {bound : Mpz} (hfit : ∀ v ∈ ns, DigitsFit maxDigits (Nat.toDigits 10 v))
    (hnodup : ns.Nodup) (hbelow : ∀ v ∈ ns, (v : Mpz) < bound) (shuffle : Shuffle) :
    HoldsSet maxDigits bound (joinLines (shuffle.run (texts ns))) ns.toFinset := by
  obtain ⟨ns', hrun, hperm⟩ := shuffle.exists_texts ns
  rw [hrun, ← List.toFinset_eq_of_perm _ _ hperm]
  exact holdsSet_joinLines (fun v hv => hfit v (hperm.mem_iff.mp hv)) (hperm.nodup_iff.mpr hnodup)
    fun v hv => hbelow v (hperm.mem_iff.mp hv)

/-- Numbers of 4096 bits have 1234 digits. -/
theorem digitsFit_of_lt {v : ℕ} (hdigits : maxDigits = 0 ∨ 1234 ≤ maxDigits) (hv : v < 2 ^ 4096) :
    DigitsFit maxDigits (Nat.toDigits 10 v) := by
  have hpow : 2 ^ 4096 ≤ 10 ^ 1234 := by decide +kernel
  have hlen := Nat.toDigits_length 10 v 1234 (by decide) (hv.trans_le hpow)
  exact hdigits.imp_right hlen.trans

end

/-- The files hold `a`, `b` and their intersection. -/
structure SetFiles.Known (maxDigits : ℕ) (bound : Mpz) (files : SetFiles) (a b : Finset ℕ) : Prop where
  holdsA : HoldsSet maxDigits bound files.fileA a
  holdsB : HoldsSet maxDigits bound files.fileB b
  holdsTrue : HoldsSet maxDigits bound files.fileTrue (a ∩ b)

/-- Against the generated true file, the checker passes exactly the outputs that are the
intersection. -/
theorem SetFiles.Known.checkPsi2 {maxDigits : ℕ} {bound : Mpz} {files : SetFiles} {a b : Finset ℕ}
    {pathTrue pathA pathB : String} (h : files.Known maxDigits bound a b) {outA outB : List ℕ}
    (hfitA : ∀ v ∈ outA, DigitsFit maxDigits (Nat.toDigits 10 v)) (hnodupA : outA.Nodup)
    (hfitB : ∀ v ∈ outB, DigitsFit maxDigits (Nat.toDigits 10 v)) (hnodupB : outB.Nodup) :
    RfClassGroups.checkPsi2 maxDigits (pathTrue, files.fileTrue) (pathA, outputFile outA)
        (pathB, outputFile outB) = 0 ↔ outA.toFinset = a ∩ b ∧ outB.toFinset = a ∩ b := by
  rw [checkPsi2_zero (h.holdsTrue.checker pathTrue), parsePartyLog_outputFile hfitA hnodupA,
    parsePartyLog_outputFile hfitB hnodupB, Except.ok.injEq, Except.ok.injEq]

section

variable {draws rest restA restB common newA newB : List ℕ} {all : Finset ℕ} {o i j : ℕ}

/-- The two samples after the common one share nothing with it or with each other. -/
theorem inter_of_sampled (hA : Sampled i rest (∅ ∪ common.toFinset) all newA restA)
    (hB : Sampled j restA (∅ ∪ common.toFinset ∪ newA.toFinset) all newB restB) :
    (common ++ newA).toFinset ∩ (common ++ newB).toFinset = common.toFinset := by
  ext v
  have hvA := fun hv => (hA.fresh v hv).2
  have hvB := fun hv => (hB.fresh v hv).2
  simp only [Finset.mem_union, List.mem_toFinset, Finset.notMem_empty, false_or] at hvA hvB
  simp only [Finset.mem_inter, List.mem_toFinset, List.mem_append]
  constructor
  · rintro ⟨h | h, h' | h'⟩
    · exact h
    · exact h
    · exact h'
    · exact absurd (.inr h) (hvB h')
  · exact fun h => ⟨.inl h, .inl h⟩

end

/-- Where enough numbers come up, the files are the sets asked for: of the given sizes, below
the bound, and with the intersection that the third file holds. -/
theorem generateSets_files {sizeA sizeB overlap bits bound : ℤ} {fieldBound : Option ℤ}
    {draws : List ℕ} {maxDigits : ℕ}
    (hchecks : generateChecks sizeA sizeB overlap bits fieldBound = .ok bound)
    (hdraws : ∀ d ∈ draws, (d : ℤ) < bound)
    (hcover : sizeA + sizeB - overlap ≤ draws.toFinset.card)
    (hdigits : maxDigits = 0 ∨ 1234 ≤ maxDigits) (shuffleA shuffleB : Shuffle) :
    ∃ files a b, generateSets sizeA sizeB overlap bits fieldBound draws shuffleA shuffleB =
        .ok (some files) ∧ files.Known maxDigits bound a b ∧
      (a.card : ℤ) = sizeA ∧ (b.card : ℤ) = sizeB ∧ ((a ∩ b).card : ℤ) = overlap ∧
      ∀ v ∈ a ∪ b, (v : ℤ) < bound := by
  obtain ⟨⟨ho, hmin⟩, -, ⟨-, hbits⟩, -, hbound⟩ := generateChecks_ok.mp hchecks
  obtain ⟨o, rfl⟩ := Int.eq_ofNat_of_zero_le ho
  obtain ⟨i, rfl⟩ := Int.le.dest (hmin.trans (min_le_left _ _))
  obtain ⟨j, rfl⟩ := Int.le.dest (hmin.trans (min_le_right _ _))
  have hall : draws.toFinset ⊆ ∅ ∪ draws.toFinset := Finset.subset_union_right
  obtain ⟨common, rest, h, hrun⟩ := sampleUnique_spec (rfl : (o : ℤ) = o) hall
    (by rw [Finset.card_empty]; omega)
  obtain ⟨newA, restA, hA, hrunA⟩ := sampleUnique_spec (by omega : (i : ℤ) = o + i - o) h.covers
    (by rw [h.card, Finset.card_empty]; omega)
  obtain ⟨newB, restB, hB, hrunB⟩ := sampleUnique_spec (by omega : (j : ℤ) = o + j - o) hA.covers
    (by rw [hA.card, h.card, Finset.card_empty]; omega)
  have hbelow : ∀ v ∈ common ++ newA ++ newB, (v : ℤ) < bound := by
    intro v hv
    simp only [List.mem_append] at hv
    rcases hv with (hv | hv) | hv
    · exact hdraws v (h.fresh v hv).1
    · exact hdraws v (h.rest_subset (hA.fresh v hv).1)
    · exact hdraws v (h.rest_subset (hA.rest_subset (hB.fresh v hv).1))
  have hfit : ∀ v ∈ common ++ newA ++ newB, DigitsFit maxDigits (Nat.toDigits 10 v) := by
    intro v hv
    have hlt := (hbelow v hv).trans_le (hbound ▸ samplingBound_le hbits)
    exact digitsFit_of_lt hdigits (by exact_mod_cast hlt)
  have hnodupA : (common ++ newA).Nodup :=
    h.nodup.append hA.nodup fun v hv hvA => (hA.fresh v hvA).2 (by simp [hv])
  have hnodupB : (common ++ newB).Nodup :=
    h.nodup.append hB.nodup fun v hv hvB => (hB.fresh v hvB).2 (by simp [hv])
  have hsubA : common ++ newA ⊆ common ++ newA ++ newB := List.subset_append_left _ _
  have hsubB : common ++ newB ⊆ common ++ newA ++ newB := by
    intro v hv
    simp only [List.mem_append] at hv ⊢
    tauto
  refine ⟨⟨joinLines (shuffleA.run (texts (common ++ newA))),
    joinLines (shuffleB.run (texts (common ++ newB))), joinLines (texts common)⟩,
    (common ++ newA).toFinset, (common ++ newB).toFinset, ?_, ⟨?_, ?_, ?_⟩, ?_, ?_, ?_, ?_⟩
  · rw [Finset.image_empty] at hrun
    rw [generateSets, hchecks, ok_bind, hrun]
    simp only [Option.bind_eq_bind, Option.bind_some, hrunA, hrunB, texts, List.map_append]
    rfl
  · exact holdsSet_shuffled (fun v hv => hfit v (hsubA hv)) hnodupA (fun v hv => hbelow v (hsubA hv)) _
  · exact holdsSet_shuffled (fun v hv => hfit v (hsubB hv)) hnodupB (fun v hv => hbelow v (hsubB hv)) _
  · rw [inter_of_sampled hA hB]
    exact holdsSet_joinLines (fun v hv => hfit v (by simp [hv])) h.nodup
      fun v hv => hbelow v (by simp [hv])
  · rw [List.toFinset_card_of_nodup hnodupA, List.length_append, h.count, hA.count, Nat.cast_add]
  · rw [List.toFinset_card_of_nodup hnodupB, List.length_append, h.count, hB.count, Nat.cast_add]
  · rw [inter_of_sampled hA hB, List.toFinset_card_of_nodup h.nodup, h.count]
  · intro v hv
    apply hbelow
    simp only [Finset.mem_union, List.mem_toFinset, List.mem_append] at hv ⊢
    tauto

/-- The number that comes up twice is taken once. -/
theorem generateSets_files_small : ∃ files a b,
    generateSets 3 2 1 4 (some 11) [3, 7, 3, 0, 10] ⟨id, fun _ => .refl _⟩
        ⟨List.reverse, List.reverse_perm⟩ = .ok (some files) ∧ files.Known 4300 11 a b ∧
      (a.card : ℤ) = 3 ∧ (b.card : ℤ) = 2 ∧ ((a ∩ b).card : ℤ) = 1 ∧
      ∀ v ∈ a ∪ b, (v : ℤ) < 11 :=
  generateSets_files (by decide) (by decide) (by decide) (by decide) _ _

end GenerateSets

end RfClassGroups
