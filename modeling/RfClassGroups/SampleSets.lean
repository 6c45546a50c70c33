import Mathlib
import RfClassGroups.Config
import RfClassGroups.Lib.WhileLoop
import RfClassGroups.Mpz

/-! Sampling of distinct set elements: random draws, and after 64 rejected ones a
scan from one. -/

open ExceptList WhileLoop

namespace RfClassGroups

/-- The answers of a generator, in the order of the calls, to a bound. -/
abbrev RandGen := ℕ → Mpz → Mpz

def cgPow2Mpz : ℕ → Mpz
  | 0 => 1
  | bits + 1 => cgPow2Mpz bits * 2

def benchmarkInputBound (env : Env) (q : Mpz) : Except String Mpz := do
  let bits ← cgConfigSize env "CG_BENCH_INPUT_BITS" 128 4096 false
  if q < cgPow2Mpz bits then return q else return cgPow2Mpz bits

structure Sampling where
  out : List Mpz
  seen : Finset String
  count : ℕ
  rejected : ℕ := 0
  drawn : ℕ := 0
  scan : Mpz := 1

/-- `x = rng.random_mpz(bound)` or the next scanned value. -/
def sampleDraw (rng : RandGen) (bound : Mpz) (s : Sampling) : Mpz × Sampling :=
  if s.rejected < 64 then
    (rng s.drawn bound, { s with drawn := s.drawn + 1, rejected := s.rejected + 1 })
  else (s.scan, { s with scan := s.scan + 1, rejected := s.rejected + 1 })

def sampleOffer (x : Mpz) (s : Sampling) : Sampling :=
  if x = 0 then s
  else if x.repr ∈ s.seen then s
  else { s with
    out := s.out ++ [x], seen := insert x.repr s.seen, count := s.count - 1, rejected := 0 }

def sampleStep (rng : RandGen) (bound : Mpz) (s : Sampling) : Sampling :=
  sampleOffer (sampleDraw rng bound s).1 (sampleDraw rng bound s).2

def sampleGuard (s : Sampling) : Bool := 0 < s.count

/-- The checks before the first draw. -/
def sampleChecks (env : Env) (count : ℕ) (q : Mpz) (out : List Mpz) (seen : Finset String) :
    Except String Mpz := do
  let total ← cgCheckedAdd env out.length count
  cgValidateCount env total true
  let bound ← benchmarkInputBound env q
  let requested ← cgCheckedAdd env seen.card count
  if (requested : Mpz) > bound - 1 then
    throw "PSI sampling domain has too few nonzero unused elements"
  return bound

/-- `none` when the rounds run out before the loop ends. -/
def sampleUniqueFieldElements (env : Env) (rounds count : ℕ) (q : Mpz) (rng : RandGen) (out : List Mpz)
    (seen : Finset String) : Except String (Option Sampling) := do
  let bound ← sampleChecks env count q out seen
  return run sampleGuard (sampleStep rng bound) rounds ⟨out, seen, count, 0, 0, 1⟩

/-- The checks before the generators are made. -/
def psiSetsChecks (env : Env) (mA mB : ℕ) (q : Mpz) (setA setB : List Mpz) : Except String Mpz := do
  cgValidateCount env mA false
  cgValidateCount env mB false
  if setA ≠ [] ∨ setB ≠ [] then throw "PSI random output sets must initially be empty"
  let sum ← cgCheckedAdd env mA mB
  let bound ← benchmarkInputBound env q
  if ((sum - min mA mB / 5 : ℕ) : Mpz) > bound - 1 then
    throw "PSI union exceeds nonzero sampling domain"
  return bound

/-- `seenA` and `seenB` are only written. -/
def makeRandomPsiSetsFullField (env : Env) (makeRandgen : ℕ → ℕ → RandGen) (rounds mA mB seed : ℕ)
    (q : Mpz) (setA setB : List Mpz) : Except String (Option (List Mpz × List Mpz)) := do
  let _ ← psiSetsChecks env mA mB q setA setB
  let sharedRng := makeRandgen seed 0x5053495f53484152
  let rngA := makeRandgen seed 0x5053495f415f5f5f
  let rngB := makeRandgen seed 0x5053495f425f5f5f
  let overlap := min mA mB / 5
  match ← sampleUniqueFieldElements env rounds overlap q sharedRng [] ∅ with
  | none => return none
  | some shared =>
    match ← sampleUniqueFieldElements env rounds (mA - overlap) q rngA (setA ++ shared.out) shared.seen with
    | none => return none
    | some a =>
      match ← sampleUniqueFieldElements env rounds (mB - overlap) q rngB (setB ++ shared.out) a.seen with
      | none => return none
      | some b => return some (a.out, b.out)

def texts (values : List Mpz) : Finset String := (values.map Int.repr).toFinset

/-- The state after the values were appended to `out`. -/
structure SampleInv (bound : Mpz) (out : List Mpz) (seen : Finset String) (count : ℕ) (values : List Mpz)
    (s : Sampling) : Prop where
  out_eq : s.out = out ++ values
  seen_eq : s.seen = seen ∪ texts values
  distinct : values.Nodup
  fresh : ∀ v ∈ values, 0 < v ∧ v < bound ∧ v.repr ∉ seen
  count_eq : values.length + s.count = count
  scan_pos : 1 ≤ s.scan
  scanned : ∀ v, 1 ≤ v → v < s.scan → v.repr ∈ s.seen

section

variable {bound : Mpz} {out values : List Mpz} {seen : Finset String} {count : ℕ} {s : Sampling}

theorem cgPow2Mpz_eq (bits : ℕ) : cgPow2Mpz bits = 2 ^ bits := by
  induction bits with
  | zero => rfl
  | succ bits ih => rw [cgPow2Mpz, ih, pow_succ]

theorem benchmarkInputBound_ok {env : Env} {q : Mpz} {bits : ℕ}
    (hbits : cgConfigSize env "CG_BENCH_INPUT_BITS" 128 4096 false = .ok bits) :
    benchmarkInputBound env q = .ok (min (2 ^ bits) q) := by
  rw [benchmarkInputBound, hbits, ok_bind, cgPow2Mpz_eq]
  split
  · next hlt => rw [min_eq_right hlt.le, pure_eq_ok]
  · next hle => rw [min_eq_left (not_lt.mp hle), pure_eq_ok]

theorem texts_append (x : Mpz) : texts (values ++ [x]) = insert x.repr (texts values) := by
  ext t
  simp [texts, eq_comm]

theorem mem_texts {v : Mpz} : v.repr ∈ texts values ↔ v ∈ values := by
  simp only [texts, List.mem_toFinset, List.mem_map]
  constructor
  · rintro ⟨w, hw, h⟩
    exact Int.repr_injective h ▸ hw
  · intro hv
    exact ⟨v, hv, rfl⟩

theorem card_union_texts (hdistinct : values.Nodup) (hfresh : ∀ v ∈ values, v.repr ∉ seen) :
    (seen ∪ texts values).card = seen.card + values.length := by
  have hdisj : Disjoint seen (texts values) := by
    rw [Finset.disjoint_right]
    intro t ht
    obtain ⟨v, hv, rfl⟩ := List.mem_map.mp (List.mem_toFinset.mp ht)
    exact hfresh v hv
  rw [Finset.card_union_of_disjoint hdisj, texts,
    List.toFinset_card_of_nodup (hdistinct.map fun _ _ h => Int.repr_injective h), List.length_map]

theorem SampleInv.card_seen (h : SampleInv bound out seen count values s) :
    s.seen.card = seen.card + values.length := by
  rw [h.seen_eq, card_union_texts h.distinct fun v hv => (h.fresh v hv).2.2]

/-- The scanned values are all in `seen`, so the scan is not ahead of its size. -/
theorem SampleInv.scan_le (h : SampleInv bound out seen count values s) : s.scan ≤ s.seen.card + 1 := by
  have hsub : (Finset.Ico 1 s.scan).image Int.repr ⊆ s.seen := by
    intro t ht
    obtain ⟨v, hv, rfl⟩ := Finset.mem_image.mp ht
    obtain ⟨h1, hlt⟩ := Finset.mem_Ico.mp hv
    exact h.scanned v h1 hlt
  have hcard := Finset.card_le_card hsub
  rw [Finset.card_image_of_injective _ fun _ _ h => Int.repr_injective h, Int.card_Ico] at hcard
  have h1 := h.scan_pos
  dsimp only [Mpz] at hcard h1 ⊢
  omega

theorem SampleInv.scan_lt (h : SampleInv bound out seen count values s)
    (hcapacity : ((seen.card + count : ℕ) : Mpz) ≤ bound - 1) (hpos : 0 < s.count) : s.scan < bound := by
  have hle := h.scan_le
  have hcard := h.card_seen
  have hcount := h.count_eq
  dsimp only [Mpz] at hcapacity hle ⊢
  omega

theorem sampleDraw_cases {rng : RandGen} (hrng : ∀ i, 0 ≤ rng i bound ∧ rng i bound < bound) (s : Sampling) :
    (s.rejected < 64 ∧ ∃ x, 0 ≤ x ∧ x < bound ∧
        sampleDraw rng bound s = (x, { s with drawn := s.drawn + 1, rejected := s.rejected + 1 })) ∨
      64 ≤ s.rejected ∧
        sampleDraw rng bound s = (s.scan, { s with scan := s.scan + 1, rejected := s.rejected + 1 }) := by
  by_cases h : s.rejected < 64
  · exact .inl ⟨h, _, (hrng s.drawn).1, (hrng s.drawn).2, if_pos h⟩
  · exact .inr ⟨not_lt.mp h, if_neg h⟩

theorem sampleOffer_progress (x : Mpz) (s : Sampling) :
    (sampleOffer x s).scan = s.scan ∧
      ((sampleOffer x s).count = s.count ∧ (sampleOffer x s).rejected = s.rejected ∨
        (sampleOffer x s).count = s.count - 1 ∧ (sampleOffer x s).rejected = 0) := by
  unfold sampleOffer
  split
  · exact ⟨rfl, .inl ⟨rfl, rfl⟩⟩
  · split
    · exact ⟨rfl, .inl ⟨rfl, rfl⟩⟩
    · exact ⟨rfl, .inr ⟨rfl, rfl⟩⟩

/-- An offered value is zero, was seen before, or is appended; `h` holds up to the
value itself being scanned. -/
theorem SampleInv.offer {x : Mpz} (hx : 0 ≤ x) (hlt : x < bound) (hpos : 0 < s.count) {s' : Sampling}
    (h : SampleInv bound out seen count values s) (hout : s'.out = s.out) (hseen : s'.seen = s.seen)
    (hcount : s'.count = s.count) (h1 : 1 ≤ s'.scan)
    (hscanned : ∀ v, 1 ≤ v → v < s'.scan → v.repr ∈ s.seen ∨ v = x) :
    ∃ values', SampleInv bound out seen count values' (sampleOffer x s') := by
  unfold sampleOffer
  split
  · next h0 =>
    refine ⟨values, hout.trans h.out_eq, hseen.trans h.seen_eq, h.distinct, h.fresh, hcount ▸ h.count_eq,
      h1, fun v hv1 hv => ?_⟩
    rcases hscanned v hv1 hv with hmem | rfl
    · exact hseen ▸ hmem
    · exact absurd h0 (by dsimp only [Mpz] at hv1 ⊢; omega)
  · next h0 =>
    split
    · next hmem =>
      refine ⟨values, hout.trans h.out_eq, hseen.trans h.seen_eq, h.distinct, h.fresh, hcount ▸ h.count_eq,
        h1, fun v hv1 hv => ?_⟩
      rcases hscanned v hv1 hv with hold | rfl
      · exact hseen ▸ hold
      · exact hmem
    · next hnew =>
      rw [hseen, h.seen_eq, Finset.mem_union, not_or, mem_texts] at hnew
      refine ⟨values ++ [x], ?_, ?_, ?_, ?_, ?_, h1, fun v hv1 hv => ?_⟩
      · simp [hout, h.out_eq]
      · simp [hseen, h.seen_eq, texts_append]
      · exact List.nodup_append.mpr ⟨h.distinct, List.nodup_singleton x, fun a ha b hb => by
          rintro rfl
          exact hnew.2 (List.mem_singleton.mp hb ▸ ha)⟩
      · intro v hv
        rcases List.mem_append.mp hv with hv | hv
        · exact h.fresh v hv
        · rw [List.mem_singleton] at hv
          subst hv
          exact ⟨lt_of_le_of_ne hx (Ne.symm h0), hlt, hnew.1⟩
      · have hc := h.count_eq
        simp only [List.length_append, List.length_singleton]
        omega
      · rcases hscanned v hv1 hv with hold | rfl
        · exact Finset.mem_insert_of_mem (hseen ▸ hold)
        · exact Finset.mem_insert_self _ _

def sampleMeasure (total : ℕ) (s : Sampling) : ℕ :=
  65 * s.count + (64 - s.rejected) + (total + 1 - s.scan.toNat)

theorem sampleStep_inv {rng : RandGen} (hrng : ∀ i, 0 ≤ rng i bound ∧ rng i bound < bound)
    (hcapacity : ((seen.card + count : ℕ) : Mpz) ≤ bound - 1)
    (h : SampleInv bound out seen count values s) (hguard : sampleGuard s = true) :
    (∃ values', SampleInv bound out seen count values' (sampleStep rng bound s)) ∧
      sampleMeasure (seen.card + count) (sampleStep rng bound s) < sampleMeasure (seen.card + count) s := by
  have hpos : 0 < s.count := of_decide_eq_true hguard
  have hlt := h.scan_lt hcapacity hpos
  have h1 := h.scan_pos
  rcases sampleDraw_cases hrng s with ⟨hrej, x, hx, hxlt, hdraw⟩ | ⟨hrej, hdraw⟩
  · rw [sampleStep, hdraw]
    constructor
    · exact h.offer hx hxlt hpos rfl rfl rfl h1 fun v hv1 hv => .inl (h.scanned v hv1 hv)
    · obtain ⟨hscan, ⟨hc, hr⟩ | ⟨hc, hr⟩⟩ := sampleOffer_progress x
        { s with drawn := s.drawn + 1, rejected := s.rejected + 1 }
      · rw [sampleMeasure, sampleMeasure, hscan, hc, hr]
        dsimp only
        omega
      · rw [sampleMeasure, sampleMeasure, hscan, hc, hr]
        dsimp only
        omega
  · rw [sampleStep, hdraw]
    constructor
    · refine h.offer (zero_le_one.trans h1) hlt hpos rfl rfl rfl (h1.trans (Int.le_add_one le_rfl)) ?_
      intro v hv1 hv
      rcases (Int.lt_add_one_iff.mp hv).lt_or_eq with hv | hv
      · exact .inl (h.scanned v hv1 hv)
      · exact .inr hv
    · have hle := h.scan_le
      have hcard := h.card_seen
      have hcount := h.count_eq
      obtain ⟨hscan, ⟨hc, hr⟩ | ⟨hc, hr⟩⟩ := sampleOffer_progress s.scan
        { s with scan := s.scan + 1, rejected := s.rejected + 1 }
      · rw [sampleMeasure, sampleMeasure, hscan, hc, hr]
        dsimp only [Mpz] at hle h1 ⊢
        omega
      · rw [sampleMeasure, sampleMeasure, hscan, hc, hr]
        dsimp only [Mpz] at hle h1 ⊢
        omega

theorem sampleInv_start (bound : Mpz) (out : List Mpz) (seen : Finset String) (count : ℕ) :
    SampleInv bound out seen count [] ⟨out, seen, count, 0, 0, 1⟩ := by
  refine ⟨by simp, by simp [texts], List.nodup_nil, by simp, by simp, le_refl (1 : ℤ), fun v hv1 hv => ?_⟩
  exact absurd hv1 (not_le.mpr hv)

theorem sampleChecks_ok {env : Env} {q : Mpz} (h : sampleChecks env count q out seen = .ok bound) :
    benchmarkInputBound env q = .ok bound ∧ ((seen.card + count : ℕ) : Mpz) ≤ bound - 1 := by
  obtain ⟨total, -, h⟩ := bind_eq_ok.mp h
  obtain ⟨⟨⟩, -, h⟩ := bind_eq_ok.mp h
  obtain ⟨b, hb, h⟩ := bind_eq_ok.mp h
  obtain ⟨requested, hreq, h⟩ := bind_eq_ok.mp h
  obtain rfl := cgCheckedAdd_ok hreq
  split at h
  · cases h
  · next hle =>
    cases h
    exact ⟨hb, not_lt.mp hle⟩

theorem sampleChecks_of {env : Env} {q : Mpz} {limit : ℕ} (hlimit : cgMaxItems env = .ok limit)
    (hout : out.length + count ≤ limit) (hseen : seen.card + count ≤ limit)
    (hbound : benchmarkInputBound env q = .ok bound)
    (hcapacity : ((seen.card + count : ℕ) : Mpz) ≤ bound - 1) :
    sampleChecks env count q out seen = .ok bound := by
  have hadd := cgCheckedAdd_ok_iff.mpr ⟨rfl, limit, hlimit, hout⟩
  have hadd' := cgCheckedAdd_ok_iff.mpr ⟨rfl, limit, hlimit, hseen⟩
  have hvalid := cgValidateCount_zero_ok.mpr ⟨limit, hlimit, hout⟩
  rw [sampleChecks, hadd, ok_bind, hvalid, ok_bind, hbound, ok_bind, hadd', ok_bind,
    if_neg (not_lt.mpr hcapacity)]
  rfl

/-- The sampled values, appended to `out` and added to `seen`. -/
structure Sampled (bound : Mpz) (out : List Mpz) (seen : Finset String) (count : ℕ) (values : List Mpz)
    (s : Sampling) : Prop where
  out_eq : s.out = out ++ values
  seen_eq : s.seen = seen ∪ texts values
  length_eq : values.length = count
  distinct : values.Nodup
  fresh : ∀ v ∈ values, 0 < v ∧ v < bound ∧ v.repr ∉ seen

theorem Sampled.card_seen (h : Sampled bound out seen count values s) :
    s.seen.card = seen.card + count := by
  rw [h.seen_eq, card_union_texts h.distinct fun v hv => (h.fresh v hv).2.2, h.length_eq]

theorem Sampled.length_out (h : Sampled bound out seen count values s) :
    s.out.length = out.length + count := by
  rw [h.out_eq, List.length_append, h.length_eq]

theorem sampleUniqueFieldElements_ok {env : Env} {q : Mpz} {rng : RandGen}
    (hchecks : sampleChecks env count q out seen = .ok bound)
    (hrng : ∀ i, 0 ≤ rng i bound ∧ rng i bound < bound) :
    ∃ values s, Sampled bound out seen count values s ∧
      ∀ rounds, 66 * count + seen.card + 64 ≤ rounds →
        sampleUniqueFieldElements env rounds count q rng out seen = .ok (some s) := by
  have hcapacity := (sampleChecks_ok hchecks).2
  have hstep : ∀ s, (∃ values, SampleInv bound out seen count values s) → sampleGuard s = true →
      (∃ values, SampleInv bound out seen count values (sampleStep rng bound s)) ∧
        sampleMeasure (seen.card + count) (sampleStep rng bound s) < sampleMeasure (seen.card + count) s := by
    rintro s ⟨values, h⟩ hguard
    exact sampleStep_inv hrng hcapacity h hguard
  have hmeasure : sampleMeasure (seen.card + count) ⟨out, seen, count, 0, 0, 1⟩ =
      66 * count + seen.card + 64 := by
    rw [sampleMeasure]
    change 65 * count + (64 - 0) + (seen.card + count + 1 - 1) = _
    omega
  obtain ⟨s, hrun, ⟨values, h⟩, hexit⟩ := run_terminates (sampleMeasure (seen.card + count)) hstep
    ⟨[], sampleInv_start bound out seen count⟩ le_rfl
  have hzero : s.count = 0 := by simpa [sampleGuard] using hexit
  have hlen : values.length = count := by
    have hc := h.count_eq
    omega
  refine ⟨values, s, ⟨h.out_eq, h.seen_eq, hlen, h.distinct, h.fresh⟩, fun rounds hrounds => ?_⟩
  rw [sampleUniqueFieldElements, hchecks, ok_bind, run_mono (by omega) hrun]
  rfl

/-- Sampling ends whatever the generator answers, and appends exactly `count` new values. -/
theorem sampleUniqueFieldElements_exact {env : Env} {q : Mpz} {rng : RandGen}
    (hchecks : sampleChecks env count q out seen = .ok bound)
    (hrng : ∀ i, 0 ≤ rng i bound ∧ rng i bound < bound) :
    (∃ values s, Sampled bound out seen count values s ∧
      ∀ rounds, 66 * count + seen.card + 64 ≤ rounds →
        sampleUniqueFieldElements env rounds count q rng out seen = .ok (some s)) ∧
      ∀ s, Visits sampleGuard (sampleStep rng bound) ⟨out, seen, count, 0, 0, 1⟩ s → 0 < s.count →
        64 ≤ s.rejected → s.scan < bound := by
  refine ⟨sampleUniqueFieldElements_ok hchecks hrng, ?_⟩
  intro s hvisits hpos _
  have hcapacity := (sampleChecks_ok hchecks).2
  have hstep : ∀ s, (∃ values, SampleInv bound out seen count values s) → sampleGuard s = true →
      ∃ values, SampleInv bound out seen count values (sampleStep rng bound s) := by
    rintro s ⟨values, h⟩ hguard
    exact (sampleStep_inv hrng hcapacity h hguard).1
  obtain ⟨values, h⟩ := hvisits.inv hstep ⟨[], sampleInv_start bound out seen count⟩
  exact h.scan_lt hcapacity hpos

theorem sampleUniqueFieldElements_exact_constant :
    (∃ values s, Sampled 5 [] {"2"} 2 values s ∧
      ∀ rounds, 66 * 2 + Finset.card {"2"} + 64 ≤ rounds →
        sampleUniqueFieldElements (fun _ => none) rounds 2 5 (fun _ _ => 2) [] {"2"} = .ok (some s)) ∧
      ∀ s, Visits sampleGuard (sampleStep (fun _ _ => 2) 5) ⟨[], {"2"}, 2, 0, 0, 1⟩ s → 0 < s.count →
        64 ≤ s.rejected → s.scan < 5 := by
  have hlimit : cgMaxItems (fun _ => none) = .ok (2 ^ 20) := rfl
  have hbits : cgConfigSize (fun _ => none) "CG_BENCH_INPUT_BITS" 128 4096 false = .ok 128 := rfl
  have hbound : benchmarkInputBound (fun _ => none) 5 = .ok 5 := benchmarkInputBound_ok hbits
  exact sampleUniqueFieldElements_exact
    (sampleChecks_of hlimit (by decide) (by decide) hbound (by decide)) fun _ => by decide

end

section

variable {env : Env} {mA mB : ℕ} {q bound : Mpz}

theorem psiSetsChecks_ok (h : psiSetsChecks env mA mB q [] [] = .ok bound) :
    0 < mA ∧ 0 < mB ∧ (∃ limit, cgMaxItems env = .ok limit ∧ mA + mB ≤ limit) ∧
      benchmarkInputBound env q = .ok bound ∧ ((mA + mB - min mA mB / 5 : ℕ) : Mpz) ≤ bound - 1 := by
  obtain ⟨⟨⟩, hA, h⟩ := bind_eq_ok.mp h
  obtain ⟨⟨⟩, hB, h⟩ := bind_eq_ok.mp h
  rw [if_neg (by simp)] at h
  obtain ⟨sum, hsum, h⟩ := bind_eq_ok.mp h
  obtain ⟨b, hb, h⟩ := bind_eq_ok.mp h
  obtain ⟨rfl, hlimit⟩ := cgCheckedAdd_ok_iff.mp hsum
  split at h
  · cases h
  · next hle =>
    cases h
    exact ⟨(cgValidateCount_ok.mp hA).1, (cgValidateCount_ok.mp hB).1, hlimit, hb, not_lt.mp hle⟩

theorem toFinset_append_inter {shared a b : List Mpz} (hnew : ∀ v ∈ b, v ∉ a) :
    (shared ++ a).toFinset ∩ (shared ++ b).toFinset = shared.toFinset := by
  ext v
  simp only [Finset.mem_inter, List.mem_toFinset, List.mem_append]
  constructor
  · rintro ⟨hA | hA, hB | hB⟩
    · exact hA
    · exact hA
    · exact hB
    · exact absurd hA (hnew v hB)
  · intro hv
    exact ⟨.inl hv, .inl hv⟩

theorem nodup_append_fresh {shared values : List Mpz} (hs : shared.Nodup) (hv : values.Nodup)
    (hfresh : ∀ v ∈ values, v ∉ shared) : (shared ++ values).Nodup := by
  refine List.nodup_append.mpr ⟨hs, hv, fun v hmem w hw => ?_⟩
  rintro rfl
  exact hfresh v hw hmem

/-- Two samplings that go on from a shared one have exactly that one in common. -/
theorem Sampled.shared {shared a b : ℕ} {v1 v2 v3 : List Mpz} {s1 s2 s3 : Sampling}
    (hs1 : Sampled bound [] ∅ shared v1 s1) (hs2 : Sampled bound s1.out s1.seen a v2 s2)
    (hs3 : Sampled bound s1.out s2.seen b v3 s3) :
    s2.out.Nodup ∧ s3.out.Nodup ∧ (∀ v ∈ s2.out, 0 < v ∧ v < bound) ∧
      (∀ v ∈ s3.out, 0 < v ∧ v < bound) ∧ (s2.out.toFinset ∩ s3.out.toFinset).card = shared := by
  have hout1 : s1.out = v1 := hs1.out_eq
  have hnew2 : ∀ v ∈ v2, v ∉ v1 := by
    intro v hv hmem
    refine (hs2.fresh v hv).2.2 ?_
    rw [hs1.seen_eq]
    exact Finset.mem_union_right _ (mem_texts.mpr hmem)
  have hnew3 : ∀ v ∈ v3, v ∉ v1 ∧ v ∉ v2 := by
    intro v hv
    have hfresh := (hs3.fresh v hv).2.2
    rw [hs2.seen_eq, hs1.seen_eq, Finset.mem_union, Finset.mem_union, not_or, not_or, mem_texts,
      mem_texts] at hfresh
    exact ⟨hfresh.1.2, hfresh.2⟩
  have hrange : ∀ v ∈ v1, 0 < v ∧ v < bound := fun v hv => ⟨(hs1.fresh v hv).1, (hs1.fresh v hv).2.1⟩
  have houtA : s2.out = v1 ++ v2 := by rw [hs2.out_eq, hout1]
  have houtB : s3.out = v1 ++ v3 := by rw [hs3.out_eq, hout1]
  rw [houtA, houtB]
  refine ⟨nodup_append_fresh hs1.distinct hs2.distinct hnew2,
    nodup_append_fresh hs1.distinct hs3.distinct fun v hv => (hnew3 v hv).1, ?_, ?_, ?_⟩
  · exact List.forall_mem_append.mpr ⟨hrange, fun v hv => ⟨(hs2.fresh v hv).1, (hs2.fresh v hv).2.1⟩⟩
  · exact List.forall_mem_append.mpr ⟨hrange, fun v hv => ⟨(hs3.fresh v hv).1, (hs3.fresh v hv).2.1⟩⟩
  · rw [toFinset_append_inter fun v hv => (hnew3 v hv).2, List.toFinset_card_of_nodup hs1.distinct,
      hs1.length_eq]

/-- The generated sets have the promised sizes and overlap. -/
theorem makeRandomPsiSetsFullField_overlap {makeRandgen : ℕ → ℕ → RandGen} {seed : ℕ}
    (hchecks : psiSetsChecks env mA mB q [] [] = .ok bound)
    (hrng : ∀ domain i, 0 ≤ makeRandgen seed domain i bound ∧ makeRandgen seed domain i bound < bound) :
    ∃ setA setB, (∀ rounds, 66 * (mA + mB) + 64 ≤ rounds →
        makeRandomPsiSetsFullField env makeRandgen rounds mA mB seed q [] [] = .ok (some (setA, setB))) ∧
      setA.length = mA ∧ setB.length = mB ∧ setA.Nodup ∧ setB.Nodup ∧
      (∀ v ∈ setA, 0 < v ∧ v < bound) ∧ (∀ v ∈ setB, 0 < v ∧ v < bound) ∧
      (setA.toFinset ∩ setB.toFinset).card = min mA mB / 5 := by
  obtain ⟨hA, hB, ⟨limit, hlimit, hle⟩, hbound, hcapacity⟩ := psiSetsChecks_ok hchecks
  obtain ⟨o, ho⟩ : ∃ o, o = min mA mB / 5 := ⟨_, rfl⟩
  have hoA : o ≤ mA := by omega
  have hoB : o ≤ mB := by omega
  rw [← ho] at hcapacity
  have hsize : ∀ n : ℕ, n ≤ mA + mB - o → (n : Mpz) ≤ bound - 1 :=
    fun n hn => (Int.ofNat_le.mpr hn).trans hcapacity
  -- the shared elements
  have hchecks1 : sampleChecks env o q [] ∅ = .ok bound := by
    refine sampleChecks_of hlimit ?_ ?_ hbound (hsize _ ?_)
    all_goals
      simp only [List.length_nil, Finset.card_empty]
      omega
  obtain ⟨v1, s1, hs1, hrun1⟩ := sampleUniqueFieldElements_ok hchecks1 (hrng 0x5053495f53484152)
  have hcard1 := hs1.card_seen
  have hlen1 := hs1.length_out
  rw [Finset.card_empty, Nat.zero_add] at hcard1
  rw [List.length_nil, Nat.zero_add] at hlen1
  -- the rest of the first set
  have hchecks2 : sampleChecks env (mA - o) q s1.out s1.seen = .ok bound := by
    refine sampleChecks_of hlimit ?_ ?_ hbound (hsize _ ?_)
    all_goals omega
  obtain ⟨v2, s2, hs2, hrun2⟩ := sampleUniqueFieldElements_ok hchecks2 (hrng 0x5053495f415f5f5f)
  have hcard2 := hs2.card_seen
  have hlen2 := hs2.length_out
  -- the rest of the second set
  have hchecks3 : sampleChecks env (mB - o) q s1.out s2.seen = .ok bound := by
    refine sampleChecks_of hlimit ?_ ?_ hbound (hsize _ ?_)
    all_goals omega
  obtain ⟨v3, s3, hs3, hrun3⟩ := sampleUniqueFieldElements_ok hchecks3 (hrng 0x5053495f425f5f5f)
  have hlen3 := hs3.length_out
  obtain ⟨hnodup2, hnodup3, hrange2, hrange3, hinter⟩ := hs1.shared hs2 hs3
  refine ⟨s2.out, s3.out, fun rounds hrounds => ?_, by omega, by omega, hnodup2, hnodup3, hrange2, hrange3,
    hinter.trans ho⟩
  simp only [makeRandomPsiSetsFullField, hchecks, ok_bind, ← ho]
  rw [hrun1 rounds (by simp only [Finset.card_empty]; omega), ok_bind]
  simp only [List.nil_append]
  rw [hrun2 rounds (by omega), ok_bind]
  simp only []
  rw [hrun3 rounds (by omega), ok_bind]
  rfl

/-- A generator that always answers zero, and no element to spare. -/
theorem makeRandomPsiSetsFullField_overlap_scan :
    ∃ setA setB, (∀ rounds, 66 * (5 + 5) + 64 ≤ rounds →
        makeRandomPsiSetsFullField (fun _ => none) (fun _ _ _ _ => 0) rounds 5 5 7 10 [] [] =
          .ok (some (setA, setB))) ∧
      setA.length = 5 ∧ setB.length = 5 ∧ setA.Nodup ∧ setB.Nodup ∧
      (∀ v ∈ setA, 0 < v ∧ v < 10) ∧ (∀ v ∈ setB, 0 < v ∧ v < 10) ∧
      (setA.toFinset ∩ setB.toFinset).card = min 5 5 / 5 := by
  have hcount : cgValidateCount (fun _ => none) 5 false = .ok () := rfl
  have hsum : cgCheckedAdd (fun _ => none) 5 5 = .ok 10 := rfl
  have hbits : cgConfigSize (fun _ => none) "CG_BENCH_INPUT_BITS" 128 4096 false = .ok 128 := rfl
  have hbound : benchmarkInputBound (fun _ => none) 10 = .ok 10 := benchmarkInputBound_ok hbits
  have hchecks : psiSetsChecks (fun _ => none) 5 5 10 [] [] = .ok 10 := by
    rw [psiSetsChecks, hcount, ok_bind, ok_bind, if_neg (by simp), hsum, ok_bind, hbound, ok_bind,
      if_neg (by decide)]
    rfl
  exact makeRandomPsiSetsFullField_overlap hchecks fun _ _ => by decide

end

end RfClassGroups
