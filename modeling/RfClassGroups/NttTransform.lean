import RfClassGroups.NttRoot
import RfClassGroups.NttStage

/-! The transform evaluates at the powers of the root, and the inverse
transform interpolates there. -/

open Polynomial CoeffList ExceptList Loops

namespace RfClassGroups

def stageRoot (inverse : Bool) (s : ℕ) : NttField :=
  if inverse then (nttRoot s)⁻¹ else nttRoot s

theorem stageRoot_sq (inverse : Bool) (s : ℕ) (hs : s < 64) :
    stageRoot inverse (s + 1) ^ 2 = stageRoot inverse s := by
  cases inverse <;> simp [stageRoot, nttRoot_sq s hs]

theorem stageRoot_pow_half (inverse : Bool) (s : ℕ) (hs : s < 64) :
    stageRoot inverse (s + 1) ^ 2 ^ s = -1 := by
  cases inverse with
  | false => exact nttRoot_pow_half s hs
  | true => simp [stageRoot, inv_pow, nttRoot_pow_half s hs, inv_neg]

theorem nttStageRoot_ok {env : Env} {inverse : Bool} {s : ℕ} {w : Mpz}
    (h : nttStageRoot env cgNtt128Prime inverse (2 ^ s) = .ok w) :
    s ≤ 64 ∧ (w : NttField) = stageRoot inverse s := by
  obtain ⟨w', hw', h⟩ := bind_eq_ok.mp h
  obtain ⟨hs, hcast⟩ := nttPrimitiveRoot_ok hw'
  cases inverse with
  | false =>
    simp only [Bool.false_eq_true, if_false, pure_eq_ok, Except.ok.injEq] at h
    exact ⟨hs, by rw [← h, hcast]; rfl⟩
  | true =>
    rw [if_pos rfl] at h
    exact ⟨hs, by rw [modInverse_cast h, hcast]; rfl⟩

theorem nttStageRoot_exists {env : Env} (henv : nttRuntimeEnabled env = true) (inverse : Bool)
    {s : ℕ} (hs : s ≤ 64) : ∃ w, nttStageRoot env cgNtt128Prime inverse (2 ^ s) = .ok w := by
  obtain ⟨w, hw⟩ := nttPrimitiveRoot_exists henv hs
  rw [nttStageRoot, hw, ok_bind]
  cases inverse with
  | false => exact ⟨w, rfl⟩
  | true =>
    refine modInverse_exists prime_cgNtt128Prime ?_
    rw [(nttPrimitiveRoot_ok hw).2]
    exact nttRoot_ne_zero s hs

theorem nttStage_ok {env : Env} {inverse : Bool} {k s : ℕ} (hs : s < k) {a a' : List Mpz}
    (ha : a.length = 2 ^ k)
    (h : nttStage env cgNtt128Prime inverse a (2 ^ (s + 1)) = .ok a') :
    s + 1 ≤ 64 ∧ a'.length = 2 ^ k ∧ ∀ x < 2 ^ k, entry NttField a' x =
      Dft.stage (2 ^ s) (stageRoot inverse (s + 1)) (entry NttField a) x := by
  obtain ⟨w, hw, h⟩ := bind_eq_ok.mp h
  obtain ⟨hs', hcast⟩ := nttStageRoot_ok hw
  simp only [pure_eq_ok, Except.ok.injEq] at h
  have hlen : a.length = 2 ^ (k - (s + 1)) * (2 * 2 ^ s) := by
    rw [ha, ← pow_succ', ← pow_add, Nat.sub_add_cancel hs]
  have hhalf : 2 ^ (s + 1) / 2 = 2 ^ s := by omega
  rw [hhalf, pow_succ'] at h
  obtain ⟨hl, hx⟩ := nttStage_blocks cast_cgNtt128Prime w (Nat.two_pow_pos s) hlen
  rw [h] at hl hx
  rw [hcast] at hx
  exact ⟨hs', hl.trans ha, fun x hxk => hx x (by rwa [ha])⟩

/-- The `len` loop computes the butterfly stages of the specification. -/
theorem nttStages_ok {env : Env} {inverse : Bool} {k : ℕ} {a b r : List Mpz}
    (hb : b.length = 2 ^ k) (hrev : ∀ x < 2 ^ k, b.getD x 0 = a.getD (Dft.bitRev k x) 0)
    (h : (List.range k).foldlM
      (fun a s => nttStage env cgNtt128Prime inverse a (2 ^ (s + 1))) b = .ok r) :
    k ≤ 64 ∧ r.length = 2 ^ k ∧ ∀ x < 2 ^ k, entry NttField r x =
      Dft.stages k (stageRoot inverse) (entry NttField a) k x := by
  have hinv := foldlM_range_inv (P := fun s r => s ≤ 64 ∧ r.length = 2 ^ k ∧
    ∀ x < 2 ^ k, entry NttField r x =
      Dft.stages k (stageRoot inverse) (entry NttField a) s x) h ?_ ?_
  · exact hinv
  · refine ⟨Nat.zero_le _, hb, fun x hx => ?_⟩
    rw [entry, hrev x hx]
    rfl
  · rintro s c c' hs ⟨_, hlen, hc⟩ hstep
    obtain ⟨hs', hlen', hc'⟩ := nttStage_ok hs hlen hstep
    refine ⟨hs', hlen', fun x hx => ?_⟩
    have hsize : 2 ^ k = 2 ^ (k - (s + 1)) * (2 * 2 ^ s) := by
      rw [← pow_succ', ← pow_add, Nat.sub_add_cancel hs]
    rw [hc' x hx, Dft.stages]
    refine stage_congr (m := 2 ^ (k - (s + 1))) _ (fun y hy => ?_) x (hsize ▸ hx)
    rw [← hsize] at hy
    exact hc y hy

theorem nttStages_exists {env : Env} (henv : nttRuntimeEnabled env = true) (inverse : Bool)
    {k : ℕ} (hk : k ≤ 64) (b : List Mpz) : ∃ r, (List.range k).foldlM
      (fun a s => nttStage env cgNtt128Prime inverse a (2 ^ (s + 1))) b = .ok r := by
  obtain ⟨r, hr, _⟩ := foldlM_range_exists (P := fun _ _ => True)
    (f := fun a s => nttStage env cgNtt128Prime inverse a (2 ^ (s + 1))) (s := b) (n := k)
    trivial fun s c hs _ => by
      obtain ⟨w, hw⟩ := nttStageRoot_exists henv inverse (s := s + 1) (by omega)
      exact ⟨_, by rw [nttStage, hw, ok_bind]; rfl, trivial⟩
  exact ⟨r, hr⟩

theorem nttInplace_domain {env : Env} {a r : List Mpz} {q : Mpz} {inverse : Bool}
    (h : nttInplace env a q inverse = .ok r) :
    nttRuntimeEnabled env = true ∧ q = cgNtt128Prime ∧ ∃ k, a.length = 2 ^ k := by
  unfold nttInplace at h
  split at h
  · simp at h
  · next hsup => exact nttDomainSupported_iff.mp (by simpa using hsup)

theorem nttInplace_stages {env : Env} {a r : List Mpz} {inverse : Bool} {k : ℕ}
    (ha : a.length = 2 ^ k) (h : nttInplace env a cgNtt128Prime inverse = .ok r) :
    k ≤ 64 ∧ r.length = 2 ^ k ∧ ∀ x < 2 ^ k, entry NttField r x =
      (∑ t ∈ Finset.range (2 ^ k), entry NttField a t * stageRoot inverse k ^ (x * t)) *
        (if inverse then ((2 ^ k : ℕ) : NttField)⁻¹ else 1) := by
  unfold nttInplace at h
  split at h
  · simp at h
  obtain ⟨b, hb, h⟩ := bind_eq_ok.mp h
  obtain ⟨hlen, hrev⟩ := bitReversePermute_spec ha
  rw [ha, Nat.log2_two_pow] at hb
  obtain ⟨hk, hblen, hbx⟩ := nttStages_ok hlen hrev hb
  have hsum : ∀ x < 2 ^ k, entry NttField b x =
      ∑ t ∈ Finset.range (2 ^ k), entry NttField a t * stageRoot inverse k ^ (x * t) :=
    fun x hx => (hbx x hx).trans (Dft.stages_dft _
      (fun s hs => stageRoot_sq inverse s (by omega))
      (fun s hs => stageRoot_pow_half inverse s (by omega)) x hx)
  cases inverse with
  | false =>
    simp only [Bool.false_eq_true, if_false, pure_eq_ok, Except.ok.injEq] at h
    subst h
    exact ⟨hk, hblen, fun x hx => by rw [hsum x hx, if_neg Bool.false_ne_true, mul_one]⟩
  | true =>
    rw [if_pos rfl] at h
    obtain ⟨nInv, hn, h⟩ := bind_eq_ok.mp h
    simp only [pure_eq_ok, Except.ok.injEq] at h
    subst h
    refine ⟨hk, by rw [List.length_map, hblen], fun x hx => ?_⟩
    have hinv : (nInv : NttField) = ((2 ^ k : ℕ) : NttField)⁻¹ := by
      rw [modInverse_cast hn, ha, Int.cast_natCast]
    rw [if_pos rfl, ← hsum x hx, ← hinv, entry, entry, List.getD_eq_getElem _ _ (by simpa [hblen]),
      List.getElem_map, List.getD_eq_getElem _ _ (by simpa [hblen]), cast_emod cast_cgNtt128Prime,
      Int.cast_mul]

theorem nttInplace_forward {env : Env} {a r : List Mpz} {k : ℕ} (ha : a.length = 2 ^ k)
    (h : nttInplace env a cgNtt128Prime false = .ok r) :
    k ≤ 64 ∧ r.length = 2 ^ k ∧
      ∀ x < 2 ^ k, entry NttField r x = (toPoly NttField a).eval (nttRoot k ^ x) := by
  obtain ⟨hk, hlen, hx⟩ := nttInplace_stages ha h
  refine ⟨hk, hlen, fun x hxk => ?_⟩
  rw [hx x hxk, if_neg Bool.false_ne_true, mul_one, eval_toPoly_of_length ha]
  exact Finset.sum_congr rfl fun t _ => by rw [← pow_mul]; rfl

theorem nttInplace_inverse {env : Env} {a r : List Mpz} {k : ℕ} (ha : a.length = 2 ^ k)
    (h : nttInplace env a cgNtt128Prime true = .ok r) :
    k ≤ 64 ∧ r.length = 2 ^ k ∧
      ∀ x < 2 ^ k, (toPoly NttField r).eval (nttRoot k ^ x) = entry NttField a x := by
  obtain ⟨hk, hlen, hx⟩ := nttInplace_stages ha h
  refine ⟨hk, hlen, fun x hxk => ?_⟩
  have hn : ((2 ^ k : ℕ) : NttField) ≠ 0 := by
    have h2 : (2 : NttField) ≠ 0 := by decide
    rw [Nat.cast_pow, Nat.cast_ofNat]
    exact pow_ne_zero k h2
  have hroot := nttRoot_ne_zero k hk
  have hinv := Dft.dft_inverse (nttRoot_pow k hk) (mul_inv_cancel₀ hroot)
    (fun i hi j hj => nttRoot_pow_inj hk hi hj) (entry NttField a) x hxk
  rw [eval_toPoly_of_length hlen]
  calc ∑ t ∈ Finset.range (2 ^ k), entry NttField r t * (nttRoot k ^ x) ^ t
      = ∑ t ∈ Finset.range (2 ^ k), ((2 ^ k : ℕ) : NttField)⁻¹ *
          ((∑ i ∈ Finset.range (2 ^ k), entry NttField a i * (nttRoot k)⁻¹ ^ (t * i)) *
            nttRoot k ^ (x * t)) := by
        refine Finset.sum_congr rfl fun t ht => ?_
        rw [hx t (Finset.mem_range.mp ht), if_pos rfl, stageRoot, if_pos rfl, ← pow_mul]
        ring
    _ = entry NttField a x := by
        rw [← Finset.mul_sum, hinv, inv_mul_cancel_left₀ hn]

theorem nttInplace_exists {env : Env} (henv : nttRuntimeEnabled env = true) {a : List Mpz}
    {k : ℕ} (hk : k ≤ 64) (ha : a.length = 2 ^ k) (inverse : Bool) :
    ∃ r, nttInplace env a cgNtt128Prime inverse = .ok r := by
  have hsup : nttDomainSupported env cgNtt128Prime a.length = true :=
    nttDomainSupported_iff.mpr ⟨henv, rfl, k, ha⟩
  obtain ⟨b, hb⟩ := nttStages_exists henv inverse hk (bitReversePermute a)
  rw [nttInplace, hsup, ha, Nat.log2_two_pow, hb, ok_bind]
  cases inverse with
  | false => exact ⟨b, rfl⟩
  | true =>
    obtain ⟨nInv, hn⟩ := modInverse_exists prime_cgNtt128Prime (a := ((2 ^ k : ℕ) : ℤ)) (by
      rw [Int.cast_natCast, Nat.cast_pow, Nat.cast_ofNat]
      exact pow_ne_zero k (by decide))
    simp only [if_true, hn, ok_bind]
    exact ⟨_, rfl⟩

/-! The entries stay reduced. -/

theorem bitReversePermute_reduced {q : Mpz} (hq : 0 < q) {a : List Mpz}
    (ha : Reduced q a) : Reduced q (bitReversePermute a) := by
  refine foldl_inv (P := fun s : List Mpz × ℕ => Reduced q s.1) ?_ ha _
  intro s i hs
  dsimp only [bitReverseStep]
  split
  · exact (hs.set (hs.getD hq _) _).set (hs.getD hq _) _
  · exact hs

theorem butterflyBlock_reduced {q : Mpz} (hq : 0 < q) (wlen : Mpz) (half i : ℕ) {a : List Mpz}
    (ha : Reduced q a) : Reduced q (butterflyBlock q wlen half a i) := by
  refine foldl_inv (P := fun s : List Mpz × Mpz => Reduced q s.1) ?_ ha _
  intro s j hs
  exact (hs.set (emod_range hq _) _).set (emod_range hq _) _

theorem nttInplace_reduced {env : Env} {q : Mpz} (hq : 0 < q) {inverse : Bool} {a r : List Mpz}
    (ha : Reduced q a) (h : nttInplace env a q inverse = .ok r) :
    Reduced q r := by
  unfold nttInplace at h
  split at h
  · simp at h
  obtain ⟨b, hb, h⟩ := bind_eq_ok.mp h
  have hred : Reduced q b := by
    refine foldlM_range_inv (P := fun _ b => Reduced q b) hb
      (bitReversePermute_reduced hq ha) fun s c c' _ hc hstep => ?_
    obtain ⟨w, _, hstep⟩ := bind_eq_ok.mp hstep
    simp only [pure_eq_ok, Except.ok.injEq] at hstep
    subst hstep
    exact foldl_inv (P := fun b : List Mpz => Reduced q b)
      (fun s i hs => butterflyBlock_reduced hq w _ i hs) hc _
  cases inverse with
  | false =>
    simp only [Bool.false_eq_true, if_false, pure_eq_ok, Except.ok.injEq] at h
    exact h ▸ hred
  | true =>
    rw [if_pos rfl] at h
    obtain ⟨nInv, _, h⟩ := bind_eq_ok.mp h
    simp only [pure_eq_ok, Except.ok.injEq] at h
    subst h
    exact reduced_map_emod hq _ b

theorem stageRoot_pow (inverse : Bool) {k : ℕ} (hk : k ≤ 64) : stageRoot inverse k ^ 2 ^ k = 1 := by
  cases inverse with
  | false => exact nttRoot_pow k hk
  | true => rw [stageRoot, if_pos rfl, inv_pow, nttRoot_pow k hk, inv_one]

theorem stageRoot_mul (inverse : Bool) {k : ℕ} (hk : k ≤ 64) :
    stageRoot (!inverse) k * stageRoot inverse k = 1 := by
  have hne := nttRoot_ne_zero k hk
  cases inverse with
  | false => exact inv_mul_cancel₀ hne
  | true => exact mul_inv_cancel₀ hne

theorem stageRoot_inj (inverse : Bool) {k : ℕ} (hk : k ≤ 64) :
    ∀ i < 2 ^ k, ∀ j < 2 ^ k, stageRoot inverse k ^ i = stageRoot inverse k ^ j → i = j := by
  intro i hi j hj h
  cases inverse with
  | false => exact nttRoot_pow_inj hk hi hj h
  | true =>
    rw [stageRoot, if_pos rfl, inv_pow, inv_pow, inv_inj] at h
    exact nttRoot_pow_inj hk hi hj h

theorem two_pow_ne_zero (k : ℕ) : ((2 ^ k : ℕ) : NttField) ≠ 0 := by
  rw [Nat.cast_pow, Nat.cast_ofNat]
  exact pow_ne_zero k (by decide)

/-- Either direction undoes the other. -/
theorem nttInplace_undo {env : Env} {a r : List Mpz} {inverse : Bool}
    (ha : Reduced cgNtt128Prime a) (h : nttInplace env a cgNtt128Prime inverse = .ok r) :
    nttInplace env r cgNtt128Prime (!inverse) = .ok a := by
  have hpos : (0 : ℤ) < (cgNtt128Prime : ℕ) := by exact_mod_cast prime_cgNtt128Prime.pos
  obtain ⟨henv, -, k, hk⟩ := nttInplace_domain h
  obtain ⟨hk64, hrlen, hr⟩ := nttInplace_stages hk h
  obtain ⟨b, hb⟩ := nttInplace_exists henv hk64 hrlen (!inverse)
  obtain ⟨-, hblen, hbx⟩ := nttInplace_stages hrlen hb
  have hcancel := Dft.dft_inverse (stageRoot_pow (!inverse) hk64) (stageRoot_mul inverse hk64)
    (stageRoot_inj (!inverse) hk64) (entry NttField a)
  have heq : ∀ x < b.length, entry NttField b x = entry NttField a x := by
    intro x hx
    rw [hblen] at hx
    have hscale : ∀ s t : NttField, s * t = ((2 ^ k : ℕ) : NttField)⁻¹ →
        (∑ t ∈ Finset.range (2 ^ k), (∑ i ∈ Finset.range (2 ^ k),
          entry NttField a i * stageRoot inverse k ^ (t * i)) * s *
            stageRoot (!inverse) k ^ (x * t)) * t = entry NttField a x := by
      intro s t hst
      simp only [mul_right_comm _ s]
      rw [← Finset.sum_mul, hcancel x hx, mul_assoc, hst, mul_right_comm,
        mul_inv_cancel₀ (two_pow_ne_zero k), one_mul]
    rw [hbx x hx, ← hscale (if inverse then ((2 ^ k : ℕ) : NttField)⁻¹ else 1)
      (if !inverse then ((2 ^ k : ℕ) : NttField)⁻¹ else 1) (by cases inverse <;> simp)]
    congr 1
    refine Finset.sum_congr rfl fun t ht => ?_
    rw [hr t (Finset.mem_range.mp ht)]
  have hba : b = a :=
    Reduced.ext (nttInplace_reduced hpos (nttInplace_reduced hpos ha h) hb) ha
      prime_cgNtt128Prime.pos (hblen.trans hk.symm) heq
  rw [hb, hba]

theorem getD_eq_sum_emod {n k : ℕ} (hn : 0 < n) {a r : List ℤ} (hr : Reduced n r) {x : ℕ} {z : ℕ → ℤ}
    (h : entry (ZMod n) r x = ∑ j ∈ Finset.range k, entry (ZMod n) a j * (z j : ZMod n)) :
    r.getD x 0 = (∑ j ∈ Finset.range k, a.getD j 0 * z j) % n := by
  have hn' : (0 : ℤ) < n := by exact_mod_cast hn
  refine eq_of_cast_eq (hr.getD hn' x) (emod_range hn' _) ?_
  rw [cast_emod (by simp), Int.cast_sum]
  exact h.trans (Finset.sum_congr rfl fun j _ => (Int.cast_mul _ _).symm)

/-- The forward transform is the discrete Fourier transform of the root, so
the evaluation at the domain points, and each direction inverts the other. -/
theorem nttInplace_isDft {env : Env} {n : ℕ} {omega : Mpz} {a : List Mpz}
    (homega : nttPrimitiveRoot env n cgNtt128Prime = .ok omega) (hn : a.length = n)
    (ha : Reduced cgNtt128Prime a) :
    (∃ r points, nttInplace env a cgNtt128Prime false = .ok r ∧
      nttDomainPoints env n cgNtt128Prime = .ok points ∧ r.length = n ∧ points.length = n ∧
      (∀ i < n, r.getD i 0 =
        (∑ j ∈ Finset.range n, a.getD j 0 * omega ^ (i * j)) % (cgNtt128Prime : ℕ)) ∧
      (∀ i < n, r.getD i 0 =
        (∑ j ∈ Finset.range n, a.getD j 0 * points.getD i 0 ^ j) % (cgNtt128Prime : ℕ)) ∧
      nttInplace env r cgNtt128Prime true = .ok a) ∧
    ∃ r, nttInplace env a cgNtt128Prime true = .ok r ∧
      nttInplace env r cgNtt128Prime false = .ok a := by
  have hpos := prime_cgNtt128Prime.pos
  obtain ⟨henv, k, rfl⟩ : nttRuntimeEnabled env = true ∧ ∃ k, n = 2 ^ k := by
    unfold nttPrimitiveRoot at homega
    split at homega
    · simp at homega
    · next hsup =>
      obtain ⟨henv, -, hk⟩ := nttDomainSupported_iff.mp (by simpa using hsup)
      exact ⟨henv, hk⟩
  obtain ⟨hk, hroot⟩ := nttPrimitiveRoot_ok homega
  obtain ⟨r, hr⟩ := nttInplace_exists henv hk hn false
  obtain ⟨r', hr'⟩ := nttInplace_exists henv hk hn true
  obtain ⟨points, hp⟩ := nttDomainPoints_exists henv hk
  obtain ⟨-, hplen, -, hpx⟩ := nttDomainPoints_ok hp
  obtain ⟨-, hrlen, hrx⟩ := nttInplace_stages hn hr
  have hred := nttInplace_reduced (by exact_mod_cast hpos) ha hr
  refine ⟨⟨r, points, hr, hp, hrlen, hplen, ?_, ?_, nttInplace_undo ha hr⟩,
    r', hr', nttInplace_undo ha hr'⟩
  · intro i hi
    refine getD_eq_sum_emod hpos hred ?_
    rw [hrx i hi, if_neg Bool.false_ne_true, mul_one]
    refine Finset.sum_congr rfl fun j _ => ?_
    rw [Int.cast_pow, hroot]
    rfl
  · intro i hi
    refine getD_eq_sum_emod hpos hred ?_
    rw [hrx i hi, if_neg Bool.false_ne_true, mul_one]
    refine Finset.sum_congr rfl fun j _ => ?_
    rw [Int.cast_pow, hpx i hi, ← pow_mul]
    rfl

theorem nttInplace_isDft_two : ∃ omega, ∃ r points,
    nttInplace (fun _ => none) [5, 3] cgNtt128Prime false = .ok r ∧
      nttDomainPoints (fun _ => none) 2 cgNtt128Prime = .ok points ∧
      r.getD 1 0 = (∑ j ∈ Finset.range 2, [5, 3].getD j 0 * omega ^ (1 * j)) %
        (cgNtt128Prime : ℕ) ∧
      nttInplace (fun _ => none) r cgNtt128Prime true = .ok [5, 3] := by
  have henv : nttRuntimeEnabled (fun _ => none) = true := rfl
  obtain ⟨omega, homega⟩ := nttPrimitiveRoot_exists henv (s := 1) (by decide)
  obtain ⟨⟨r, points, hr, hp, -, -, hx, -, hback⟩, -⟩ :=
    nttInplace_isDft (a := [5, 3]) homega rfl (by decide)
  exact ⟨omega, r, points, hr, hp, hx 1 (by decide), hback⟩

end RfClassGroups
