import RfClassGroups.CheckPolynomial
import RfClassGroups.Lib.Traced

/-! The moduli that the offline checkers divide by, on any input texts. The
batched checker refuses a modulus below 2; the two polynomial checkers only
compare the moduli of their dumps. -/

open ExceptList Traced

namespace RfClassGroups

abbrev Reducing := Traced Mpz String

/-- `mpz_mod`, which traps on zero. -/
def reduce (x q : Mpz) : Reducing Mpz := ⟨if q = 0 then throw "division by zero" else return x % q, [q]⟩

def hornerReductions (coeffs : List Mpz) (alpha q : Mpz) : Reducing Mpz :=
  if coeffs = [] then return 0
  else do
    let acc ← reduce (coeffs.getLastD 0) q
    (List.range (coeffs.length - 1)).foldlM
      (fun acc k => reduce (acc * alpha + coeffs.getD (coeffs.length - 2 - k) 0) q) acc

structure OpeDumps where
  q : Mpz
  alpha : Mpz
  output : Mpz
  coeffs : List Mpz

/-- Everything that `cg_check_ope` reads; `none` where it returns 2. -/
def readOpe (env : Env) (senderText receiverText : List Char) : Except String (Option OpeDumps) := do
  let (magicS, sin) := IStream.readWord ⟨senderText, false⟩
  let (nCoeffs, sin) := sin.readSize
  let (magicR, rin) := IStream.readWord ⟨receiverText, false⟩
  if magicS ≠ "OPE_SENDER_V1".toList ∨ magicR ≠ "OPE_RECEIVER_V1".toList ∨ nCoeffs = 0 then
    return none
  cgValidateCount env nCoeffs false
  let (qSender, sin) ← readMpzText sin
  let (qReceiver, rin) ← readMpzText rin
  let (alpha, rin) ← readMpzText rin
  let (output, _) ← readMpzText rin
  if qSender ≠ qReceiver then return none
  let (coeffs, _) ← readMpzs nCoeffs sin
  return some ⟨qSender, alpha, output, coeffs⟩

def checkOpeReductions (env : Env) (senderText receiverText : List Char) : Reducing ℕ := do
  match ← lift (readOpe env senderText receiverText) with
  | none => return 2
  | some d =>
    let expected ← hornerReductions d.coeffs d.alpha d.q
    return if expected = d.output then 0 else 1

structure OpaDumps where
  q : Mpz
  nPts : ℕ
  bCoeffs : List Mpz
  aCoeffs : List Mpz
  pBCoeffs : List Mpz
  points : IStream

/-- What `cg_check_opa` reads before its loop over the points. -/
def readOpa (env : Env) (senderText receiverText : List Char) : Except String (Option OpaDumps) := do
  let (magicS, sin) := IStream.readWord ⟨senderText, false⟩
  let (additive, mask, sin) := readOpaSizes magicS sin
  let (magicR, rin) := IStream.readWord ⟨receiverText, false⟩
  let (receiver, rin) := rin.readSize
  let (nPts, rin) := rin.readSize
  if (magicS ≠ "OPA_SENDER_V1".toList ∧ magicS ≠ "OPA_SENDER_V2".toList) ∨
      magicR ≠ "OPA_RECEIVER_V1".toList ∨ additive = 0 ∨ mask = 0 ∨ receiver = 0 ∨ nPts = 0 then
    return none
  cgValidateCount env additive false
  cgValidateCount env mask false
  cgValidateCount env receiver false
  cgValidateCount env nPts false
  let (qSender, sin) ← readMpzText sin
  let (qReceiver, rin) ← readMpzText rin
  if qSender ≠ qReceiver then return none
  let (bCoeffs, sin) ← readMpzs additive sin
  let (sep, sin) := sin.readWord
  if sep ≠ ['-', '-'] then return none
  let (aCoeffs, _) ← readMpzs mask sin
  let (pBCoeffs, rin) ← readMpzs receiver rin
  let (sep, rin) := rin.readWord
  if ¬ rin.fail ∧ sep ≠ ['-', '-'] then return none
  return some ⟨qSender, nPts, bCoeffs, aCoeffs, pBCoeffs, rin⟩

def readPoint (rin : IStream) : Except String (Mpz × Mpz × IStream) := do
  let (alpha, rin) ← readMpzText rin
  let (actual, rin) ← readMpzText rin
  return (alpha, actual, rin)

def opaReductions (d : OpaDumps) (alpha : Mpz) : Reducing Mpz := do
  let b ← hornerReductions d.bCoeffs alpha d.q
  let a ← hornerReductions d.aCoeffs alpha d.q
  let x ← hornerReductions d.pBCoeffs alpha d.q
  reduce (a * x + b) d.q

def opaPoint (d : OpaDumps) (st : ℕ × IStream) (_ : ℕ) : Reducing (ℕ × IStream) := do
  let (alpha, actual, rin) ← lift (readPoint st.2)
  let expected ← opaReductions d alpha
  return (if expected ≠ actual then st.1 + 1 else st.1, rin)

def checkOpaReductions (env : Env) (senderText receiverText : List Char) : Reducing ℕ := do
  match ← lift (readOpa env senderText receiverText) with
  | none => return 2
  | some d =>
    let r ← (List.range d.nPts).foldlM (opaPoint d) (0, d.points)
    return if r.1 = 0 then 0 else 1

def addBlindReductions (q : Mpz) (ns : ℕ) (text : List Char) (sums : List Mpz × List Mpz) :
    Reducing (Option (List Mpz × List Mpz)) := do
  let (magicB, bin) := IStream.readWord ⟨text, false⟩
  let (nb, bin) := bin.readSize
  if magicB ≠ "OLE_BLINDS_V1".toList ∨ nb ≠ ns then return none
  let r ← (List.range ns).foldlM (fun st i => do
    let (aSum, bSum, bin) := st
    let (aBlind, bBlind, bin) ← lift (readPoint bin)
    let a ← reduce (aSum.getD i 0 + aBlind) q
    let b ← reduce (bSum.getD i 0 + bBlind) q
    return (aSum.set i a, bSum.set i b, bin)) (sums.1, sums.2, bin)
  return some (r.1, r.2.1)

def countErrorReductions (q : Mpz) (ns : ℕ) (sums : List Mpz × List Mpz) (sin rin : IStream) :
    Reducing ℕ := do
  let r ← (List.range ns).foldlM (fun st i => do
    let (errors, sin, rin) := st
    let (a, b, sin) ← lift (readPoint sin)
    let (x, y, rin) ← lift (readPoint rin)
    let a ← reduce (a + sums.1.getD i 0) q
    let b ← reduce (b + sums.2.getD i 0) q
    let expected ← reduce (a * x + b) q
    return (if expected ≠ y then errors + 1 else errors, sin, rin)) (0, sin, rin)
  return r.1

structure BatchOleHead where
  ns : ℕ
  q : Mpz
  sin : IStream
  rin : IStream

def readBatchOleHead (env : Env) (senderText receiverText : List Char) :
    Except String (Option BatchOleHead) := do
  let (magicS, sin) := IStream.readWord ⟨senderText, false⟩
  let (ns, sin) := sin.readSize
  let (magicR, rin) := IStream.readWord ⟨receiverText, false⟩
  let (nr, rin) := rin.readSize
  if magicS ≠ "OLE_SENDER_V1".toList ∨ magicR ≠ "OLE_RECEIVER_V1".toList ∨ ns ≠ nr then return none
  cgValidateCount env ns false
  let (q, rin) ← readMpzText rin
  if q ≤ 1 then throw "invalid checker modulus"
  return some ⟨ns, q, sin, rin⟩

def blindSumReductions (h : BatchOleHead) (blinds : Option (List Char × List Char)) :
    Reducing (Option (List Mpz × List Mpz)) :=
  let zeros := (List.replicate h.ns (0 : Mpz), List.replicate h.ns (0 : Mpz))
  match blinds with
  | none => return some zeros
  | some (senderBlinds, receiverBlinds) => do
    match ← addBlindReductions h.q h.ns senderBlinds zeros with
    | none => return none
    | some sums => addBlindReductions h.q h.ns receiverBlinds sums

def checkBatchOleReductions (env : Env) (senderText receiverText : List Char)
    (blinds : Option (List Char × List Char)) : Reducing ℕ := do
  match ← lift (readBatchOleHead env senderText receiverText) with
  | none => return 2
  | some h =>
    match ← blindSumReductions h blinds with
    | none => return 2
    | some sums =>
      let errors ← countErrorReductions h.q h.ns sums h.sin h.rin
      return if errors = 0 then 0 else 1

def opeModuli (senderText receiverText : List Char) : Except String (Mpz × Mpz) := do
  let (_, sin) := IStream.readWord ⟨senderText, false⟩
  let (_, sin) := sin.readSize
  let (_, rin) := IStream.readWord ⟨receiverText, false⟩
  let (qSender, _) ← readMpzText sin
  let (qReceiver, _) ← readMpzText rin
  return (qSender, qReceiver)

def opaModuli (senderText receiverText : List Char) : Except String (Mpz × Mpz) := do
  let (magicS, sin) := IStream.readWord ⟨senderText, false⟩
  let (_, _, sin) := readOpaSizes magicS sin
  let (_, rin) := IStream.readWord ⟨receiverText, false⟩
  let (_, rin) := rin.readSize
  let (_, rin) := rin.readSize
  let (qSender, _) ← readMpzText sin
  let (qReceiver, _) ← readMpzText rin
  return (qSender, qReceiver)

def batchOleModulus (receiverText : List Char) : Except String Mpz := do
  let (_, rin) := IStream.readWord ⟨receiverText, false⟩
  let (_, rin) := rin.readSize
  let (q, _) ← readMpzText rin
  return q

/-- A checker rejects before it reduces, or it reduces by a modulus of the dumps
that is at least 2. -/
structure SoundModulus (isModulus : Mpz → Prop) (run : Reducing ℕ) : Prop where
  guarded : ((run.outcome = .ok 2 ∨ ∃ e, run.outcome = .error e) ∧ run.events = []) ∨
    ∃ q, isModulus q ∧ 1 < q ∧ ∀ m ∈ run.events, m = q
  divides : 0 ∉ run.events
  success : run.outcome = .ok 0 → ∃ q, isModulus q ∧ 1 < q

theorem SoundModulus.of_rejects {isModulus : Mpz → Prop} {run : Reducing ℕ}
    (h : run.outcome = .ok 2 ∨ ∃ e, run.outcome = .error e) (hev : run.events = []) :
    SoundModulus isModulus run where
  guarded := .inl ⟨h, hev⟩
  divides := by simp [hev]
  success := fun hs => by
    rcases h with h | ⟨e, h⟩ <;> simp [h] at hs

theorem SoundModulus.of_only {isModulus : Mpz → Prop} {run : Reducing ℕ} {q : Mpz}
    (hq : isModulus q) (h1 : 1 < q) (h : Only (· = q) run) : SoundModulus isModulus run where
  guarded := .inr ⟨q, hq, h1, h⟩
  divides := fun h0 => by
    have hz : 0 = q := h 0 h0
    rw [← hz] at h1
    exact absurd h1 (by decide)
  success := fun _ => ⟨q, hq, h1⟩

theorem SoundModulus.one_lt {isModulus : Mpz → Prop} {run : Reducing ℕ} {q : Mpz}
    (h : SoundModulus isModulus run) (hq : q ∈ run.events) : 1 < q := by
  rcases h.guarded with ⟨_, hnil⟩ | ⟨q', _, h1, hall⟩
  · rw [hnil] at hq
    cases hq
  · rwa [hall q hq]

section

variable {q : Mpz}

theorem only_reduce (x : Mpz) : Only (· = q) (reduce x q) := by simp [Only, reduce]

theorem outcome_reduce (hq : q ≠ 0) (x : Mpz) : (reduce x q).outcome = .ok (x % q) := by
  simp [reduce, hq]

theorem only_hornerReductions (coeffs : List Mpz) (alpha : Mpz) :
    Only (· = q) (hornerReductions coeffs alpha q) := by
  unfold hornerReductions
  split
  · exact only_pure _
  · exact (only_reduce _).bind fun acc => only_foldlM (fun _ _ => only_reduce _) _ _

theorem mem_hornerReductions {coeffs : List Mpz} (hc : coeffs ≠ []) (alpha : Mpz) :
    q ∈ (hornerReductions coeffs alpha q).events := by
  rw [hornerReductions, if_neg hc]
  exact mem_events_bind.mpr (.inl (by simp [reduce]))

theorem outcome_hornerReductions (hq : q ≠ 0) (coeffs : List Mpz) (alpha : Mpz) :
    (hornerReductions coeffs alpha q).outcome = .ok (evalPolyHorner coeffs alpha q) := by
  unfold hornerReductions evalPolyHorner
  split
  · rfl
  · rw [outcome_bind, outcome_reduce hq, ok_bind, outcome_foldlM]
    simp only [outcome_reduce hq]
    exact foldlM_ok _ _ _

theorem outcome_opaReductions {d : OpaDumps} (hq : d.q ≠ 0) (alpha : Mpz) :
    (opaReductions d alpha).outcome =
      .ok (opaExpected d.q d.bCoeffs d.aCoeffs d.pBCoeffs alpha) := by
  simp only [opaReductions, outcome_bind, outcome_hornerReductions hq, ok_bind, outcome_reduce hq]
  rfl

theorem only_opaReductions (d : OpaDumps) (alpha : Mpz) :
    Only (· = d.q) (opaReductions d alpha) :=
  (only_hornerReductions _ _).bind fun _ => (only_hornerReductions _ _).bind fun _ =>
    (only_hornerReductions _ _).bind fun _ => only_reduce _

theorem only_opaPoint (d : OpaDumps) (st : ℕ × IStream) (i : ℕ) :
    Only (· = d.q) (opaPoint d st i) :=
  (only_lift _).bind fun _ => (only_opaReductions d _).bind fun _ => only_pure _

end

theorem readMpzs_length {n : ℕ} {s : IStream} {r : List Mpz × IStream}
    (h : readMpzs n s = .ok r) : r.1.length = n := by
  induction n generalizing s r with
  | zero =>
    simp only [readMpzs, pure_eq_ok, Except.ok.injEq] at h
    rw [← h]
    rfl
  | succ n ih =>
    obtain ⟨v, _, h⟩ := bind_eq_ok.mp h
    obtain ⟨rest, hrest, h⟩ := bind_eq_ok.mp h
    simp only [pure_eq_ok, Except.ok.injEq] at h
    rw [← h, List.length_cons, ih hrest]

theorem readOpe_some {env : Env} {senderText receiverText : List Char} {d : OpeDumps}
    (h : readOpe env senderText receiverText = .ok (some d)) :
    opeModuli senderText receiverText = .ok (d.q, d.q) ∧ d.coeffs ≠ [] := by
  unfold readOpe at h
  dsimp only at h
  split at h
  · simp at h
  next hhead =>
  obtain ⟨_, _, h⟩ := bind_eq_ok.mp h
  obtain ⟨s1, hs1, h⟩ := bind_eq_ok.mp h
  obtain ⟨r1, hr1, h⟩ := bind_eq_ok.mp h
  obtain ⟨r2, _, h⟩ := bind_eq_ok.mp h
  obtain ⟨r3, _, h⟩ := bind_eq_ok.mp h
  split at h
  · simp at h
  next heq =>
  obtain ⟨s2, hs2, h⟩ := bind_eq_ok.mp h
  simp only [pure_eq_ok, Except.ok.injEq, Option.some.injEq] at h
  subst h
  constructor
  · simp only [opeModuli, hs1, hr1, ok_bind, pure_eq_ok]
    rw [← not_not.mp heq]
  · have hlen := readMpzs_length hs2
    refine List.ne_nil_of_length_pos ?_
    rw [hlen]
    exact Nat.pos_of_ne_zero fun hz => hhead (.inr (.inr hz))

theorem readOpa_some {env : Env} {senderText receiverText : List Char} {d : OpaDumps}
    (h : readOpa env senderText receiverText = .ok (some d)) :
    opaModuli senderText receiverText = .ok (d.q, d.q) ∧ d.bCoeffs ≠ [] ∧ d.nPts ≠ 0 := by
  unfold readOpa at h
  dsimp only at h
  split at h
  · simp at h
  next hhead =>
  simp only [not_or] at hhead
  obtain ⟨_, _, hadd, _, _, hpts⟩ := hhead
  obtain ⟨_, _, h⟩ := bind_eq_ok.mp h
  obtain ⟨_, _, h⟩ := bind_eq_ok.mp h
  obtain ⟨_, _, h⟩ := bind_eq_ok.mp h
  obtain ⟨_, _, h⟩ := bind_eq_ok.mp h
  obtain ⟨s1, hs1, h⟩ := bind_eq_ok.mp h
  obtain ⟨r1, hr1, h⟩ := bind_eq_ok.mp h
  split at h
  · simp at h
  next heq =>
  obtain ⟨s2, hs2, h⟩ := bind_eq_ok.mp h
  split at h
  · simp at h
  obtain ⟨s3, _, h⟩ := bind_eq_ok.mp h
  obtain ⟨r2, _, h⟩ := bind_eq_ok.mp h
  split at h
  · simp at h
  simp only [pure_eq_ok, Except.ok.injEq, Option.some.injEq] at h
  subst h
  refine ⟨?_, ?_, hpts⟩
  · simp only [opaModuli, hs1, hr1, ok_bind, pure_eq_ok]
    rw [← not_not.mp heq]
  · have hlen := readMpzs_length hs2
    refine List.ne_nil_of_length_pos ?_
    rw [hlen]
    exact Nat.pos_of_ne_zero hadd

theorem guard_ope (env : Env) (senderText receiverText : List Char) :
    SoundModulus (fun q => opeModuli senderText receiverText = .ok (q, q))
      (checkOpeReductions env senderText receiverText) ↔
      ∀ d, readOpe env senderText receiverText = .ok (some d) → 1 < d.q := by
  unfold checkOpeReductions
  cases hread : readOpe env senderText receiverText with
  | error e =>
    rw [lift_error_bind]
    exact iff_of_true (.of_rejects (.inr ⟨e, rfl⟩) rfl) (by simp)
  | ok found =>
    rw [lift_ok_bind]
    cases found with
    | none => exact iff_of_true (.of_rejects (.inl rfl) rfl) (by simp)
    | some d =>
      obtain ⟨hmod, hne⟩ := readOpe_some hread
      simp only [Except.ok.injEq, Option.some.injEq, forall_eq']
      constructor
      · intro h
        exact h.one_lt (mem_events_bind.mpr (.inl (mem_hornerReductions hne d.alpha)))
      · intro h1
        exact .of_only hmod h1 ((only_hornerReductions _ _).bind fun _ => only_pure _)

theorem guard_opa (env : Env) (senderText receiverText : List Char) :
    SoundModulus (fun q => opaModuli senderText receiverText = .ok (q, q))
      (checkOpaReductions env senderText receiverText) ↔
      ∀ d p, readOpa env senderText receiverText = .ok (some d) →
        readPoint d.points = .ok p → 1 < d.q := by
  unfold checkOpaReductions
  cases hread : readOpa env senderText receiverText with
  | error e =>
    rw [lift_error_bind]
    exact iff_of_true (.of_rejects (.inr ⟨e, rfl⟩) rfl) (by simp)
  | ok found =>
    rw [lift_ok_bind]
    cases found with
    | none => exact iff_of_true (.of_rejects (.inl rfl) rfl) (by simp)
    | some d =>
      obtain ⟨hmod, hne, hpts⟩ := readOpa_some hread
      obtain ⟨m, hm⟩ := Nat.exists_eq_succ_of_ne_zero hpts
      simp only [Except.ok.injEq, Option.some.injEq]
      rw [hm, List.range_succ_eq_map, List.foldlM_cons]
      cases hpoint : readPoint d.points with
      | error e =>
        have hfirst : opaPoint d (0, d.points) 0 = lift (.error e) := by
          rw [opaPoint, hpoint, lift_error_bind]
        rw [hfirst, lift_error_bind, lift_error_bind]
        refine iff_of_true (.of_rejects (.inr ⟨e, rfl⟩) rfl) ?_
        rintro d' p rfl hp
        rw [hpoint] at hp
        cases hp
      | ok p =>
        constructor
        · intro h d' p' hd _
          subst hd
          refine h.one_lt (mem_events_bind.mpr (.inl (mem_events_bind.mpr (.inl ?_))))
          rw [opaPoint, hpoint, lift_ok_bind]
          exact mem_events_bind.mpr (.inl (mem_events_bind.mpr (.inl (mem_hornerReductions hne _))))
        · intro h
          exact .of_only hmod (h d p rfl hpoint) (((only_opaPoint d _ _).bind fun _ =>
            only_foldlM (only_opaPoint d) _ _).bind fun _ => only_pure _)

theorem readBatchOleHead_some {env : Env} {senderText receiverText : List Char} {h : BatchOleHead}
    (hread : readBatchOleHead env senderText receiverText = .ok (some h)) :
    batchOleModulus receiverText = .ok h.q ∧ 1 < h.q := by
  unfold readBatchOleHead at hread
  dsimp only at hread
  split at hread
  · simp at hread
  obtain ⟨_, _, hread⟩ := bind_eq_ok.mp hread
  obtain ⟨r, hr, hread⟩ := bind_eq_ok.mp hread
  split at hread
  · simp at hread
  next hq =>
  simp only [pure_eq_ok, Except.ok.injEq, Option.some.injEq] at hread
  subst hread
  refine ⟨?_, not_le.mp hq⟩
  simp only [batchOleModulus, hr, ok_bind, pure_eq_ok]

theorem only_addBlindReductions (q : Mpz) (ns : ℕ) (text : List Char)
    (sums : List Mpz × List Mpz) : Only (· = q) (addBlindReductions q ns text sums) := by
  unfold addBlindReductions
  dsimp only
  split
  · exact only_pure _
  · refine (only_foldlM (fun st i => ?_) _ _).bind fun _ => only_pure _
    exact (only_lift _).bind fun _ => (only_reduce _).bind fun _ =>
      (only_reduce _).bind fun _ => only_pure _

theorem only_blindSumReductions (h : BatchOleHead) (blinds : Option (List Char × List Char)) :
    Only (· = h.q) (blindSumReductions h blinds) := by
  unfold blindSumReductions
  cases blinds with
  | none => exact only_pure _
  | some texts =>
    refine (only_addBlindReductions _ _ _ _).bind fun first => ?_
    cases first with
    | none => exact only_pure _
    | some sums => exact only_addBlindReductions _ _ _ _

theorem only_countErrorReductions (q : Mpz) (ns : ℕ) (sums : List Mpz × List Mpz)
    (sin rin : IStream) : Only (· = q) (countErrorReductions q ns sums sin rin) := by
  refine (only_foldlM (fun st i => ?_) _ _).bind fun _ => only_pure _
  exact (only_lift _).bind fun _ => (only_lift _).bind fun _ => (only_reduce _).bind fun _ =>
    (only_reduce _).bind fun _ => (only_reduce _).bind fun _ => only_pure _

theorem guard_batchOle (env : Env) (senderText receiverText : List Char)
    (blinds : Option (List Char × List Char)) :
    SoundModulus (fun q => batchOleModulus receiverText = .ok q)
      (checkBatchOleReductions env senderText receiverText blinds) := by
  unfold checkBatchOleReductions
  cases hread : readBatchOleHead env senderText receiverText with
  | error e =>
    rw [lift_error_bind]
    exact .of_rejects (.inr ⟨e, rfl⟩) rfl
  | ok found =>
    rw [lift_ok_bind]
    cases found with
    | none => exact .of_rejects (.inl rfl) rfl
    | some h =>
      obtain ⟨hmod, h1⟩ := readBatchOleHead_some hread
      refine .of_only hmod h1 ((only_blindSumReductions h blinds).bind fun sums => ?_)
      cases sums with
      | none => exact only_pure _
      | some sums => exact (only_countErrorReductions _ _ _ _ _).bind fun _ => only_pure _

theorem checkOpe_read (env : Env) (senderText receiverText : List Char) :
    checkOpe env senderText receiverText = (do
      match ← readOpe env senderText receiverText with
      | none => return 2
      | some d => return if evalPolyHorner d.coeffs d.alpha d.q = d.output then 0 else 1) := by
  unfold checkOpe readOpe
  dsimp only
  split
  · rfl
  simp only [bind_assoc]
  refine bind_congr fun _ => bind_congr fun _ => bind_congr fun _ => bind_congr fun _ =>
    bind_congr fun _ => ?_
  split
  · rfl
  · rw [bind_assoc]
    rfl

theorem outcome_checkOpe {env : Env} {senderText receiverText : List Char}
    (h : ∀ d, readOpe env senderText receiverText = .ok (some d) → d.q ≠ 0) :
    (checkOpeReductions env senderText receiverText).outcome =
      checkOpe env senderText receiverText := by
  rw [checkOpe_read, checkOpeReductions, outcome_bind, outcome_lift]
  cases hread : readOpe env senderText receiverText with
  | error e => rfl
  | ok found =>
    cases found with
    | none => rfl
    | some d =>
      rw [ok_bind, ok_bind]
      dsimp only
      rw [outcome_bind, outcome_hornerReductions (h d hread), ok_bind]
      rfl

theorem checkOpa_read (env : Env) (senderText receiverText : List Char) :
    checkOpa env senderText receiverText = (do
      match ← readOpa env senderText receiverText with
      | none => return 2
      | some d =>
        let errors ← countOpaErrors d.q d.nPts d.bCoeffs d.aCoeffs d.pBCoeffs d.points
        return if errors = 0 then 0 else 1) := by
  unfold checkOpa readOpa
  dsimp only
  split
  · rfl
  simp only [bind_assoc]
  refine bind_congr fun _ => bind_congr fun _ => bind_congr fun _ => bind_congr fun _ =>
    bind_congr fun _ => bind_congr fun _ => ?_
  split
  · rfl
  simp only [bind_assoc]
  refine bind_congr fun _ => ?_
  split
  · rfl
  simp only [bind_assoc]
  refine bind_congr fun _ => bind_congr fun _ => ?_
  split <;> rfl

theorem outcome_checkOpa {env : Env} {senderText receiverText : List Char}
    (h : ∀ d, readOpa env senderText receiverText = .ok (some d) → d.q ≠ 0) :
    (checkOpaReductions env senderText receiverText).outcome =
      checkOpa env senderText receiverText := by
  rw [checkOpa_read, checkOpaReductions, outcome_bind, outcome_lift]
  cases hread : readOpa env senderText receiverText with
  | error e => rfl
  | ok found =>
    cases found with
    | none => rfl
    | some d =>
      have hpoint : ∀ st i, (opaPoint d st i).outcome = (do
          let (alpha, rin) ← readMpzText st.2
          let (actual, rin) ← readMpzText rin
          return (if opaExpected d.q d.bCoeffs d.aCoeffs d.pBCoeffs alpha ≠ actual then st.1 + 1
            else st.1, rin)) := by
        intro st i
        simp only [opaPoint, readPoint, outcome_bind, outcome_lift, outcome_opaReductions
          (h d hread), ok_bind, bind_assoc, pure_eq_ok, outcome_pure]
      rw [ok_bind, ok_bind]
      dsimp only
      rw [outcome_bind, outcome_foldlM, countOpaErrors, bind_assoc]
      simp only [hpoint]
      rfl

theorem outcome_addBlindReductions {q : Mpz} (hq : q ≠ 0) (ns : ℕ) (text : List Char)
    (sums : List Mpz × List Mpz) :
    (addBlindReductions q ns text sums).outcome = addBlindFile q ns text sums := by
  unfold addBlindReductions addBlindFile
  dsimp only
  split
  · rfl
  · rw [outcome_bind, outcome_foldlM]
    simp only [readPoint, outcome_bind, outcome_lift, outcome_reduce hq, ok_bind, bind_assoc,
      pure_eq_ok, outcome_pure]

theorem outcome_countErrorReductions {q : Mpz} (hq : q ≠ 0) (ns : ℕ) (sums : List Mpz × List Mpz)
    (sin rin : IStream) :
    (countErrorReductions q ns sums sin rin).outcome = countErrors q ns sums sin rin := by
  unfold countErrorReductions countErrors
  rw [outcome_bind, outcome_foldlM]
  simp only [readPoint, outcome_bind, outcome_lift, outcome_reduce hq, ok_bind, bind_assoc,
    pure_eq_ok, outcome_pure]

theorem checkBatchOle_read (env : Env) (senderText receiverText : List Char)
    (blinds : Option (List Char × List Char)) :
    checkBatchOle env senderText receiverText blinds = (do
      match ← readBatchOleHead env senderText receiverText with
      | none => return 2
      | some h =>
        let zeros := (List.replicate h.ns (0 : Mpz), List.replicate h.ns (0 : Mpz))
        let sums ← match blinds with
          | none => pure (some zeros)
          | some (senderBlinds, receiverBlinds) => do
            match ← addBlindFile h.q h.ns senderBlinds zeros with
            | none => pure none
            | some sums => addBlindFile h.q h.ns receiverBlinds sums
        match sums with
        | none => return 2
        | some sums =>
          let errors ← countErrors h.q h.ns sums h.sin h.rin
          return if errors = 0 then 0 else 1) := by
  unfold checkBatchOle readBatchOleHead
  dsimp only
  split
  · rfl
  simp only [bind_assoc]
  refine bind_congr fun _ => bind_congr fun _ => ?_
  split <;> rfl

theorem outcome_checkBatchOle (env : Env) (senderText receiverText : List Char)
    (blinds : Option (List Char × List Char)) :
    (checkBatchOleReductions env senderText receiverText blinds).outcome =
      checkBatchOle env senderText receiverText blinds := by
  rw [checkBatchOle_read, checkBatchOleReductions, outcome_bind, outcome_lift]
  cases hread : readBatchOleHead env senderText receiverText with
  | error e => rfl
  | ok found =>
    cases found with
    | none => rfl
    | some h =>
      have h1 := (readBatchOleHead_some hread).2
      have hq : h.q ≠ 0 := fun hz => absurd (hz ▸ h1) (by decide)
      rw [ok_bind, ok_bind]
      dsimp only
      have hcount : ∀ sums : Option (List Mpz × List Mpz),
          (match sums with
            | none => return 2
            | some sums => do
              let errors ← countErrorReductions h.q h.ns sums h.sin h.rin
              return if errors = 0 then 0 else 1 : Reducing ℕ).outcome =
          match sums with
            | none => return 2
            | some sums => do
              let errors ← countErrors h.q h.ns sums h.sin h.rin
              return if errors = 0 then 0 else 1 := by
        intro sums
        cases sums with
        | none => rfl
        | some sums =>
          dsimp only
          rw [outcome_bind, outcome_countErrorReductions hq]
          rfl
      rw [outcome_bind]
      cases blinds with
      | none => exact hcount (some _)
      | some texts =>
        dsimp only [blindSumReductions]
        rw [outcome_bind, outcome_addBlindReductions hq]
        cases addBlindFile h.q h.ns texts.1 _ with
        | error e => rfl
        | ok first =>
          cases first with
          | none => rfl
          | some sums =>
            rw [ok_bind, ok_bind]
            dsimp only
            rw [outcome_addBlindReductions hq]
            exact bind_congr hcount

end RfClassGroups
