import RfClassGroups.BenchIo
import RfClassGroups.CheckBatchOle
import RfClassGroups.Config
import RfClassGroups.Horner
import RfClassGroups.Lib.Loops

/-! The offline checkers of the polynomial protocols, on the dumps that their
endpoints write. -/

open ExceptList Loops

namespace RfClassGroups

def checkOpe (env : Env) (senderText receiverText : List Char) : Except String ℕ := do
  let (magicS, sin) := IStream.readWord ⟨senderText, false⟩
  let (nCoeffs, sin) := sin.readSize
  let (magicR, rin) := IStream.readWord ⟨receiverText, false⟩
  if magicS ≠ "OPE_SENDER_V1".toList ∨ magicR ≠ "OPE_RECEIVER_V1".toList ∨ nCoeffs = 0 then return 2
  cgValidateCount env nCoeffs false
  let (qSender, sin) ← readMpzText sin
  let (qReceiver, rin) ← readMpzText rin
  let (alpha, rin) ← readMpzText rin
  let (output, _) ← readMpzText rin
  if qSender ≠ qReceiver then return 2
  let (coeffs, _) ← readMpzs nCoeffs sin
  return if evalPolyHorner coeffs alpha qSender = output then 0 else 1

def opaExpected (q : Mpz) (bCoeffs aCoeffs pBCoeffs : List Mpz) (alpha : Mpz) : Mpz :=
  (evalPolyHorner aCoeffs alpha q * evalPolyHorner pBCoeffs alpha q +
    evalPolyHorner bCoeffs alpha q) % q

def countOpaErrors (q : Mpz) (nPts : ℕ) (bCoeffs aCoeffs pBCoeffs : List Mpz) (rin : IStream) :
    Except String ℕ := do
  let r ← (List.range nPts).foldlM (fun st (_ : ℕ) => do
    let (errors, rin) := st
    let (alpha, rin) ← readMpzText rin
    let (actual, rin) ← readMpzText rin
    return (if opaExpected q bCoeffs aCoeffs pBCoeffs alpha ≠ actual then errors + 1 else errors,
      rin)) (0, rin)
  return r.1

/-- The counts behind the magic word: the older format has one for both lists. -/
def readOpaSizes (magicS : List Char) (sin : IStream) : ℕ × ℕ × IStream :=
  if magicS = "OPA_SENDER_V1".toList then
    let (n, sin) := sin.readSize
    (n, n, sin)
  else if magicS = "OPA_SENDER_V2".toList then
    let (additive, sin) := sin.readSize
    let (mask, sin) := sin.readSize
    (additive, mask, sin)
  else (0, 0, sin)

def checkOpa (env : Env) (senderText receiverText : List Char) : Except String ℕ := do
  let (magicS, sin) := IStream.readWord ⟨senderText, false⟩
  let (additive, mask, sin) := readOpaSizes magicS sin
  let (magicR, rin) := IStream.readWord ⟨receiverText, false⟩
  let (receiver, rin) := rin.readSize
  let (nPts, rin) := rin.readSize
  if (magicS ≠ "OPA_SENDER_V1".toList ∧ magicS ≠ "OPA_SENDER_V2".toList) ∨
      magicR ≠ "OPA_RECEIVER_V1".toList ∨ additive = 0 ∨ mask = 0 ∨ receiver = 0 ∨ nPts = 0 then
    return 2
  cgValidateCount env additive false
  cgValidateCount env mask false
  cgValidateCount env receiver false
  cgValidateCount env nPts false
  let (qSender, sin) ← readMpzText sin
  let (qReceiver, rin) ← readMpzText rin
  if qSender ≠ qReceiver then return 2
  let (bCoeffs, sin) ← readMpzs additive sin
  let (sep, sin) := sin.readWord
  if sep ≠ ['-', '-'] then return 2
  let (aCoeffs, _) ← readMpzs mask sin
  let (pBCoeffs, rin) ← readMpzs receiver rin
  let (sep, rin) := rin.readWord
  -- a failed extraction leaves the sender's separator in the string
  if ¬ rin.fail ∧ sep ≠ ['-', '-'] then return 2
  let errors ← countOpaErrors qSender nPts bCoeffs aCoeffs pBCoeffs rin
  return if errors = 0 then 0 else 1

variable {env : Env} {q : Mpz}

theorem count_lt {n : ℕ} (h : cgValidateCount env n false = .ok ()) : 0 < n ∧ n < 2 ^ 64 := by
  obtain ⟨hpos, limit, hlimit, hle⟩ := cgValidateCount_ok.mp h
  have hmax := cgMaxItems_le hlimit
  exact ⟨by simpa [Nat.pos_iff_ne_zero] using hpos, by omega⟩

theorem separator_eq (rest : List Char) :
    IStream.readWord ⟨'\n' :: '-' :: '-' :: '\n' :: rest, false⟩ =
      (['-', '-'], ⟨'\n' :: rest, false⟩) :=
  readWord_eq ['\n'] (w := ['-', '-']) (by simp [isSpace]) (by decide) (by simp [isSpace])
    (newline_ends rest)

theorem nextMpz_eq (v : Mpz) (rest : List Char) :
    readMpzText ⟨'\n' :: (mpzText v ++ '\n' :: rest), false⟩ = .ok (v, ⟨'\n' :: rest, false⟩) :=
  readMpzText_eq ['\n'] (by simp [isSpace]) v (newline_ends rest)

theorem checkOpe_eq {coeffs : List Mpz} (hcount : cgValidateCount env coeffs.length false = .ok ())
    (alpha output : Mpz) :
    checkOpe env (writeOpeSenderCoeffs q coeffs) (writeOpeReceiverOutput q alpha output) =
      .ok (if evalPolyHorner coeffs alpha q = output then 0 else 1) := by
  obtain ⟨hpos, hn⟩ := count_lt hcount
  obtain ⟨s, hwordS, hsizeS⟩ := header_eq (show "OPE_SENDER_V1".toList ≠ [] by decide) (by decide) hn
    (mpzText q ++ '\n' :: mpzLines coeffs)
  have hwordR := magicLine_eq (show "OPE_RECEIVER_V1".toList ≠ [] by decide) (by decide)
    (mpzLines [q, alpha, output])
  have hcoeffs := readMpzs_eq coeffs []
  rw [List.append_nil] at hcoeffs
  have hlines : mpzLines [q, alpha, output] =
      mpzText q ++ '\n' :: (mpzText alpha ++ '\n' :: (mpzText output ++ ['\n'])) := by
    simp [mpzLines]
  have houtput : readMpzText ⟨'\n' :: (mpzText output ++ ['\n']), false⟩ =
      .ok (output, ⟨['\n'], false⟩) := nextMpz_eq output []
  rw [hlines] at hwordR
  rw [writeOpeSenderCoeffs, writeOpeReceiverOutput, List.append_assoc, hlines]
  simp only [checkOpe, hwordS, hwordR, hsizeS, ne_eq, not_true_eq_false, hpos.ne', or_self,
    if_false, hcount, ok_bind, nextMpz_eq, houtput, hcoeffs, pure_eq_ok]

theorem countOpaErrors_eq {alpha yVals : List Mpz} (hlen : alpha.length = yVals.length)
    (bCoeffs aCoeffs pBCoeffs : List Mpz) :
    countOpaErrors q alpha.length bCoeffs aCoeffs pBCoeffs (pairsFrom alpha yVals 0) =
      .ok ((List.range alpha.length).countP fun i =>
        opaExpected q bCoeffs aCoeffs pBCoeffs (alpha.getD i 0) ≠ yVals.getD i 0) := by
  have hloop := foldlM_range_eq (ε := String) (n := alpha.length)
    (g := fun k => ((List.range k).countP fun i =>
      opaExpected q bCoeffs aCoeffs pBCoeffs (alpha.getD i 0) ≠ yVals.getD i 0,
      pairsFrom alpha yVals k))
    (f := fun st (_ : ℕ) => do
      let (errors, rin) := st
      let (alpha, rin) ← readMpzText rin
      let (actual, rin) ← readMpzText rin
      return (if opaExpected q bCoeffs aCoeffs pBCoeffs alpha ≠ actual then errors + 1 else errors,
        rin)) fun i hi => ?_
  · exact congrArg (Except.map Prod.fst) hloop
  obtain ⟨t, hra, hry⟩ := readPair_eq hlen hi
  dsimp only
  rw [hra, ok_bind, hry, ok_bind, List.range_succ, List.countP_append, List.countP_singleton]
  refine congrArg (fun k => Except.ok (k, _)) ?_
  by_cases h : opaExpected q bCoeffs aCoeffs pBCoeffs (alpha.getD i 0) = yVals.getD i 0
  · rw [if_neg (not_not.mpr h), if_neg (by simpa using h)]
    rfl
  · rw [if_pos h, if_pos (by simpa using h)]

theorem checkOpa_eq {bCoeffs aCoeffs pBCoeffs alpha yVals : List Mpz}
    (hb : cgValidateCount env bCoeffs.length false = .ok ())
    (ha : cgValidateCount env aCoeffs.length false = .ok ())
    (hp : cgValidateCount env pBCoeffs.length false = .ok ())
    (hn : cgValidateCount env alpha.length false = .ok ()) (hlen : alpha.length = yVals.length) :
    ∃ text, writeOpaReceiverDump q pBCoeffs alpha yVals = .ok text ∧
      checkOpa env (writeOpaSenderCoeffs q bCoeffs aCoeffs) text =
        .ok (if (List.range alpha.length).countP (fun i =>
          opaExpected q bCoeffs aCoeffs pBCoeffs (alpha.getD i 0) ≠ yVals.getD i 0) = 0
            then 0 else 1) := by
  obtain ⟨hbpos, hb64⟩ := count_lt hb
  obtain ⟨hapos, ha64⟩ := count_lt ha
  obtain ⟨hppos, hp64⟩ := count_lt hp
  obtain ⟨hnpos, hn64⟩ := count_lt hn
  refine ⟨_, if_neg (not_not.mpr hlen), ?_⟩
  have hwordS := magicLine_eq (show "OPA_SENDER_V2".toList ≠ [] by decide) (by decide)
    (Nat.toDigits 10 bCoeffs.length ++ ' ' :: (Nat.toDigits 10 aCoeffs.length ++
      '\n' :: (mpzText q ++ '\n' :: (mpzLines bCoeffs ++ '-' :: '-' :: '\n' :: mpzLines aCoeffs))))
  have hsizeB := readSize_eq ['\n'] (by simp [isSpace]) hb64
    (blank_ends (Nat.toDigits 10 aCoeffs.length ++
      '\n' :: (mpzText q ++ '\n' :: (mpzLines bCoeffs ++ '-' :: '-' :: '\n' :: mpzLines aCoeffs))))
  have hsizeA := readSize_eq [' '] (by simp [isSpace]) ha64
    (newline_ends (mpzText q ++ '\n' :: (mpzLines bCoeffs ++ '-' :: '-' :: '\n' :: mpzLines aCoeffs)))
  obtain ⟨r, hwordR, hsizeR⟩ := header_eq (show "OPA_RECEIVER_V1".toList ≠ [] by decide) (by decide)
    hp64 (Nat.toDigits 10 alpha.length ++ '\n' :: (mpzText q ++ '\n' :: (mpzLines pBCoeffs ++
      '-' :: '-' :: '\n' :: pairLines alpha yVals)))
  have hsizeN := readSize_eq ['\n'] (by simp [isSpace]) hn64
    (newline_ends (mpzText q ++ '\n' :: (mpzLines pBCoeffs ++
      '-' :: '-' :: '\n' :: pairLines alpha yVals)))
  have hacoeffs := readMpzs_eq aCoeffs []
  have hbcoeffs := readMpzs_eq bCoeffs ('-' :: '-' :: '\n' :: mpzLines aCoeffs)
  have hpcoeffs := readMpzs_eq pBCoeffs ('-' :: '-' :: '\n' :: pairLines alpha yVals)
  have hpairs : (⟨'\n' :: pairLines alpha yVals, false⟩ : IStream) = pairsFrom alpha yVals 0 := rfl
  have herrors := countOpaErrors_eq (q := q) hlen bCoeffs aCoeffs pBCoeffs
  rw [List.append_nil] at hacoeffs
  simp only [List.cons_append, List.nil_append] at hsizeB hsizeA hsizeN
  have hmagic : ¬ "OPA_SENDER_V2".toList = "OPA_SENDER_V1".toList := by decide
  have hsizes : readOpaSizes "OPA_SENDER_V2".toList ⟨'\n' :: (Nat.toDigits 10 bCoeffs.length ++
      ' ' :: (Nat.toDigits 10 aCoeffs.length ++ '\n' :: (mpzText q ++ '\n' :: (mpzLines bCoeffs ++
        '-' :: '-' :: '\n' :: mpzLines aCoeffs)))), false⟩ = (bCoeffs.length, aCoeffs.length,
      ⟨'\n' :: (mpzText q ++ '\n' :: (mpzLines bCoeffs ++ '-' :: '-' :: '\n' :: mpzLines aCoeffs)),
        false⟩) := by
    rw [readOpaSizes, if_neg hmagic, if_pos rfl, hsizeB]
    dsimp only
    rw [hsizeA]
  simp only [writeOpaSenderCoeffs, List.append_assoc, List.cons_append]
  simp only [checkOpa, hwordS, hsizes, hwordR, hsizeR, hsizeN, ne_eq, not_true_eq_false, and_false,
    hbpos.ne', hapos.ne', hppos.ne', hnpos.ne', or_self, if_false, and_false, hb, ha, hp, hn, ok_bind,
    nextMpz_eq, hbcoeffs, separator_eq, hacoeffs, hpcoeffs, hpairs, herrors, pure_eq_ok]

/-- The exit code is 0 when the relation holds and 1 when it does not. -/
def Decides (code : Except String ℕ) (P : Prop) : Prop := (P → code = .ok 0) ∧ (¬ P → code = .ok 1)

theorem decides_ite {P Q : Prop} [Decidable Q] (h : Q ↔ P) :
    Decides (.ok (if Q then 0 else 1)) P :=
  ⟨fun hp => by rw [if_pos (h.mpr hp)], fun hp => by rw [if_neg (mt h.mp hp)]⟩

def polyAt (coeffs : List Mpz) (x : Mpz) : Mpz :=
  ∑ j ∈ Finset.range coeffs.length, coeffs.getD j 0 * x ^ j

theorem evalPolyHorner_polyAt (hq : 0 < q) {coeffs : List Mpz} (hpos : 0 < coeffs.length) (x : Mpz) :
    evalPolyHorner coeffs x q = polyAt coeffs x % q := by
  rw [polyAt, ← Nat.succ_pred_eq_of_pos hpos]
  exact evalPolyHorner_eq hq (Nat.succ_pred_eq_of_pos hpos).symm x

theorem opaExpected_eq (hq : 0 < q) {bCoeffs aCoeffs pBCoeffs : List Mpz} (hb : 0 < bCoeffs.length)
    (ha : 0 < aCoeffs.length) (hp : 0 < pBCoeffs.length) (x : Mpz) :
    opaExpected q bCoeffs aCoeffs pBCoeffs x =
      (polyAt aCoeffs x * polyAt pBCoeffs x + polyAt bCoeffs x) % q := by
  rw [opaExpected, evalPolyHorner_polyAt hq hb, evalPolyHorner_polyAt hq ha,
    evalPolyHorner_polyAt hq hp]
  exact ((Int.mod_modEq _ _).mul (Int.mod_modEq _ _)).add (Int.mod_modEq _ _)

/-- The relation between the dumps of the OPA endpoints. -/
def OpaCorrect (q : Mpz) (bCoeffs aCoeffs pBCoeffs alpha yVals : List Mpz) : Prop :=
  ∀ i < alpha.length, yVals.getD i 0 = (polyAt aCoeffs (alpha.getD i 0) *
    polyAt pBCoeffs (alpha.getD i 0) + polyAt bCoeffs (alpha.getD i 0)) % q

theorem opaCorrect_iff (hq : 0 < q) {bCoeffs aCoeffs pBCoeffs : List Mpz} (hb : 0 < bCoeffs.length)
    (ha : 0 < aCoeffs.length) (hp : 0 < pBCoeffs.length) (alpha yVals : List Mpz) :
    (List.range alpha.length).countP (fun i =>
      opaExpected q bCoeffs aCoeffs pBCoeffs (alpha.getD i 0) ≠ yVals.getD i 0) = 0 ↔
      OpaCorrect q bCoeffs aCoeffs pBCoeffs alpha yVals := by
  rw [List.countP_eq_zero]
  constructor
  · intro h i hi
    have hi' := h i (List.mem_range.mpr hi)
    rw [opaExpected_eq hq hb ha hp] at hi'
    exact (not_not.mp fun hne => hi' (decide_eq_true hne)).symm
  · intro h i hi
    rw [opaExpected_eq hq hb ha hp]
    exact fun hne => of_decide_eq_true hne (h i (List.mem_range.mp hi)).symm

/-- On the dumps that the endpoints write, each checker succeeds exactly when the
outputs satisfy the relation of its protocol. -/
theorem checkers_exact (env : Env) (hq : 1 < q) :
    (∀ aVals bVals xVals yVals : List Mpz, cgValidateCount env aVals.length false = .ok () →
      bVals.length = aVals.length → xVals.length = aVals.length → yVals.length = aVals.length →
      ∃ senderText receiverText, writeOleSenderInputs aVals bVals = .ok senderText ∧
        writeOleReceiverIo q xVals yVals = .ok receiverText ∧
        Decides (checkBatchOle env senderText receiverText none)
          (SanitisedOle q none aVals bVals xVals yVals aVals.length) ∧
        ∀ s r : List Mpz × List Mpz, s.1.length = aVals.length → s.2.length = aVals.length →
          r.1.length = aVals.length → r.2.length = aVals.length →
          ∃ sText rText, writeOleBlinds s.1 s.2 = .ok sText ∧ writeOleBlinds r.1 r.2 = .ok rText ∧
            Decides (checkBatchOle env senderText receiverText (some (sText, rText)))
              (SanitisedOle q (some (s, r)) aVals bVals xVals yVals aVals.length)) ∧
    (∀ (coeffs : List Mpz) (alpha v : Mpz), cgValidateCount env coeffs.length false = .ok () →
      Decides (checkOpe env (writeOpeSenderCoeffs q coeffs) (writeOpeReceiverOutput q alpha v))
        (v = polyAt coeffs alpha % q)) ∧
    ∀ bCoeffs aCoeffs pBCoeffs alpha yVals : List Mpz,
      cgValidateCount env bCoeffs.length false = .ok () →
      cgValidateCount env aCoeffs.length false = .ok () →
      cgValidateCount env pBCoeffs.length false = .ok () →
      cgValidateCount env alpha.length false = .ok () → alpha.length = yVals.length →
      ∃ text, writeOpaReceiverDump q pBCoeffs alpha yVals = .ok text ∧
        Decides (checkOpa env (writeOpaSenderCoeffs q bCoeffs aCoeffs) text)
          (OpaCorrect q bCoeffs aCoeffs pBCoeffs alpha yVals) := by
  have hq0 : 0 < q := zero_lt_one.trans hq
  classical
  refine ⟨fun aVals bVals xVals yVals hcount hb hx hy => ?_, fun coeffs alpha v hcount => ?_,
    fun bCoeffs aCoeffs pBCoeffs alpha yVals hb ha hp hn hlen => ?_⟩
  · refine ⟨_, _, writeOleSenderInputs_eq hb.symm, writeOleReceiverIo_eq q (hx.trans hy.symm), ?_,
      fun s r hs1 hs2 hr1 hr2 => ?_⟩
    · have hcheck := checkBatchOle_eq hq hcount rfl hb hx hy none (by simp)
      rw [Option.map_none] at hcheck
      rw [hcheck]
      exact decides_ite Iff.rfl
    · refine ⟨_, _, writeOleBlinds_eq (hs1.trans hs2.symm), writeOleBlinds_eq (hr1.trans hr2.symm), ?_⟩
      have hcheck := checkBatchOle_eq hq hcount rfl hb hx hy (some (s, r)) (by
        intro b hmem
        cases hmem
        exact ⟨hs1, hs2, hr1, hr2⟩)
      rw [Option.map_some, blindTexts] at hcheck
      rw [hcheck]
      exact decides_ite Iff.rfl
  · rw [checkOpe_eq hcount]
    refine decides_ite ?_
    rw [evalPolyHorner_polyAt hq0 (count_lt hcount).1, eq_comm]
  · obtain ⟨text, htext, hcheck⟩ := checkOpa_eq (q := q) hb ha hp hn hlen
    refine ⟨text, htext, ?_⟩
    rw [hcheck]
    exact decides_ite (opaCorrect_iff hq0 (count_lt hb).1 (count_lt ha).1 (count_lt hp).1 alpha yVals)

/-- With the blinds the sanitised outputs of two lanes are accepted, without them refused. -/
theorem checkers_exact_seven :
    (∃ senderText receiverText sText rText,
      writeOleSenderInputs [2, 3] [1, 4] = .ok senderText ∧
        writeOleReceiverIo 7 [5, 6] [3, 2] = .ok receiverText ∧
        writeOleBlinds [1, 2] [3, 0] = .ok sText ∧ writeOleBlinds [4, -1] [6, 2] = .ok rText ∧
        checkBatchOle (fun _ => none) senderText receiverText none = .ok 1 ∧
        checkBatchOle (fun _ => none) senderText receiverText (some (sText, rText)) = .ok 0) ∧
    checkOpe (fun _ => none) (writeOpeSenderCoeffs 7 [1, 2]) (writeOpeReceiverOutput 7 (-4) 0) =
      .ok 0 ∧
    checkOpe (fun _ => none) (writeOpeSenderCoeffs 7 [1, 2]) (writeOpeReceiverOutput 7 (-4) 7) =
      .ok 1 ∧
    ∃ text, writeOpaReceiverDump 7 [3, 1] [0, 2] [0, 6] = .ok text ∧
      checkOpa (fun _ => none) (writeOpaSenderCoeffs 7 [1, 1] [2]) text = .ok 0 := by
  obtain ⟨hole, hope, hopa⟩ := checkers_exact (fun _ => none) (show (1 : Mpz) < 7 by decide)
  refine ⟨?_, (hope [1, 2] (-4) 0 (by decide)).1 (by decide),
    (hope [1, 2] (-4) 7 (by decide)).2 (by decide), ?_⟩
  · obtain ⟨senderText, receiverText, hsender, hreceiver, hplain, hblinds⟩ :=
      hole [2, 3] [1, 4] [5, 6] [3, 2] (by decide) rfl rfl rfl
    obtain ⟨sText, rText, hs, hr, hblinded⟩ :=
      hblinds ([1, 2], [3, 0]) ([4, -1], [6, 2]) rfl rfl rfl rfl
    refine ⟨senderText, receiverText, sText, rText, hsender, hreceiver, hs, hr, hplain.2 ?_,
      hblinded.1 ?_⟩
    · unfold SanitisedOle
      decide
    · unfold SanitisedOle
      decide
  · obtain ⟨text, htext, hcheck⟩ := hopa [1, 1] [2] [3, 1] [0, 2] [0, 6] (by decide) (by decide)
      (by decide) (by decide) rfl
    refine ⟨text, htext, hcheck.1 ?_⟩
    unfold OpaCorrect
    decide

end RfClassGroups
