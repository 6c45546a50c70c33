import RfClassGroups.SetReader
import RfClassGroups.TimingLog

/-! The log in which a party of the two-way intersection prints its output, and the checker
that reads it. The log shows twenty elements, so the checker passes exactly the right outputs
of that size. -/

open ExceptList Words

namespace RfClassGroups

inductive Psi2Party
  | A
  | B

def Psi2Party.label : Psi2Party → List Char
  | A => "[psi2_A] ".toList
  | B => "[psi2_B] ".toList

/-- The line after the first twenty elements. -/
def cutLine : List Char := "  ... (showing first 20 only on stdout)".toList

def startMark : List Char := "intersection:".toList

def totalMark : List Char := "total intersection size:".toList

def elementLine (v : ℕ) : List Char := ' ' :: ' ' :: Nat.toDigits 10 v

def totalLine (party : Psi2Party) (n : ℕ) : List Char :=
  party.label ++ totalMark ++ ' ' :: Nat.toDigits 10 n

/-- What the party prints of its intersection, line by line. -/
def outputBlock (party : Psi2Party) (intersection : List ℕ) : List (List Char) :=
  (party.label ++ startMark) ::
    (if intersection = [] then ["  (empty)".toList]
      else (intersection.take 20).map elementLine ++
        if 20 < intersection.length then [cutLine] else []) ++
    [totalLine party intersection.length]

def logText (lines : List (List Char)) : List Char := lines.flatMap (· ++ ['\n'])

/-- `write_mpz_list_file` -/
def outputFile (intersection : List ℕ) : List Char := logText (intersection.map (Nat.toDigits 10))

/-- `re.search` of the summary at the start of `s`: the digits, where only blanks follow. -/
def totalAt (s : List Char) : Option (List Char) :=
  if totalMark.isPrefixOf s then
    let s := (s.drop totalMark.length).dropWhile isPySpace
    if s.takeWhile Char.isDigit ≠ [] ∧ (s.dropWhile Char.isDigit).all isPySpace then
      some (s.takeWhile Char.isDigit)
    else none
  else none

def totalSize (line : List Char) : Option (List Char) :=
  (List.range (line.length + 1)).findSome? fun i => totalAt (line.drop i)

/-- `strip` -/
def pyStrip (s : List Char) : List Char :=
  ((s.dropWhile isPySpace).reverse.dropWhile isPySpace).reverse

def scanBlock (maxDigits : ℕ) (path : String) :
    List (List Char) → List (List Char) → Except String (Finset ℕ)
  | [], _ => throw (path ++ ": missing intersection completion summary")
  | line :: lines, tokens =>
    match totalSize line with
    | some digits => do
      let values ← numericSet maxDigits tokens path
      if values.card ≠ (← pyInt maxDigits digits) then
        throw (path ++ ": declared intersection size differs from complete output")
      return values
    | none =>
      let item := pyStrip line
      if ['.', '.', '.'].isPrefixOf item then
        throw (path ++ ": truncated log; supply the complete intersection output file")
      else scanBlock maxDigits path lines
        (if item ≠ [] ∧ item ≠ "(empty)".toList then tokens ++ [item] else tokens)

def marked (line : List Char) : Bool := decide (startMark <:+: line)

/-- A text without a block is a set file. -/
def parsePartyLog (maxDigits : ℕ) (path : String) (text : List Char) :
    Except String (Finset ℕ) :=
  let lines := splitLinesFrom [] (universalNewlines text)
  match (List.range lines.length).filter fun i => marked (lines.getD i []) with
  | [] => readSet maxDigits path text
  | [i] => scanBlock maxDigits path (lines.drop (i + 1)) []
  | _ => throw (path ++ ": ambiguous intersection blocks")

/-- The comparison of one party; the printed examples are left out. -/
def checkOne (expected got : Finset ℕ) : Bool :=
  let missing := expected \ got
  let extra := got \ expected
  decide (missing = ∅) && decide (extra = ∅)

/-- The exit code of `check_psi2_correctness.py`. -/
def checkPsi2 (maxDigits : ℕ) (trueFile logA logB : String × List Char) : ℕ :=
  match (do
    let expected ← readSet maxDigits trueFile.1 trueFile.2
    let gotA ← parsePartyLog maxDigits logA.1 logA.2
    let gotB ← parsePartyLog maxDigits logB.1 logB.2
    return (checkOne expected gotA, checkOne expected gotB) : Except String (Bool × Bool)) with
  | .ok (okA, okB) => if okA && okB then 0 else 1
  | .error _ => 1

/-- A line of the log outside the block. -/
def Ordinary (line : List Char) : Prop := (∀ c ∈ line, isLineBreak c = false) ∧ marked line = false

section

variable {s : List Char}

theorem universalNewlines_of_not_mem (hs : '\r' ∉ s) : universalNewlines s = s := by
  induction s using universalNewlines.induct with
  | case1 s ih => simp at hs
  | case2 s hlf ih => simp at hs
  | case3 c s hcrlf hcr ih =>
    have hrest : '\r' ∉ s := fun h => hs (List.mem_cons_of_mem c h)
    rw [universalNewlines, ih hrest]
    · exact hcrlf
    · exact hcr
  | case4 => rfl

theorem splitLinesFrom_line {l : List Char} (hl : ∀ c ∈ l, isLineBreak c = false) (cur : List Char) :
    splitLinesFrom cur (l ++ '\n' :: s) = (cur.reverse ++ l) :: splitLinesFrom [] s := by
  induction l generalizing cur with
  | nil => simp [splitLinesFrom, isLineBreak]
  | cons c l ih =>
    have hc := hl c (by simp)
    have hstep : splitLinesFrom cur (c :: (l ++ '\n' :: s)) =
        splitLinesFrom (c :: cur) (l ++ '\n' :: s) := by
      rw [splitLinesFrom, hc]
      · rfl
      · rintro _ rfl
        exact absurd hc (by decide)
    rw [List.cons_append, hstep, ih fun d hd => hl d (by simp [hd])]
    simp

theorem splitLinesFrom_logText {lines : List (List Char)}
    (hlines : ∀ l ∈ lines, ∀ c ∈ l, isLineBreak c = false) :
    splitLinesFrom [] (logText lines) = lines := by
  induction lines with
  | nil => rfl
  | cons l lines ih =>
    have htext : logText (l :: lines) = l ++ '\n' :: logText lines := by simp [logText]
    rw [htext, splitLinesFrom_line (hlines l (by simp)), ih fun l' h => hlines l' (by simp [h])]
    rfl

theorem universalNewlines_logText {lines : List (List Char)}
    (hlines : ∀ l ∈ lines, ∀ c ∈ l, isLineBreak c = false) :
    universalNewlines (logText lines) = logText lines := by
  apply universalNewlines_of_not_mem
  intro h
  obtain ⟨l, hl, hmem⟩ := List.mem_flatMap.mp h
  rcases List.mem_append.mp hmem with h | h
  · exact absurd (hlines l hl _ h) (by decide)
  · exact absurd h (by decide)

theorem marked_eq_false (h : ':' ∉ s) : marked s = false := by
  rw [marked, decide_eq_false_iff_not]
  intro hin
  exact h (hin.subset (by decide))

/-- Where a line has one colon, the mark has to end there. -/
theorem marked_colon {u v : List Char} (hu : ':' ∉ u) (hv : ':' ∉ v)
    (hstem : ¬ "intersection".toList <:+ u) : marked (u ++ ':' :: v) = false := by
  rw [marked, decide_eq_false_iff_not]
  rintro ⟨x, t, h⟩
  have hmark : startMark = "intersection".toList ++ [':'] := by decide
  have hsplit : u ++ ':' :: v = (x ++ "intersection".toList) ++ ':' :: t := by
    rw [← h, hmark]
    simp
  exact hstem ⟨x, ((List.append_cons_inj_of_notMem hu hv).mp hsplit).1.symm⟩

theorem totalAt_of_not_mem {c : Char} (hc : c ≠ 't') : totalAt (c :: s) = none := by
  rw [totalAt, if_neg]
  have hmark : totalMark = 't' :: totalMark.tail := by decide
  rw [hmark, List.isPrefixOf_iff_prefix]
  intro h
  exact hc (List.cons_prefix_cons.mp h).1.symm

theorem totalSize_cons (c : Char) (s : List Char) :
    totalSize (c :: s) = (totalAt (c :: s)).or (totalSize s) := by
  rw [totalSize, List.length_cons, List.range_succ_eq_map, List.findSome?_cons, List.findSome?_map,
    List.drop_zero]
  cases totalAt (c :: s) with
  | none => rfl
  | some d => rfl

theorem totalSize_append {pre d : List Char} (hpre : 't' ∉ pre) (h : totalSize s = some d) :
    totalSize (pre ++ s) = some d := by
  induction pre with
  | nil => exact h
  | cons c pre ih =>
    have hc : c ≠ 't' := fun heq => hpre (by simp [heq])
    rw [List.cons_append, totalSize_cons, totalAt_of_not_mem hc, Option.none_or]
    exact ih fun hmem => hpre (List.mem_cons_of_mem c hmem)

theorem totalSize_eq_none (h : ':' ∉ s) : totalSize s = none := by
  rw [totalSize, List.findSome?_eq_none_iff]
  intro i _
  rw [totalAt, if_neg]
  rw [List.isPrefixOf_iff_prefix]
  intro hmark
  exact h (List.mem_of_mem_drop (hmark.subset (by decide)))

end

section

variable {n : ℕ}

theorem toDigits_not_space : ∀ c ∈ Nat.toDigits 10 n, isPySpace c = false := by
  intro c hc
  apply isTiming_not_space
  simp [isTiming, isDigit_of_mem_toDigits hc]

theorem toDigits_not_break : ∀ c ∈ Nat.toDigits 10 n, isLineBreak c = false := by
  intro c hc
  apply not_break_of_proto
  simp [isProtoTiming, isDigit_of_mem_toDigits hc]

theorem toDigits_no_colon : ':' ∉ Nat.toDigits 10 n := by
  intro h
  exact absurd (isDigit_of_mem_toDigits h) (by decide)

theorem dropWhile_of_forall {p : Char → Bool} {l : List Char} (h : ∀ c ∈ l, p c = false) :
    l.dropWhile p = l := by
  cases l with
  | nil => rfl
  | cons c l => rw [List.dropWhile_cons_of_neg (by simp [h c])]

theorem pyStrip_elementLine (v : ℕ) : pyStrip (elementLine v) = Nat.toDigits 10 v := by
  have hfront : (elementLine v).dropWhile isPySpace = Nat.toDigits 10 v := by
    rw [elementLine, List.dropWhile_cons_of_pos (by decide), List.dropWhile_cons_of_pos (by decide),
      dropWhile_of_forall toDigits_not_space]
  have hback : ∀ c ∈ (Nat.toDigits 10 v).reverse, isPySpace c = false := by
    intro c hc
    exact toDigits_not_space c (List.mem_reverse.mp hc)
  rw [pyStrip, hfront, dropWhile_of_forall hback, List.reverse_reverse]

theorem elementLine_no_colon (v : ℕ) : ':' ∉ elementLine v := by
  intro h
  simp only [elementLine, List.mem_cons] at h
  rcases h with h | h | h
  · exact absurd h (by decide)
  · exact absurd h (by decide)
  · exact toDigits_no_colon h

theorem totalAt_totalMark (n : ℕ) :
    totalAt (totalMark ++ ' ' :: Nat.toDigits 10 n) = some (Nat.toDigits 10 n) := by
  have hdigits : ∀ c ∈ Nat.toDigits 10 n, c.isDigit = true := fun c => isDigit_of_mem_toDigits
  have htake : (Nat.toDigits 10 n).takeWhile Char.isDigit = Nat.toDigits 10 n :=
    List.takeWhile_eq_self_iff.mpr hdigits
  have hdrop : (Nat.toDigits 10 n).dropWhile Char.isDigit = [] :=
    List.dropWhile_eq_nil_iff.mpr hdigits
  have hspace : (' ' :: Nat.toDigits 10 n).dropWhile isPySpace = Nat.toDigits 10 n := by
    rw [List.dropWhile_cons_of_pos (by decide), dropWhile_of_forall toDigits_not_space]
  rw [totalAt, if_pos (List.isPrefixOf_iff_prefix.mpr (List.prefix_append _ _))]
  simp only [List.drop_left, hspace, htake, hdrop]
  rw [if_pos ⟨toDigits_ne_nil n, rfl⟩]

theorem totalSize_totalLine (party : Psi2Party) (n : ℕ) :
    totalSize (totalLine party n) = some (Nat.toDigits 10 n) := by
  have hmark : totalSize (totalMark ++ ' ' :: Nat.toDigits 10 n) = some (Nat.toDigits 10 n) := by
    have hcons : totalMark = 't' :: totalMark.tail := by decide
    have hat := totalAt_totalMark n
    rw [hcons, List.cons_append] at hat ⊢
    rw [totalSize_cons, hat, Option.some_or]
  rw [totalLine, List.append_assoc]
  apply totalSize_append _ hmark
  cases party with
  | A => decide
  | B => decide

theorem marked_totalLine (party : Psi2Party) (n : ℕ) : marked (totalLine party n) = false := by
  have hmark : totalMark = "total intersection size".toList ++ [':'] := by decide
  have hline : totalLine party n = (party.label ++ "total intersection size".toList) ++
      ':' :: ' ' :: Nat.toDigits 10 n := by
    rw [totalLine, hmark]
    simp
  have hdigits : ':' ∉ ' ' :: Nat.toDigits 10 n := by
    intro h
    rcases List.mem_cons.mp h with h | h
    · exact absurd h (by decide)
    · exact toDigits_no_colon h
  rw [hline]
  cases party with
  | A => exact marked_colon (by decide) hdigits (by decide)
  | B => exact marked_colon (by decide) hdigits (by decide)

end

section

variable {maxDigits : ℕ} {path : String} {party : Psi2Party} {intersection : List ℕ}

theorem scanBlock_elements (vs : List ℕ) (rest tokens : List (List Char)) :
    scanBlock maxDigits path (vs.map elementLine ++ rest) tokens =
      scanBlock maxDigits path rest (tokens ++ vs.map (Nat.toDigits 10)) := by
  induction vs generalizing tokens with
  | nil => simp
  | cons v vs ih =>
    have hdots : ['.', '.', '.'].isPrefixOf (Nat.toDigits 10 v) = false := by
      rw [Bool.eq_false_iff, Ne, List.isPrefixOf_iff_prefix]
      intro h
      exact absurd (isDigit_of_mem_toDigits (h.subset (by decide : '.' ∈ _))) (by decide)
    have hitem : Nat.toDigits 10 v ≠ [] ∧ Nat.toDigits 10 v ≠ "(empty)".toList := by
      refine ⟨toDigits_ne_nil v, fun h => ?_⟩
      have hmem : '(' ∈ Nat.toDigits 10 v := by
        rw [h]
        decide
      exact absurd (isDigit_of_mem_toDigits hmem) (by decide)
    rw [List.map_cons, List.cons_append, scanBlock, totalSize_eq_none (elementLine_no_colon v)]
    dsimp only
    rw [pyStrip_elementLine, hdots, if_neg (by decide), if_pos hitem, ih]
    simp

theorem numericSet_elements (hfit : ∀ v ∈ intersection, DigitsFit maxDigits (Nat.toDigits 10 v))
    (hnodup : intersection.Nodup) :
    numericSet maxDigits (intersection.map (Nat.toDigits 10)) path = .ok intersection.toFinset := by
  apply numericSetLoop_ok.mpr
  refine ⟨intersection, ?_, ?_, hnodup, by simp, by simp⟩
  · rw [List.forall₂_map_left_iff]
    apply List.forall₂_same.mpr
    intro v _
    refine ⟨toDigits_ne_nil v, ?_, ?_⟩
    · exact List.all_eq_true.mpr fun c => isDigit_of_mem_toDigits
    · rw [Nat.ofDigitChars_ten_toDigits]
  · intro token htoken
    obtain ⟨v, hv, rfl⟩ := List.mem_map.mp htoken
    exact hfit v hv

theorem scanBlock_total (hfit : ∀ v ∈ intersection, DigitsFit maxDigits (Nat.toDigits 10 v))
    (hcount : DigitsFit maxDigits (Nat.toDigits 10 intersection.length))
    (hnodup : intersection.Nodup) (rest : List (List Char)) :
    scanBlock maxDigits path (totalLine party intersection.length :: rest)
      (intersection.map (Nat.toDigits 10)) = .ok intersection.toFinset := by
  have hint : pyInt maxDigits (Nat.toDigits 10 intersection.length) = .ok intersection.length := by
    rw [pyInt_ok, Nat.ofDigitChars_ten_toDigits]
    exact ⟨hcount, rfl⟩
  rw [scanBlock, totalSize_totalLine]
  dsimp only
  rw [numericSet_elements hfit hnodup, ok_bind, hint, ok_bind,
    List.toFinset_card_of_nodup hnodup, if_neg (not_not.mpr rfl)]
  rfl

/-- What the checker reads in a block. -/
def blockResult (path : String) (intersection : List ℕ) : Except String (Finset ℕ) :=
  if intersection.length ≤ 20 then .ok intersection.toFinset
  else .error (path ++ ": truncated log; supply the complete intersection output file")

theorem cutLine_no_colon : ':' ∉ cutLine := by decide

theorem ordinary_cutLine : Ordinary cutLine :=
  ⟨noBreak_of_any rfl, marked_eq_false cutLine_no_colon⟩

theorem scanBlock_outputBlock
    (hfit : ∀ v ∈ intersection, DigitsFit maxDigits (Nat.toDigits 10 v))
    (hcount : DigitsFit maxDigits (Nat.toDigits 10 intersection.length))
    (hnodup : intersection.Nodup) (rest : List (List Char)) :
    scanBlock maxDigits path ((outputBlock party intersection).tail ++ rest) [] =
      blockResult path intersection := by
  by_cases hnil : intersection = []
  · have hblock : (outputBlock party intersection).tail ++ rest =
        "  (empty)".toList :: totalLine party intersection.length :: rest := by
      rw [outputBlock, if_pos hnil]
      rfl
    have hempty : pyStrip "  (empty)".toList = "(empty)".toList := by decide
    have htotal : scanBlock maxDigits path (totalLine party intersection.length :: rest)
        (intersection.map (Nat.toDigits 10)) = .ok intersection.toFinset :=
      scanBlock_total hfit hcount hnodup rest
    rw [hblock, scanBlock, totalSize_eq_none (by decide)]
    dsimp only
    rw [hempty, if_neg (by decide), if_neg (by simp), blockResult, if_pos (by simp [hnil]), ← htotal,
      hnil]
    rfl
  · by_cases hlen : intersection.length ≤ 20
    · have hblock : (outputBlock party intersection).tail ++ rest =
          intersection.map elementLine ++ totalLine party intersection.length :: rest := by
        rw [outputBlock, if_neg hnil, if_neg (Nat.not_lt.mpr hlen), List.take_of_length_le hlen]
        simp
      rw [hblock, scanBlock_elements, List.nil_append, scanBlock_total hfit hcount hnodup,
        blockResult, if_pos hlen]
    · have hblock : (outputBlock party intersection).tail ++ rest =
          (intersection.take 20).map elementLine ++
            cutLine :: totalLine party intersection.length :: rest := by
        rw [outputBlock, if_neg hnil, if_pos (Nat.lt_of_not_le hlen)]
        simp
      have hdots : ['.', '.', '.'].isPrefixOf (pyStrip cutLine) = true := rfl
      rw [hblock, scanBlock_elements, scanBlock, totalSize_eq_none cutLine_no_colon]
      dsimp only
      rw [if_pos hdots, blockResult, if_neg hlen]
      rfl

theorem outputBlock_cons (party : Psi2Party) (intersection : List ℕ) :
    outputBlock party intersection =
      (party.label ++ startMark) :: (outputBlock party intersection).tail := rfl

theorem ordinary_elementLine (v : ℕ) : Ordinary (elementLine v) := by
  refine ⟨?_, marked_eq_false (elementLine_no_colon v)⟩
  intro c hc
  simp only [elementLine, List.mem_cons] at hc
  rcases hc with rfl | rfl | hc
  · decide
  · decide
  · exact toDigits_not_break c hc

theorem ordinary_totalLine (party : Psi2Party) (n : ℕ) : Ordinary (totalLine party n) := by
  refine ⟨?_, marked_totalLine party n⟩
  have hlabel : ∀ c ∈ party.label ++ totalMark ++ [' '], isLineBreak c = false := by
    cases party with
    | A => exact noBreak_of_any rfl
    | B => exact noBreak_of_any rfl
  have hline : totalLine party n = (party.label ++ totalMark ++ [' ']) ++ Nat.toDigits 10 n := by
    simp [totalLine]
  intro c hc
  rw [hline] at hc
  rcases List.mem_append.mp hc with h | h
  · exact hlabel c h
  · exact toDigits_not_break c h

/-- Only the first line of the block starts one. -/
theorem ordinary_outputBlock (party : Psi2Party) (intersection : List ℕ) :
    ∀ line ∈ (outputBlock party intersection).tail, Ordinary line := by
  intro line hline
  rw [outputBlock, List.cons_append, List.tail_cons] at hline
  rcases List.mem_append.mp hline with h | h
  · by_cases hnil : intersection = []
    · rw [if_pos hnil, List.mem_singleton] at h
      rw [h]
      exact ⟨noBreak_of_any rfl, marked_eq_false (by decide)⟩
    · rw [if_neg hnil] at h
      rcases List.mem_append.mp h with h | h
      · obtain ⟨v, -, rfl⟩ := List.mem_map.mp h
        exact ordinary_elementLine v
      · by_cases hlen : 20 < intersection.length
        · rw [if_pos hlen, List.mem_singleton] at h
          rw [h]
          exact ordinary_cutLine
        · rw [if_neg hlen] at h
          cases h
  · rw [List.mem_singleton.mp h]
    exact ordinary_totalLine party _

theorem marked_starts {pre post : List (List Char)} {start : List Char} (hstart : marked start = true)
    (hpre : ∀ line ∈ pre, marked line = false) (hpost : ∀ line ∈ post, marked line = false) :
    ((List.range (pre ++ start :: post).length).filter fun i =>
      marked ((pre ++ start :: post).getD i [])) = [pre.length] := by
  have hbefore : ((List.range pre.length).filter fun i =>
      marked ((pre ++ start :: post).getD i [])) = [] := by
    rw [List.filter_eq_nil_iff]
    intro i hi
    have hlt := List.mem_range.mp hi
    rw [List.getD_append _ _ _ _ hlt, List.getD_eq_getElem _ _ hlt, hpre _ (List.getElem_mem _)]
    decide
  have hafter : (((List.range post.length).map fun i => pre.length + (i + 1)).filter fun i =>
      marked ((pre ++ start :: post).getD i [])) = [] := by
    rw [List.filter_eq_nil_iff]
    intro i hi
    obtain ⟨k, hk, rfl⟩ := List.mem_map.mp hi
    have hlt := List.mem_range.mp hk
    rw [List.getD_append_right _ _ _ _ (Nat.le_add_right _ _), Nat.add_sub_cancel_left,
      List.getD_cons_succ, List.getD_eq_getElem _ _ hlt, hpost _ (List.getElem_mem _)]
    decide
  have hrange : List.range (pre ++ start :: post).length = List.range pre.length ++
      pre.length :: (List.range post.length).map fun i => pre.length + (i + 1) := by
    rw [List.length_append, List.length_cons, List.range_add, List.range_succ_eq_map]
    simp
  have hmark : marked ((pre ++ start :: post).getD pre.length []) = true := by
    rw [List.getD_append_right _ _ _ _ le_rfl, Nat.sub_self, List.getD_cons_zero, hstart]
  have hhead : ∀ is : List ℕ, ((pre.length :: is).filter fun i =>
      marked ((pre ++ start :: post).getD i [])) =
        pre.length :: is.filter fun i => marked ((pre ++ start :: post).getD i []) := by
    intro is
    exact List.filter_cons_of_pos hmark
  rw [hrange, List.filter_append, hbefore, List.nil_append, hhead, hafter]

/-- The checker reads the output off the log of a party, wherever the block stands, if and
only if the log shows all of it. -/
theorem parsePartyLog_outputBlock
    (hfit : ∀ v ∈ intersection, DigitsFit maxDigits (Nat.toDigits 10 v))
    (hcount : DigitsFit maxDigits (Nat.toDigits 10 intersection.length))
    (hnodup : intersection.Nodup) {pre post : List (List Char)} (hpre : ∀ line ∈ pre, Ordinary line)
    (hpost : ∀ line ∈ post, Ordinary line) :
    parsePartyLog maxDigits path (logText (pre ++ outputBlock party intersection ++ post)) =
      blockResult path intersection := by
  have hstart : marked (party.label ++ startMark) = true := by
    cases party with
    | A => decide
    | B => decide
  have hbreak : ∀ c ∈ party.label ++ startMark, isLineBreak c = false := by
    cases party with
    | A => exact noBreak_of_any rfl
    | B => exact noBreak_of_any rfl
  have hlines : pre ++ outputBlock party intersection ++ post = pre ++ (party.label ++ startMark) ::
      ((outputBlock party intersection).tail ++ post) := by
    rw [outputBlock_cons]
    simp
  have hrest : ∀ line ∈ (outputBlock party intersection).tail ++ post, Ordinary line := by
    intro line hline
    rcases List.mem_append.mp hline with h | h
    · exact ordinary_outputBlock party intersection line h
    · exact hpost line h
  have hall : ∀ line ∈ pre ++ (party.label ++ startMark) ::
      ((outputBlock party intersection).tail ++ post), ∀ c ∈ line, isLineBreak c = false := by
    intro line hline
    rcases List.mem_append.mp hline with h | h
    · exact (hpre line h).1
    · rcases List.mem_cons.mp h with rfl | h
      · exact hbreak
      · exact (hrest line h).1
  have hstarts := marked_starts hstart (fun line h => (hpre line h).2) fun line h => (hrest line h).2
  rw [hlines, parsePartyLog, universalNewlines_logText hall, splitLinesFrom_logText hall]
  simp only [hstarts]
  have hdrop : (pre ++ (party.label ++ startMark) ::
      ((outputBlock party intersection).tail ++ post)).drop (pre.length + 1) =
        (outputBlock party intersection).tail ++ post := by
    rw [List.drop_append]
    simp
  rw [hdrop, scanBlock_outputBlock hfit hcount hnodup]

theorem checkOne_eq (expected got : Finset ℕ) : checkOne expected got = decide (expected = got) := by
  rw [checkOne]
  by_cases h : expected = got
  · simp [h]
  · simp only [Finset.sdiff_eq_empty_iff_subset, h, decide_false, Bool.and_eq_false_iff,
      decide_eq_false_iff_not]
    by_contra hsub
    obtain ⟨hle, hge⟩ : expected ⊆ got ∧ got ⊆ expected := by simpa [not_or] using hsub
    exact h (hle.antisymm hge)

theorem checkPsi2_zero {trueFile logA logB : String × List Char} {expected : Finset ℕ}
    (htrue : readSet maxDigits trueFile.1 trueFile.2 = .ok expected) :
    checkPsi2 maxDigits trueFile logA logB = 0 ↔ parsePartyLog maxDigits logA.1 logA.2 = .ok expected ∧
      parsePartyLog maxDigits logB.1 logB.2 = .ok expected := by
  have hexit : ∀ b : Bool, (if b then 0 else 1 : ℕ) = 0 ↔ b = true := by decide
  rw [checkPsi2, htrue, ok_bind]
  cases hA : parsePartyLog maxDigits logA.1 logA.2 with
  | error e => exact iff_of_false one_ne_zero fun h => nomatch h.1
  | ok gotA =>
    cases hB : parsePartyLog maxDigits logB.1 logB.2 with
    | error e => exact iff_of_false one_ne_zero fun h => nomatch h.2
    | ok gotB =>
      rw [ok_bind, ok_bind, pure_eq_ok, checkOne_eq, checkOne_eq]
      dsimp only
      rw [hexit, Bool.and_eq_true, decide_eq_true_eq, decide_eq_true_eq, Except.ok.injEq,
        Except.ok.injEq]
      exact ⟨fun h => ⟨h.1.symm, h.2.symm⟩, fun h => ⟨h.1.symm, h.2.symm⟩⟩

theorem blockResult_ok {expected : Finset ℕ} : blockResult path intersection = .ok expected ↔
    intersection.length ≤ 20 ∧ intersection.toFinset = expected := by
  rw [blockResult]
  by_cases hlen : intersection.length ≤ 20
  · rw [if_pos hlen, Except.ok.injEq, and_iff_right hlen]
  · rw [if_neg hlen]
    exact iff_of_false (fun h => nomatch h) fun h => hlen h.1

theorem toDigits_not_pySpace {v : ℕ} : ∀ c ∈ Nat.toDigits 10 v, pySpace c = false := by
  intro c hc
  have hdigit := isDigit_of_mem_toDigits hc
  simp only [Char.isDigit, Bool.and_eq_true, decide_eq_true_eq] at hdigit
  have hlow : 48 ≤ c.toNat := hdigit.1
  simp only [pySpace, Bool.or_eq_false_iff, Bool.and_eq_false_iff, decide_eq_false_iff_not]
  omega

theorem words_outputFile {p : Char → Bool} (hbreak : p '\n' = true)
    (hdigits : ∀ v, ∀ c ∈ Nat.toDigits 10 v, p c = false) (intersection : List ℕ) :
    words p (outputFile intersection) = intersection.map (Nat.toDigits 10) := by
  induction intersection with
  | nil => rfl
  | cons v intersection ih =>
    have htext : outputFile (v :: intersection) =
        Nat.toDigits 10 v ++ '\n' :: outputFile intersection := by simp [outputFile, logText]
    rw [htext, words_append_sep hbreak, words_of_no_sep (toDigits_ne_nil v) (hdigits v), ih]
    rfl

theorem toDigits_ordinary (v : ℕ) : Ordinary (Nat.toDigits 10 v) :=
  ⟨toDigits_not_break, marked_eq_false toDigits_no_colon⟩

theorem readSet_outputFile
    (hfit : ∀ v ∈ intersection, DigitsFit maxDigits (Nat.toDigits 10 v))
    (hnodup : intersection.Nodup) :
    readSet maxDigits path (outputFile intersection) = .ok intersection.toFinset := by
  have hbreak : ∀ line ∈ intersection.map (Nat.toDigits 10), ∀ c ∈ line, isLineBreak c = false := by
    intro line hline
    obtain ⟨v, -, rfl⟩ := List.mem_map.mp hline
    exact toDigits_not_break
  rw [readSet, outputFile, universalNewlines_logText hbreak, ← outputFile,
    words_outputFile (by decide) (fun _ => toDigits_not_pySpace), numericSet_elements hfit hnodup]

/-- The complete output file has no block and is read as a set. -/
theorem parsePartyLog_outputFile
    (hfit : ∀ v ∈ intersection, DigitsFit maxDigits (Nat.toDigits 10 v))
    (hnodup : intersection.Nodup) :
    parsePartyLog maxDigits path (outputFile intersection) = .ok intersection.toFinset := by
  have hordinary : ∀ line ∈ intersection.map (Nat.toDigits 10), Ordinary line := by
    intro line hline
    obtain ⟨v, -, rfl⟩ := List.mem_map.mp hline
    exact toDigits_ordinary v
  have hbreak := fun line h => (hordinary line h).1
  have hstarts : ((List.range (intersection.map (Nat.toDigits 10)).length).filter fun i =>
      marked ((intersection.map (Nat.toDigits 10)).getD i [])) = [] := by
    rw [List.filter_eq_nil_iff]
    intro i hi
    rw [List.getD_eq_getElem _ _ (List.mem_range.mp hi), (hordinary _ (List.getElem_mem _)).2]
    decide
  rw [parsePartyLog, outputFile, universalNewlines_logText hbreak, splitLinesFrom_logText hbreak]
  simp only [hstarts]
  exact readSet_outputFile hfit hnodup

end

/-- The log of a party: its block somewhere among other lines. -/
structure PartyLog (maxDigits : ℕ) where
  party : Psi2Party
  intersection : List ℕ
  nodup : intersection.Nodup
  fit : ∀ v ∈ intersection, DigitsFit maxDigits (Nat.toDigits 10 v)
  count : DigitsFit maxDigits (Nat.toDigits 10 intersection.length)
  pre : List (List Char)
  post : List (List Char)
  pre_ordinary : ∀ line ∈ pre, Ordinary line
  post_ordinary : ∀ line ∈ post, Ordinary line

namespace PartyLog

variable {maxDigits : ℕ}

def text (log : PartyLog maxDigits) : List Char :=
  logText (log.pre ++ outputBlock log.party log.intersection ++ log.post)

def Shows (log : PartyLog maxDigits) (expected : Finset ℕ) : Prop :=
  log.intersection.length ≤ 20 ∧ log.intersection.toFinset = expected

theorem parse_eq (log : PartyLog maxDigits) (path : String) :
    parsePartyLog maxDigits path log.text = blockResult path log.intersection :=
  parsePartyLog_outputBlock log.fit log.count log.nodup log.pre_ordinary log.post_ordinary

/-- On the complete output files the checker exits with zero if and only if both parties have
the true intersection, and on the logs if moreover both show all of it. -/
theorem checkPsi2_outputs {truePath pathA pathB : String} {trueText : List Char}
    {expected : Finset ℕ} (htrue : readSet maxDigits truePath trueText = .ok expected)
    (logA logB : PartyLog maxDigits) :
    (checkPsi2 maxDigits (truePath, trueText) (pathA, outputFile logA.intersection)
        (pathB, outputFile logB.intersection) = 0 ↔
      logA.intersection.toFinset = expected ∧ logB.intersection.toFinset = expected) ∧
    (checkPsi2 maxDigits (truePath, trueText) (pathA, logA.text) (pathB, logB.text) = 0 ↔
      logA.Shows expected ∧ logB.Shows expected) := by
  constructor
  · rw [checkPsi2_zero htrue, parsePartyLog_outputFile logA.fit logA.nodup,
      parsePartyLog_outputFile logB.fit logB.nodup, Except.ok.injEq, Except.ok.injEq]
  · rw [checkPsi2_zero htrue, parse_eq, parse_eq, blockResult_ok, blockResult_ok, Shows, Shows]

def smallLogA : PartyLog 4300 where
  party := .A
  intersection := [7, 12]
  nodup := by decide
  fit := by
    intro v hv
    fin_cases hv <;> exact .inr (by decide)
  count := .inr (by decide)
  pre := [['o', 'k']]
  post := []
  pre_ordinary := by
    intro line hline
    rw [List.mem_singleton.mp hline]
    exact ⟨noBreak_of_any rfl, marked_eq_false (by decide)⟩
  post_ordinary := by simp

def smallLogB : PartyLog 4300 where
  party := .B
  intersection := []
  nodup := by decide
  fit := by simp
  count := .inr (by decide)
  pre := []
  post := []
  pre_ordinary := by simp
  post_ordinary := by simp

/-- The second party misses both elements. -/
theorem checkPsi2_outputs_small :
    (checkPsi2 4300 ("true", "12 7".toList) ("A", outputFile smallLogA.intersection)
        ("B", outputFile smallLogB.intersection) = 0 ↔
      smallLogA.intersection.toFinset = {7, 12} ∧ smallLogB.intersection.toFinset = {7, 12}) ∧
    (checkPsi2 4300 ("true", "12 7".toList) ("A", smallLogA.text) ("B", smallLogB.text) = 0 ↔
      smallLogA.Shows {7, 12} ∧ smallLogB.Shows {7, 12}) :=
  checkPsi2_outputs (by decide) smallLogA smallLogB

end PartyLog

end RfClassGroups
