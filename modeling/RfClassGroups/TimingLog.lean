import RfClassGroups.Lib.Regex
import Mathlib.Data.List.Forall2
import Mathlib.Tactic.IntervalCases

/-! The extraction of timing rows from the logs of the endpoints, next to the
expression with which the refresh script reads the same lines. -/

open Regex

namespace RfClassGroups

/-- `\s` of the expressions. -/
def isPySpace (c : Char) : Bool :=
  [9, 10, 11, 12, 13, 28, 29, 30, 31, 32, 0x85, 0xa0, 0x1680, 0x2028, 0x2029, 0x202f, 0x205f,
    0x3000].contains c.toNat || (0x2000 ≤ c.toNat && c.toNat ≤ 0x200a)

/-- Where `splitlines` ends a line. -/
def isLineBreak (c : Char) : Bool :=
  [10, 11, 12, 13, 28, 29, 30, 0x85, 0x2028, 0x2029].contains c.toNat

def isTiming (c : Char) : Bool := c.isDigit || c == '.'

def isProtoTiming (c : Char) : Bool := c.isDigit || c == '.' || c == 'e' || c == 'E' || c == '+' || c == '-'

def notBracket (c : Char) : Bool := c != ']'

def isDot (c : Char) : Bool := c != '\n'

def blanks : Item := .plus isPySpace .greedy false

def number : Item := .plus isTiming .greedy true

def componentRe : List Item := [.lit ['['], .plus notBracket .greedy true, .lit [']']]

def doneTail : List Item :=
  [.lit ['d', 'o', 'n', 'e', ' ', 'i', 'n'], blanks, number, blanks, .lit ['m', 's']]

def optimeTail : List Item :=
  [.lit ['s', 'u', 'm', '='], number, blanks, .lit ['m', 's', ','], blanks,
    .lit ['a', 'v', 'g', '='], number, blanks, .lit ['m', 's', '/', 'o', 'p']]

/-- The groups are the component, the metric and the time. -/
def doneRe : List Item := componentRe ++ lead isPySpace isDot doneTail

/-- The groups are the component, the metric, the sum and the average. -/
def optimeRe : List Item :=
  componentRe ++ blanks :: .lit ['[', 'O', 'P', 'T', 'I', 'M', 'E', ']'] ::
    lead isPySpace isDot optimeTail

/-- The group of the fixed metric is left out: the time is the only capture. -/
def initRe : List Item :=
  [.lit ['I', 'n', 'i', 't'], blanks, .lit ['d', 'o', 'n', 'e', ' ', 'i', 'n'], blanks, number,
    blanks, .lit ['m', 's']]

def protocolMetric : List Char := "protocol end-to-end excluding input sampling".toList

/-- `PROTO_RE` of the refresh script, searched at every position of the line. -/
def protoRe : List Item :=
  componentRe ++ [blanks, .lit (protocolMetric ++ [' ', 'd', 'o', 'n', 'e', ' ', 'i', 'n']), blanks,
    .plus isProtoTiming .greedy true, blanks, .lit ['m', 's']]

inductive ValueKind
  | elapsed
  | opSum
  | opAvg
deriving DecidableEq

structure TimingRow where
  run : String
  side : String
  component : List Char
  metric : List Char
  valueMs : List Char
  valueKind : ValueKind
  log : String
  line : ℕ
deriving DecidableEq

def splitLinesFrom (cur : List Char) : List Char → List (List Char)
  | [] => if cur = [] then [] else [cur.reverse]
  | '\r' :: '\n' :: s => cur.reverse :: splitLinesFrom [] s
  | c :: s => if isLineBreak c then cur.reverse :: splitLinesFrom [] s else splitLinesFrom (c :: cur) s

def lineRows (run side log : String) (line : List Char) (lineNo : ℕ) : List TimingRow :=
  match matchAt doneRe line with
  | some [component, metric, ms] => [⟨run, side, component, metric, ms, .elapsed, log, lineNo⟩]
  | _ =>
    match matchAt optimeRe line with
    | some [component, metric, sum, avg] =>
      [⟨run, side, component, metric ++ [' ', 's', 'u', 'm'], sum, .opSum, log, lineNo⟩,
        ⟨run, side, component, metric ++ [' ', 'a', 'v', 'g'], avg, .opAvg, log, lineNo⟩]
    | _ =>
      match matchAt initRe line with
      | some [ms] => [⟨run, side, "process".toList, "Init".toList, ms, .elapsed, log, lineNo⟩]
      | _ => []

/-- The rows of a log, `none` for a missing file. -/
def emitRows (runName side logPath : String) (text : Option (List Char)) : List TimingRow :=
  match text with
  | none => []
  | some text => ((splitLinesFrom [] text).zipIdx 1).flatMap fun entry =>
      lineRows runName side logPath entry.1 entry.2

def IsFixed (v : List Char) : Prop :=
  ∃ a, a ≠ [] ∧ (∀ c ∈ a, c.isDigit = true) ∧
    (v = a ∨ ∃ b, b ≠ [] ∧ (∀ c ∈ b, c.isDigit = true) ∧ v = a ++ '.' :: b)

/-- What an output stream prints for a finite nonnegative double. -/
def IsPrintedTime (v : List Char) : Prop :=
  IsFixed v ∨ ∃ m sign x, IsFixed m ∧ (sign = '+' ∨ sign = '-') ∧ 2 ≤ x.length ∧
    (∀ c ∈ x, c.isDigit = true) ∧ v = m ++ 'e' :: sign :: x

def messageLine (component message : List Char) : List Char :=
  '[' :: (component ++ ']' :: ' ' :: message)

def doneRest (v : List Char) : List Char := ['o', 'n', 'e', ' ', 'i', 'n', ' '] ++ v ++ [' ', 'm', 's']

/-- `[component] metric done in v ms` -/
def doneLine (component metric v : List Char) : List Char :=
  messageLine component (metric ++ ' ' :: 'd' :: doneRest v)

def optimeMark : List Char := ['[', 'O', 'P', 'T', 'I', 'M', 'E', ']']

def optimeRest (v w : List Char) : List Char :=
  ['u', 'm', '='] ++ v ++ [' ', 'm', 's', ',', ' ', 'a', 'v', 'g', '='] ++ w ++
    [' ', 'm', 's', '/', 'o', 'p']

/-- `[component] [OPTIME] metric sum=v ms, avg=w ms/op` -/
def optimeLine (component metric v w : List Char) : List Char :=
  messageLine component (optimeMark ++ ' ' :: (metric ++ ' ' :: 's' :: optimeRest v w))

def ReportsElapsed (v : List Char) (rows : List TimingRow) : Prop :=
  ∃ row, rows.filter (·.valueKind = .elapsed) = [row] ∧ row.valueMs = v

def ReportsOptime (v w : List Char) (rows : List TimingRow) : Prop :=
  (∃ row, rows.filter (·.valueKind = .opSum) = [row] ∧ row.valueMs = v) ∧
    ∃ row, rows.filter (·.valueKind = .opAvg) = [row] ∧ row.valueMs = w

/-- A row if and only if the refresh script matches the line, with the same time. -/
def AgreesWithRefresh (line : List Char) (rows : List TimingRow) : Prop :=
  match search protoRe line with
  | none => rows = []
  | some caps => ∃ row, rows = [row] ∧ caps.getLast? = some row.valueMs

theorem isProtoTiming_of_digit {c : Char} (h : c.isDigit = true) : isProtoTiming c = true := by
  simp [isProtoTiming, h]

theorem IsFixed.timing {v : List Char} (h : IsFixed v) : v ≠ [] ∧ ∀ c ∈ v, isTiming c = true := by
  obtain ⟨a, hne, ha, rfl | ⟨b, _, hb, rfl⟩⟩ := h
  · exact ⟨hne, fun c hc => by simp [isTiming, ha c hc]⟩
  · refine ⟨by simp, fun c hc => ?_⟩
    rcases List.mem_append.mp hc with hc | hc
    · simp [isTiming, ha c hc]
    · rcases List.mem_cons.mp hc with rfl | hc
      · decide
      · simp [isTiming, hb c hc]

theorem isProtoTiming_of_timing {c : Char} (h : isTiming c = true) : isProtoTiming c = true := by
  rw [isTiming, Bool.or_eq_true] at h
  rcases h with h | h <;> simp [isProtoTiming, h]

theorem IsPrintedTime.proto {v : List Char} (h : IsPrintedTime v) :
    v ≠ [] ∧ ∀ c ∈ v, isProtoTiming c = true := by
  rcases h with h | ⟨m, sign, x, hm, hsign, _, hx, rfl⟩
  · exact ⟨h.timing.1, fun c hc => isProtoTiming_of_timing (h.timing.2 c hc)⟩
  · refine ⟨by simp, fun c hc => ?_⟩
    rcases List.mem_append.mp hc with hc | hc
    · exact isProtoTiming_of_timing (hm.timing.2 c hc)
    · simp only [List.mem_cons] at hc
      rcases hc with rfl | rfl | hc
      · decide
      · rcases hsign with rfl | rfl <;> decide
      · exact isProtoTiming_of_digit (hx c hc)

theorem IsPrintedTime.timing {v : List Char} (h : IsPrintedTime v) (he : 'e' ∉ v) :
    ∀ c ∈ v, isTiming c = true := by
  rcases h with h | ⟨m, sign, x, _, _, _, _, rfl⟩
  · exact h.timing.2
  · simp at he

theorem isPySpace_of_proto {c : Char} (h : isProtoTiming c = true) : isPySpace c = false := by
  have hrange : c.toNat = 43 ∨ c.toNat = 45 ∨ c.toNat = 46 ∨ c.toNat = 69 ∨ c.toNat = 101 ∨
      (48 ≤ c.toNat ∧ c.toNat ≤ 57) := by
    simp only [isProtoTiming, Bool.or_eq_true, beq_iff_eq] at h
    rcases h with ((((h | rfl) | rfl) | rfl) | rfl) | rfl
    · rw [Char.isDigit, Bool.and_eq_true, decide_eq_true_iff, decide_eq_true_iff] at h
      have h1 : 48 ≤ c.toNat := h.1
      have h2 : c.toNat ≤ 57 := h.2
      omega
    all_goals decide
  simp only [isPySpace, List.contains_cons, List.contains_nil, Bool.or_false, Bool.or_eq_false_iff,
    beq_eq_false_iff_ne, Bool.and_eq_false_iff, decide_eq_false_iff_not]
  omega

theorem isTiming_not_space {c : Char} (h : isTiming c = true) : isPySpace c = false :=
  isPySpace_of_proto (isProtoTiming_of_timing h)

theorem isPySpace_not_timing {c : Char} (h : isPySpace c = true) : isTiming c = false := by
  by_contra ht
  rw [isTiming_not_space (by simpa using ht)] at h
  cases h

theorem isPySpace_not_proto {c : Char} (h : isPySpace c = true) : isProtoTiming c = false := by
  by_contra ht
  rw [isPySpace_of_proto (by simpa using ht)] at h
  cases h

theorem rejects_number (is : List Item) : Rejects isPySpace (number :: is) :=
  rejects_plus (fun _ h => isPySpace_not_timing h) _ _ _

theorem rejects_blanks (is : List Item) : Rejects isTiming (blanks :: is) :=
  rejects_plus (fun _ h => isTiming_not_space h) _ _ _

theorem doneTail_deterministic : Deterministic doneTail :=
  ⟨rfl, rejects_number _, rfl, rejects_blanks _, rfl, rejects_lit (by decide) _ _, trivial⟩

theorem optimeTail_deterministic : Deterministic optimeTail :=
  ⟨rfl, rejects_blanks _, rfl, rejects_lit (by decide) _ _, rfl, rejects_lit (by decide) _ _, rfl,
    rejects_blanks _, rfl, rejects_lit (by decide) _ _, trivial⟩

theorem head_not_space {v : List Char} (hv : IsPrintedTime v) (s : List Char) :
    ∀ c ∈ (v ++ s).head?, isPySpace c = false := by
  obtain ⟨hne, hall⟩ := hv.proto
  cases v with
  | nil => exact absurd rfl hne
  | cons d v =>
    rintro c ⟨⟩
    exact isPySpace_of_proto (hall d (by simp))

theorem matchAt_blank (is : List Item) (hrej : Rejects isPySpace is) {s : List Char}
    (hs : ∀ c ∈ s.head?, isPySpace c = false) : matchAt (blanks :: is) (' ' :: s) = matchAt is s := by
  have hh : matchAt (blanks :: is) ([' '] ++ s) =
      (matchAt is s).map fun caps => if (false : Bool) then [' '] :: caps else caps :=
    matchAt_greedy_append hrej (by simp) (List.all_eq_true.mp rfl) hs
  simp only [Bool.false_eq_true, if_false, Option.map_id'] at hh
  exact hh

theorem matchAt_number {v : List Char} (hv : IsPrintedTime v) (he : 'e' ∉ v) {is : List Item}
    (hrej : Rejects isTiming is) {s : List Char} (hs : ∀ c ∈ s.head?, isTiming c = false) :
    matchAt (number :: is) (v ++ s) = (matchAt is s).map (v :: ·) :=
  matchAt_greedy_append hrej hv.proto.1 (hv.timing he) hs

theorem dropWhile_blank {c : Char} (hc : isPySpace c = false) (s : List Char) :
    (' ' :: c :: s).dropWhile isPySpace = c :: s := by
  rw [List.dropWhile_cons_of_pos (by decide), List.dropWhile_cons_of_neg (by simp [hc])]

theorem dropWhile_number (s : List Char) : (' ' :: s).dropWhile isTiming = ' ' :: s :=
  List.dropWhile_cons_of_neg (by decide)

theorem done_blocks (s : List Char) : Blocks (' ' :: 'd' :: s) doneTail := by
  have hspace := dropWhile_blank (c := 'd') (by decide) s
  refine ⟨fun i hi => ?_, ?_, rfl, ?_, rfl, ?_, rfl, fun i hi => ?_, trivial⟩
  · simp only [List.length_cons, List.length_nil] at hi
    interval_cases i <;> simp
  · rw [hspace]
    exact matchAt_plus_head (by decide) _
  · rw [dropWhile_number, matchAt_blank _ (rejects_lit (by decide) _ _) (by simp; decide)]
    exact matchAt_lit_of_not (by simp)
  · rw [hspace]
    exact matchAt_lit_of_not (by simp)
  · simp only [List.length_cons, List.length_nil] at hi
    interval_cases i <;> simp

theorem optime_blocks_done (s : List Char) : Blocks (' ' :: 's' :: 'u' :: s) (blanks :: doneTail) := by
  have hspace := dropWhile_blank (c := 's') (by decide) ('u' :: s)
  refine ⟨?_, rfl, fun i hi => ?_, ?_, rfl, ?_, rfl, ?_, rfl, fun i hi => ?_, trivial⟩
  · rw [hspace]
    exact matchAt_lit_of_not (by simp)
  · simp only [List.length_cons, List.length_nil] at hi
    interval_cases i <;> simp
  · rw [hspace]
    exact matchAt_plus_head (by decide) _
  · rw [dropWhile_number, matchAt_blank _ (rejects_lit (by decide) _ _) (by simp; decide)]
    exact matchAt_lit_of_not (by simp)
  · rw [hspace]
    exact matchAt_lit_of_not (by simp)
  · simp only [List.length_cons, List.length_nil] at hi
    interval_cases i <;> simp

theorem optime_blocks (s : List Char) : Blocks (' ' :: 's' :: 'u' :: s) optimeTail := by
  have hspace := dropWhile_blank (c := 's') (by decide) ('u' :: s)
  refine ⟨fun i hi => ?_, ?_, rfl, ?_, rfl, fun i hi => ?_, ?_, rfl, fun i hi => ?_, ?_, rfl, ?_, rfl,
    fun i hi => ?_, trivial⟩
  · simp only [List.length_cons, List.length_nil] at hi
    interval_cases i <;> simp
  · rw [dropWhile_number, matchAt_blank _ (rejects_lit (by decide) _ _) (by simp; decide)]
    exact matchAt_lit_of_not (by simp)
  · rw [hspace]
    exact matchAt_lit_of_not (by simp)
  · simp only [List.length_cons, List.length_nil] at hi
    interval_cases i <;> simp
  · rw [hspace]
    exact matchAt_lit_of_not (by simp)
  · simp only [List.length_cons, List.length_nil] at hi
    interval_cases i <;> simp
  · rw [dropWhile_number, matchAt_blank _ (rejects_lit (by decide) _ _) (by simp; decide)]
    exact matchAt_lit_of_not (by simp)
  · rw [hspace]
    exact matchAt_lit_of_not (by simp)
  · simp only [List.length_cons, List.length_nil] at hi
    interval_cases i <;> simp

theorem not_mem_printed {v : List Char} (hv : IsPrintedTime v) {c : Char}
    (hc : isProtoTiming c = false) : c ∉ v := fun h => by
  rw [hv.proto.2 c h] at hc
  cases hc

theorem done_endsWith {v : List Char} (hv : IsPrintedTime v) (he : 'e' ∉ v) :
    EndsWith isPySpace doneTail ' ' 'd' (doneRest v) [v] where
  rejects := rejects_lit (by decide) _ _
  deterministic := doneTail_deterministic
  blocks := done_blocks _
  blank := by decide
  solid := by decide
  value := by
    have hform : 'd' :: doneRest v = ['d', 'o', 'n', 'e', ' ', 'i', 'n'] ++
        ' ' :: (v ++ ' ' :: (['m', 's'] ++ [])) := by simp [doneRest]
    rw [hform, doneTail, matchAt_lit, matchAt_blank _ (rejects_number _) (head_not_space hv _),
      matchAt_number hv he (rejects_blanks _) (by simp; decide),
      matchAt_blank _ (rejects_lit (by decide) _ _) (by simp; decide), matchAt_lit]
    rfl
  nil_none := rfl
  inner := fun j => by
    by_contra hsome
    obtain ⟨caps, hcaps⟩ := Option.ne_none_iff_exists'.mp hsome
    have hmem : 'd' ∈ ((doneRest v).drop j).tail :=
      mem_tail_of_match (rejects_lit (by decide) _ _) hcaps (by simp)
    have hd := List.mem_of_mem_drop (List.mem_of_mem_tail hmem)
    have hnot := not_mem_printed hv (c := 'd') (by decide)
    simp [doneRest, hnot] at hd

theorem optime_endsWith {v w : List Char} (hv : IsPrintedTime v) (he : 'e' ∉ v)
    (hw : IsPrintedTime w) (hew : 'e' ∉ w) :
    EndsWith isPySpace optimeTail ' ' 's' (optimeRest v w) [v, w] where
  rejects := rejects_lit (by decide) _ _
  deterministic := optimeTail_deterministic
  blocks := optime_blocks _
  blank := by decide
  solid := by decide
  value := by
    have hform : 's' :: optimeRest v w = ['s', 'u', 'm', '='] ++ (v ++ ' ' :: (['m', 's', ','] ++
        ' ' :: (['a', 'v', 'g', '='] ++ (w ++ ' ' :: (['m', 's', '/', 'o', 'p'] ++ []))))) := by
      simp [optimeRest]
    rw [hform, optimeTail, matchAt_lit, matchAt_number hv he (rejects_blanks _) (by simp; decide),
      matchAt_blank _ (rejects_lit (by decide) _ _) (by simp; decide), matchAt_lit,
      matchAt_blank _ (rejects_lit (by decide) _ _) (by simp; decide), matchAt_lit,
      matchAt_number hw hew (rejects_blanks _) (by simp; decide),
      matchAt_blank _ (rejects_lit (by decide) _ _) (by simp; decide), matchAt_lit]
    rfl
  nil_none := rfl
  inner := fun j => by
    by_contra hsome
    obtain ⟨caps, hcaps⟩ := Option.ne_none_iff_exists'.mp hsome
    have hmem : 'u' ∈ ((optimeRest v w).drop j).tail :=
      mem_tail_of_match (rejects_lit (by decide) _ _) hcaps (by simp)
    have hshift : (optimeRest v w).drop (j + 1) = (optimeRest v w).tail.drop j := rfl
    rw [List.tail_drop, hshift] at hmem
    have hu := List.mem_of_mem_drop hmem
    have hnotv := not_mem_printed hv (c := 'u') (by decide)
    have hnotw := not_mem_printed hw (c := 'u') (by decide)
    simp [optimeRest, hnotv, hnotw] at hu

section

variable {comp metric v w : List Char}

theorem matchAt_component (hc : ']' ∉ comp) (is : List Item) (s : List Char) :
    matchAt (componentRe ++ is) ('[' :: (comp ++ ']' :: s)) =
      if comp = [] then none else (matchAt is s).map (comp :: ·) := by
  have hall : ∀ c ∈ comp, notBracket c = true := fun c h =>
    bne_iff_ne.mpr fun heq => hc (heq ▸ h)
  have hrej : Rejects notBracket (.lit [']'] :: is) := rejects_lit (by decide) _ _
  have hopen := matchAt_lit ['['] (comp ++ ']' :: s) (.plus notBracket .greedy true :: .lit [']'] :: is)
  have hclose := matchAt_lit [']'] s is
  simp only [List.cons_append, List.nil_append] at hopen hclose
  rw [componentRe, List.cons_append, List.cons_append, List.cons_append, List.nil_append, hopen]
  split
  · next hnil =>
    rw [hnil]
    exact matchAt_plus_head (by decide) _
  · next hne =>
    rw [matchAt_greedy_append hrej hne hall (by simp; decide), hclose]
    rfl

theorem done_message (hc : ']' ∉ comp) (message : List Char) :
    matchAt doneRe (messageLine comp message) = if comp = [] then none
      else (matchAt (lead isPySpace isDot doneTail) (' ' :: message)).map (comp :: ·) :=
  matchAt_component hc _ _

theorem optime_message (hc : ']' ∉ comp) {message : List Char} :
    matchAt optimeRe (messageLine comp (optimeMark ++ ' ' :: message)) = if comp = [] then none
      else (matchAt (lead isPySpace isDot optimeTail) (' ' :: message)).map (comp :: ·) := by
  have hmark : matchAt (blanks :: .lit optimeMark :: lead isPySpace isDot optimeTail)
      (' ' :: (optimeMark ++ ' ' :: message)) =
        matchAt (lead isPySpace isDot optimeTail) (' ' :: message) := by
    have hrej : Rejects isPySpace (.lit optimeMark :: lead isPySpace isDot optimeTail) :=
      rejects_lit (by decide) _ _
    have hhead : ∀ c ∈ (optimeMark ++ ' ' :: message).head?, isPySpace c = false := by
      rintro c ⟨⟩
      decide
    rw [matchAt_blank _ hrej hhead, matchAt_lit]
  rw [← hmark]
  exact matchAt_component hc _ _

theorem isDot_of_not_break {c : Char} (h : isLineBreak c = false) : isDot c = true := by
  rw [isDot, bne_iff_ne]
  rintro rfl
  exact absurd h (by decide)

theorem not_break_of_proto {c : Char} (h : isProtoTiming c = true) : isLineBreak c = false := by
  have hspace := isPySpace_of_proto h
  simp only [isPySpace, isLineBreak, List.contains_cons, List.contains_nil, Bool.or_false,
    Bool.or_eq_false_iff, beq_eq_false_iff_ne] at hspace ⊢
  tauto

theorem splitLinesFrom_one {s : List Char} (hs : ∀ c ∈ s, isLineBreak c = false) (cur : List Char) :
    splitLinesFrom cur s = if cur.reverse ++ s = [] then [] else [cur.reverse ++ s] := by
  induction s generalizing cur with
  | nil => simp [splitLinesFrom]
  | cons c s ih =>
    have hc := hs c (by simp)
    have hstep : splitLinesFrom cur (c :: s) = splitLinesFrom (c :: cur) s := by
      rw [splitLinesFrom, hc]
      · rfl
      · rintro _ rfl
        exact absurd hc (by decide)
    rw [hstep, ih fun d hd => hs d (by simp [hd])]
    simp

theorem emitRows_line {s : List Char} (hs : ∀ c ∈ s, isLineBreak c = false) (hne : s ≠ [])
    (runName side logPath : String) :
    emitRows runName side logPath (some s) = lineRows runName side logPath s 1 := by
  have hsplit := splitLinesFrom_one hs []
  rw [List.reverse_nil, List.nil_append, if_neg hne] at hsplit
  simp [emitRows, hsplit]

theorem done_captures {line : List Char} {caps : List (List Char)}
    (h : matchAt doneRe line = some caps) :
    ∃ c m d, caps = [c, m, d] ∧ ∀ x ∈ d, isTiming x = true := by
  have hall := matchAt_captures h
  change List.Forall₂ _ [notBracket, isDot, isTiming] caps at hall
  rcases hall with _ | ⟨-, _ | ⟨-, _ | ⟨hd, _ | _⟩⟩⟩
  exact ⟨_, _, _, rfl, hd.2⟩

theorem optime_captures {line : List Char} {caps : List (List Char)}
    (h : matchAt optimeRe line = some caps) : ∃ c m d e, caps = [c, m, d, e] ∧
      (∀ x ∈ d, isTiming x = true) ∧ ∀ x ∈ e, isTiming x = true := by
  have hall := matchAt_captures h
  change List.Forall₂ _ [notBracket, isDot, isTiming, isTiming] caps at hall
  rcases hall with _ | ⟨-, _ | ⟨-, _ | ⟨hd, _ | ⟨he, _ | _⟩⟩⟩⟩
  exact ⟨_, _, _, _, rfl, hd.2, he.2⟩

theorem init_message (comp message : List Char) :
    matchAt initRe (messageLine comp message) = none :=
  matchAt_lit_of_not (by simp [messageLine])

variable {run side log : String} {n : ℕ}

theorem reportsElapsed_iff_match (message : List Char) :
    ReportsElapsed v (lineRows run side log (messageLine comp message) n) ↔
      ∃ c m, matchAt doneRe (messageLine comp message) = some [c, m, v] := by
  unfold lineRows
  cases hdone : matchAt doneRe (messageLine comp message) with
  | some caps =>
    obtain ⟨c, m, d, rfl, _⟩ := done_captures hdone
    simp [ReportsElapsed]
  | none =>
    cases hop : matchAt optimeRe (messageLine comp message) with
    | some caps =>
      obtain ⟨c, m, d, e, rfl, _, _⟩ := optime_captures hop
      simp [ReportsElapsed]
    | none => simp [ReportsElapsed, init_message]

theorem reportsOptime_iff_match (message : List Char) :
    ReportsOptime v w (lineRows run side log (messageLine comp message) n) ↔
      matchAt doneRe (messageLine comp message) = none ∧
        ∃ c m, matchAt optimeRe (messageLine comp message) = some [c, m, v, w] := by
  unfold lineRows
  cases hdone : matchAt doneRe (messageLine comp message) with
  | some caps =>
    obtain ⟨c, m, d, rfl, _⟩ := done_captures hdone
    simp [ReportsOptime]
  | none =>
    cases hop : matchAt optimeRe (messageLine comp message) with
    | some caps =>
      obtain ⟨c, m, d, e, rfl, _, _⟩ := optime_captures hop
      simp [ReportsOptime]
    | none => simp [ReportsOptime, init_message]

theorem done_not_break (hm : ∀ c ∈ metric, isLineBreak c = false) (hv : IsPrintedTime v) :
    ∀ c ∈ metric ++ ' ' :: 'd' :: doneRest v, isLineBreak c = false := by
  intro c hc
  simp only [doneRest, List.mem_append, List.mem_cons, List.not_mem_nil, or_false] at hc
  rcases hc with hc | rfl | rfl | (((rfl | rfl | rfl | rfl | rfl | rfl | rfl) | hc) | rfl | rfl | rfl)
  · exact hm c hc
  all_goals first
    | exact not_break_of_proto (hv.proto.2 c hc)
    | decide

theorem optime_not_break (hm : ∀ c ∈ metric, isLineBreak c = false) (hv : IsPrintedTime v)
    (hw : IsPrintedTime w) :
    ∀ c ∈ metric ++ ' ' :: 's' :: optimeRest v w, isLineBreak c = false := by
  intro c hc
  simp only [optimeRest, List.mem_append, List.mem_cons, List.not_mem_nil, or_false] at hc
  rcases hc with hc | rfl | rfl | ((((rfl | rfl | rfl) | hc) | (rfl | rfl | rfl | rfl | rfl | rfl |
    rfl | rfl | rfl)) | hc) | (rfl | rfl | rfl | rfl | rfl | rfl)
  · exact hm c hc
  all_goals first
    | exact not_break_of_proto (hv.proto.2 c hc)
    | exact not_break_of_proto (hw.proto.2 c hc)
    | decide

theorem dots_of_not_break {s : List Char} (h : ∀ c ∈ s, isLineBreak c = false) :
    ∀ c ∈ s, isDot c = true := fun c hc => isDot_of_not_break (h c hc)

theorem not_e_of_timing (h : ∀ x ∈ v, isTiming x = true) : 'e' ∉ v := fun he =>
  absurd (h 'e' he) (by decide)

/-- The time of the line is taken exactly when it has no exponent and no phrase
of the metric comes before it. -/
theorem doneLine_match (hc : ']' ∉ comp) (hm : ∀ c ∈ metric, isLineBreak c = false)
    (hv : IsPrintedTime v) : (∃ c m, matchAt doneRe (doneLine comp metric v) = some [c, m, v]) ↔
      comp ≠ [] ∧ metric ≠ [] ∧ 'e' ∉ v ∧ ∀ caps,
        matchAt doneRe (messageLine comp (metric.dropWhile isPySpace)) = some caps →
          caps.drop 2 = [v] := by
  by_cases hcomp : comp = []
  · rw [doneLine, done_message hc, if_pos hcomp]
    simp [hcomp]
  have hmsg : ∀ message, matchAt doneRe (messageLine comp message) =
      (matchAt (lead isPySpace isDot doneTail) (' ' :: message)).map (comp :: ·) := fun message => by
    rw [done_message hc, if_neg hcomp]
  by_cases he : 'e' ∈ v
  · refine iff_of_false ?_ fun h => h.2.2.1 he
    rintro ⟨c, m, h⟩
    obtain ⟨_, _, _, heq, htiming⟩ := done_captures h
    simp only [List.cons.injEq, and_true] at heq
    obtain ⟨-, -, rfl⟩ := heq
    exact not_e_of_timing htiming he
  · have hmatch := (done_endsWith hv he).lead_match_iff (a := ' ') (by decide)
      (dots_of_not_break (done_not_break hm hv)) comp
    rw [doneLine, hmsg, hmsg, hmatch]
    exact ⟨fun h => ⟨hcomp, h.1, he, h.2⟩, fun h => ⟨h.2.1, h.2.2.2⟩⟩

theorem noBreak_of_any {l : List Char} (h : l.any isLineBreak = false) :
    ∀ c ∈ l, isLineBreak c = false := by
  simpa using h

theorem optimeMark_not_break : ∀ c ∈ optimeMark, isLineBreak c = false := noBreak_of_any rfl

theorem protocolMetric_not_break : ∀ c ∈ protocolMetric, isLineBreak c = false := noBreak_of_any rfl

theorem optimeMark_done (hc : ']' ∉ comp) (hm : ∀ c ∈ metric, isLineBreak c = false)
    (hv : IsPrintedTime v) (hw : IsPrintedTime w) :
    matchAt doneRe (optimeLine comp metric v w) = none ↔
      matchAt doneRe (messageLine comp (optimeMark ++ ' ' :: metric)) = none := by
  have hhead : ∀ message : List Char, ∀ c ∈ (optimeMark ++ message).head?, isPySpace c = false := by
    rintro message c ⟨⟩
    decide
  have hform : optimeMark ++ ' ' :: (metric ++ ' ' :: 's' :: optimeRest v w) =
      (optimeMark ++ ' ' :: metric) ++ ' ' :: 's' :: optimeRest v w := by simp
  have hend : ∀ j, matchAt (blanks :: doneTail) ((' ' :: 's' :: optimeRest v w).drop j) = none := by
    intro j
    by_contra hsome
    obtain ⟨caps, hcaps⟩ := Option.ne_none_iff_exists'.mp hsome
    have hmem : 'd' ∈ ((' ' :: 's' :: optimeRest v w).drop j).tail :=
      mem_tail_of_match (rejects_lit (by decide) _ _) hcaps (by simp)
    have hd := List.mem_of_mem_drop (List.mem_of_mem_tail hmem)
    have hnotv := not_mem_printed hv (c := 'd') (by decide)
    have hnotw := not_mem_printed hw (c := 'd') (by decide)
    simp [optimeRest, hnotv, hnotw] at hd
  have hdots : ∀ c ∈ (optimeMark ++ ' ' :: metric) ++ ' ' :: 's' :: optimeRest v w,
      isDot c = true := by
    intro c hmem
    rw [List.append_assoc, List.mem_append] at hmem
    rcases hmem with hmem | hmem
    · exact dots_of_not_break optimeMark_not_break c hmem
    · rcases List.mem_cons.mp hmem with rfl | hmem
      · decide
      · exact dots_of_not_break (optime_not_break hm hv hw) c hmem
  rw [optimeLine, done_message hc, done_message hc]
  split
  · exact Iff.rfl
  · rw [Option.map_eq_none_iff, Option.map_eq_none_iff, lead_one (by decide) (hhead _),
      lead_one (by decide) (hhead _), hform]
    have hdet : Deterministic (blanks :: doneTail) :=
      ⟨rfl, rejects_lit (by decide) _ _, doneTail_deterministic⟩
    exact matchAt_run_append_none hdet (optime_blocks_done _) hend hdots

theorem optimeLine_match (hc : ']' ∉ comp) (hm : ∀ c ∈ metric, isLineBreak c = false)
    (hv : IsPrintedTime v) (hw : IsPrintedTime w) :
    (∃ c m, matchAt optimeRe (optimeLine comp metric v w) = some [c, m, v, w]) ↔
      comp ≠ [] ∧ metric ≠ [] ∧ ('e' ∉ v ∧ 'e' ∉ w) ∧ ∀ caps,
        matchAt optimeRe (messageLine comp (optimeMark ++ ' ' :: metric.dropWhile isPySpace)) =
          some caps → caps.drop 2 = [v, w] := by
  by_cases hcomp : comp = []
  · rw [optimeLine, optime_message hc, if_pos hcomp]
    simp [hcomp]
  have hmsg : ∀ message, matchAt optimeRe (messageLine comp (optimeMark ++ ' ' :: message)) =
      (matchAt (lead isPySpace isDot optimeTail) (' ' :: message)).map (comp :: ·) :=
    fun message => by rw [optime_message hc, if_neg hcomp]
  by_cases he : 'e' ∉ v ∧ 'e' ∉ w
  · have hmatch := (optime_endsWith hv he.1 hw he.2).lead_match_iff (a := ' ') (by decide)
      (dots_of_not_break (optime_not_break hm hv hw)) comp
    rw [optimeLine, hmsg, hmsg, hmatch]
    exact ⟨fun h => ⟨hcomp, h.1, he, h.2⟩, fun h => ⟨h.2.1, h.2.2.2⟩⟩
  · refine iff_of_false ?_ fun h => he h.2.2.1
    rintro ⟨c, m, h⟩
    obtain ⟨_, _, _, _, heq, hd, hd'⟩ := optime_captures h
    simp only [List.cons.injEq, and_true] at heq
    obtain ⟨-, -, rfl, rfl⟩ := heq
    exact he ⟨not_e_of_timing hd, not_e_of_timing hd'⟩

theorem line_not_break (hcl : ∀ c ∈ comp, isLineBreak c = false) {message : List Char}
    (hm : ∀ c ∈ message, isLineBreak c = false) :
    ∀ c ∈ messageLine comp message, isLineBreak c = false := by
  intro c hc
  simp only [messageLine, List.mem_cons, List.mem_append] at hc
  rcases hc with rfl | hc | rfl | rfl | hc
  · decide
  · exact hcl c hc
  · decide
  · decide
  · exact hm c hc

theorem search_proto_nil (hv : IsPrintedTime v) :
    search protoRe (doneLine [] protocolMetric v) = none := by
  rw [search, List.findSome?_eq_none_iff]
  intro i _
  cases i with
  | zero =>
    rw [List.drop_zero, doneLine, messageLine, protoRe, matchAt_component (by simp), if_pos rfl]
  | succ i =>
    refine matchAt_lit_of_not fun hpre => ?_
    have hopen : '[' ∈ (doneLine [] protocolMetric v).drop (i + 1) := hpre.subset (by simp)
    have hnot := not_mem_printed hv (c := '[') (by decide)
    have hmetric : '[' ∉ protocolMetric := by decide
    rw [doneLine, messageLine, List.drop_succ_cons] at hopen
    have hmem := List.mem_of_mem_drop hopen
    simp [doneRest, hnot, hmetric] at hmem

theorem search_proto (hc : ']' ∉ comp) (hcomp : comp ≠ []) (hv : IsPrintedTime v) :
    search protoRe (doneLine comp protocolMetric v) = some [comp, v] := by
  have hform : protocolMetric ++ ' ' :: 'd' :: doneRest v =
      (protocolMetric ++ [' ', 'd', 'o', 'n', 'e', ' ', 'i', 'n']) ++
        ' ' :: (v ++ ' ' :: (['m', 's'] ++ [])) := by simp [doneRest]
  have hrej : ∀ is, Rejects isPySpace
      (.lit (protocolMetric ++ [' ', 'd', 'o', 'n', 'e', ' ', 'i', 'n']) :: is) := fun is =>
    rejects_lit (c := 'p') (by decide) _ _
  have hhead : ∀ s : List Char, ∀ c ∈ ((protocolMetric ++
      [' ', 'd', 'o', 'n', 'e', ' ', 'i', 'n']) ++ s).head?, isPySpace c = false := by
    rintro s c ⟨⟩
    decide
  have hnum : ∀ is, Rejects isPySpace (.plus isProtoTiming .greedy true :: is) := fun is =>
    rejects_plus (fun _ h => isPySpace_not_proto h) _ _ _
  have hblank : ∀ is, Rejects isProtoTiming (blanks :: is) := fun is =>
    rejects_plus (fun _ h => isPySpace_of_proto h) _ _ _
  have hmatch : matchAt protoRe (doneLine comp protocolMetric v) = some [comp, v] := by
    rw [doneLine, messageLine, protoRe, matchAt_component hc, if_neg hcomp, hform,
      matchAt_blank _ (hrej _) (hhead _), matchAt_lit,
      matchAt_blank _ (hnum _) (head_not_space hv _),
      matchAt_greedy_append (hblank _) hv.proto.1 hv.proto.2 (by simp; decide),
      matchAt_blank _ (rejects_lit (by decide) _ _) (by simp; decide), matchAt_lit]
    rfl
  rw [search, List.range_succ_eq_map, List.findSome?_cons, List.drop_zero, hmatch]

theorem agreesWithRefresh_iff (hc : ']' ∉ comp) (hv : IsPrintedTime v) :
    AgreesWithRefresh (doneLine comp protocolMetric v)
      (lineRows run side log (doneLine comp protocolMetric v) n) ↔ comp = [] ∨ 'e' ∉ v := by
  by_cases hcomp : comp = []
  · subst hcomp
    have hdone : matchAt doneRe (doneLine [] protocolMetric v) = none := by
      rw [doneLine, done_message hc, if_pos rfl]
    have hoptime : matchAt optimeRe (doneLine [] protocolMetric v) = none := by
      rw [doneLine, messageLine, optimeRe, matchAt_component hc, if_pos rfl]
    have hinit : matchAt initRe (doneLine [] protocolMetric v) = none := init_message _ _
    rw [AgreesWithRefresh, search_proto_nil hv, lineRows, hdone, hoptime, hinit]
    simp
  · rw [AgreesWithRefresh, search_proto hc hcomp hv, or_iff_right hcomp]
    have hplain : matchAt (lead isPySpace isDot doneTail) (' ' :: protocolMetric) = none := by rfl
    constructor
    · rintro ⟨row, hrow, hlast⟩
      unfold lineRows at hrow
      cases hdone : matchAt doneRe (doneLine comp protocolMetric v) with
      | some caps =>
        obtain ⟨c, m, d, rfl, hd⟩ := done_captures hdone
        rw [hdone] at hrow
        simp only [List.cons.injEq, and_true] at hrow
        rw [← hrow] at hlast
        simp only [List.getLast?_cons_cons, List.getLast?_singleton, Option.some.injEq] at hlast
        rw [hlast]
        exact not_e_of_timing hd
      | none =>
        rw [hdone] at hrow
        cases hop : matchAt optimeRe (doneLine comp protocolMetric v) with
        | some caps =>
          obtain ⟨c, m, d, e, rfl, _, _⟩ := optime_captures hop
          rw [hop] at hrow
          simp at hrow
        | none =>
          rw [hop, doneLine, init_message] at hrow
          cases hrow
    · intro he
      obtain ⟨c, m, hmatch⟩ := (doneLine_match hc protocolMetric_not_break hv).mpr
        ⟨hcomp, by decide, he, fun caps hcaps => by
          have hstrip : protocolMetric.dropWhile isPySpace = protocolMetric := by rfl
          rw [hstrip, done_message hc, if_neg hcomp, hplain] at hcaps
          cases hcaps⟩
      rw [lineRows, hmatch]
      exact ⟨_, rfl, rfl⟩

theorem messageLine_ne_nil (message : List Char) : messageLine comp message ≠ [] :=
  List.cons_ne_nil _ _

/-- The extractor takes up the times that are printed without an exponent, and
the refresh script agrees with it on exactly these. -/
theorem emitRows_reports (runName side logPath : String) (hc : ']' ∉ comp)
    (hcl : ∀ c ∈ comp, isLineBreak c = false) (hm : ∀ c ∈ metric, isLineBreak c = false)
    (hv : IsPrintedTime v) (hw : IsPrintedTime w) :
    (ReportsElapsed v (emitRows runName side logPath (some (doneLine comp metric v))) ↔
      comp ≠ [] ∧ metric ≠ [] ∧ 'e' ∉ v ∧ ∀ caps,
        matchAt doneRe (messageLine comp (metric.dropWhile isPySpace)) = some caps →
          caps.drop 2 = [v]) ∧
    (ReportsOptime v w (emitRows runName side logPath (some (optimeLine comp metric v w))) ↔
      comp ≠ [] ∧ metric ≠ [] ∧ ('e' ∉ v ∧ 'e' ∉ w) ∧
        matchAt doneRe (messageLine comp (optimeMark ++ ' ' :: metric)) = none ∧ ∀ caps,
          matchAt optimeRe (messageLine comp (optimeMark ++ ' ' :: metric.dropWhile isPySpace)) =
            some caps → caps.drop 2 = [v, w]) ∧
    (AgreesWithRefresh (doneLine comp protocolMetric v)
      (emitRows runName side logPath (some (doneLine comp protocolMetric v))) ↔
        comp = [] ∨ 'e' ∉ v) := by
  have hdone : ∀ m, (∀ c ∈ m, isLineBreak c = false) →
      ∀ c ∈ doneLine comp m v, isLineBreak c = false := fun m hm' =>
    line_not_break hcl (done_not_break hm' hv)
  have hoptime : ∀ c ∈ optimeLine comp metric v w, isLineBreak c = false := by
    refine line_not_break hcl fun c hmem => ?_
    rcases List.mem_append.mp hmem with hmem | hmem
    · exact optimeMark_not_break c hmem
    · rcases List.mem_cons.mp hmem with rfl | hmem
      · decide
      · exact optime_not_break hm hv hw c hmem
  rw [emitRows_line (hdone metric hm) (messageLine_ne_nil _),
    emitRows_line (hdone protocolMetric protocolMetric_not_break) (messageLine_ne_nil _),
    emitRows_line hoptime (messageLine_ne_nil _)]
  refine ⟨?_, ?_, agreesWithRefresh_iff hc hv⟩
  · exact (reportsElapsed_iff_match _).trans (doneLine_match hc hm hv)
  · refine (reportsOptime_iff_match _).trans ?_
    rw [← optimeLine, optimeMark_done hc hm hv hw, optimeLine_match hc hm hv hw]
    tauto


end

theorem isPrintedTime_fixed : IsPrintedTime ['2', '.', '5'] :=
  .inl ⟨['2'], by simp, List.all_eq_true.mp rfl, .inr ⟨['5'], by simp, List.all_eq_true.mp rfl, rfl⟩⟩

theorem emitRows_reports_short :
    ReportsOptime ['2', '.', '5'] ['2', '.', '5'] (emitRows "run" "local" "run_local.log"
      (some (optimeLine "role".toList "cmult".toList ['2', '.', '5'] ['2', '.', '5']))) := by
  have hcomp : ']' ∉ "role".toList := by decide
  have hmetric : ∀ c ∈ "cmult".toList, isLineBreak c = false := noBreak_of_any rfl
  have hreports := emitRows_reports "run" "local" "run_local.log" hcomp (noBreak_of_any rfl) hmetric
    isPrintedTime_fixed isPrintedTime_fixed
  refine hreports.2.1.mpr ⟨by decide, by decide, by decide, by rfl, fun caps hcaps => ?_⟩
  have hnone : matchAt optimeRe (messageLine "role".toList
      (optimeMark ++ ' ' :: "cmult".toList.dropWhile isPySpace)) = none := by rfl
  rw [hnone] at hcaps
  cases hcaps

/-- From one million milliseconds on, the stream prints an exponent: no row comes
out of the line, and the refresh script reads its time. -/
theorem emitRows_drops_million :
    ¬ ReportsElapsed ['1', 'e', '+', '0', '6'] (emitRows "run" "local" "run_local.log"
        (some (doneLine "psi_receiver".toList protocolMetric ['1', 'e', '+', '0', '6']))) ∧
      emitRows "run" "local" "run_local.log"
        (some (doneLine "psi_receiver".toList protocolMetric ['1', 'e', '+', '0', '6'])) = [] ∧
      search protoRe (doneLine "psi_receiver".toList protocolMetric ['1', 'e', '+', '0', '6']) =
        some ["psi_receiver".toList, ['1', 'e', '+', '0', '6']] := by
  have hrows : emitRows "run" "local" "run_local.log"
      (some (doneLine "psi_receiver".toList protocolMetric ['1', 'e', '+', '0', '6'])) = [] := by
    rfl
  refine ⟨?_, hrows, by rfl⟩
  rw [hrows]
  rintro ⟨row, hrow, _⟩
  cases hrow

end RfClassGroups
