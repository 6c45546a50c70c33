import RfClassGroups.BenchIo
import RfClassGroups.Lib.Words
import RfClassGroups.Psi

/-! The two readers of a set file, the endpoints' and the checker's, against the
documented format of decimal words. -/

open CoeffList ExceptList Words

namespace RfClassGroups

theorem readWord_shorter {s : IStream} (h : s.readWord.2.fail = false) :
    s.readWord.2.rest.length < s.rest.length := by
  unfold IStream.readWord at h ⊢
  split at h
  · next hfail => exact absurd h (by simp [hfail])
  · next hfail =>
    rw [if_neg hfail]
    exact length_scan_lt fun hnil => by simp [hnil] at h

def readMpzListLoop (env : Env) (path : String) (q : Mpz) (role : String) (s : IStream)
    (values : List Mpz) : Except String (List Mpz) :=
  if _h : s.readWord.2.fail = false then do
    let token := s.readWord.1
    let x ← mpzOfText token
    if x < 0 ∨ q ≤ x then
      throw (role ++ ": input value outside plaintext field Z_q in " ++ path ++ ": " ++
        String.ofList token)
    cgValidateCount env (values.length + 1) false
    readMpzListLoop env path q role s.readWord.2 (values ++ [x])
  else return values
termination_by s.rest.length
decreasing_by exact readWord_shorter _h

/-- `none` stands for a file that cannot be opened. -/
def readMpzListFile (env : Env) (path : String) (file : Option (List Char)) (q : Mpz) (role : String) :
    Except String (List Mpz) :=
  match file with
  | none => throw (role ++ ": cannot open input file " ++ path)
  | some text => do
    let values ← readMpzListLoop env path q role ⟨text, false⟩ []
    if values = [] then throw (role ++ ": input file is empty: " ++ path)
    validatePsiSet env values q role
    return values

def pyRepr (token : List Char) : String :=
  let apostrophe := Char.ofNat 39
  let backslash := Char.ofNat 92
  let quote := if apostrophe ∈ token ∧ Char.ofNat 34 ∉ token then Char.ofNat 34 else apostrophe
  String.ofList (quote ::
    token.flatMap (fun c => if c = quote ∨ c = backslash then [backslash, c] else [c]) ++ [quote])

/-- The interpreter refuses texts of more than `maxDigits` digits; zero stands for
no limit. -/
def pyInt (maxDigits : ℕ) (token : List Char) : Except String ℕ :=
  if maxDigits ≠ 0 ∧ maxDigits < token.length then
    throw ("Exceeds the limit (" ++ toString maxDigits ++
      " digits) for integer string conversion: value has " ++ toString token.length ++
      " digits; use sys.set_int_max_str_digits() to increase the limit")
  else return Nat.ofDigitChars 10 token 0

def numericSetLoop (maxDigits : ℕ) (label : String) :
    List (List Char) → Finset ℕ → Except String (Finset ℕ)
  | [], values => return values
  | token :: tokens, values =>
    if token = [] ∨ ¬ token.all Char.isDigit then
      throw (label ++ ": invalid nonnegative decimal element " ++ pyRepr token)
    else do
      let value ← pyInt maxDigits token
      if value ∈ values then throw (label ++ ": duplicate element " ++ toString value)
      else numericSetLoop maxDigits label tokens (insert value values)

def numericSet (maxDigits : ℕ) (tokens : List (List Char)) (label : String) :
    Except String (Finset ℕ) := numericSetLoop maxDigits label tokens ∅

/-- `read_text` turns every line ending into a line feed. -/
def universalNewlines : List Char → List Char
  | '\r' :: '\n' :: cs => '\n' :: universalNewlines cs
  | '\r' :: cs => '\n' :: universalNewlines cs
  | c :: cs => c :: universalNewlines cs
  | [] => []

/-- The white space of `split` below 128. -/
def pySpace (c : Char) : Bool := (9 ≤ c.toNat && c.toNat ≤ 13) || (28 ≤ c.toNat && c.toNat ≤ 32)

def readSet (maxDigits : ℕ) (path : String) (text : List Char) : Except String (Finset ℕ) :=
  numericSet maxDigits (words pySpace (universalNewlines text)) path

/-- Printable characters, blanks and line endings. -/
def setTextChar (c : Char) : Bool :=
  (32 ≤ c.toNat && c.toNat ≤ 126) || c = '\t' || c = '\r' || c = '\n'

/-- How a file is a set, for a way to read its tokens. -/
structure SetFile (Reads : List Char → Mpz → Prop) (limit : ℕ) (q : Mpz) (tokens : List (List Char))
    (values : List Mpz) : Prop where
  read : List.Forall₂ Reads tokens values
  nonempty : tokens ≠ []
  count : tokens.length ≤ limit
  below : ∀ v ∈ values, v < q
  distinct : values.Nodup

def GmpReads (token : List Char) (v : Mpz) : Prop := mpzSigned token = some v ∧ 0 ≤ v

def DecimalReads (token : List Char) (v : Mpz) : Prop :=
  token ≠ [] ∧ token.all Char.isDigit = true ∧ v = Nat.ofDigitChars 10 token 0

section

variable {env : Env} {path role : String} {q : Mpz} {limit : ℕ}

theorem mpzOfText_ok {token : List Char} {v : Mpz} : mpzOfText token = .ok v ↔ mpzSigned token = some v := by
  unfold mpzOfText
  cases mpzSigned token with
  | none => simp
  | some w => simp

theorem cgValidateCount_ok_iff (hlimit : cgMaxItems env = .ok limit) {n : ℕ} :
    cgValidateCount env n false = .ok () ↔ 0 < n ∧ n ≤ limit := by
  rw [cgValidateCount_ok, hlimit]
  simp

theorem words_rest (s : IStream) (hs : s.fail = false) :
    words isSpace s.rest =
      if s.readWord.2.fail = false then s.readWord.1 :: words isSpace s.readWord.2.rest else [] := by
  have hword : s.readWord = ((s.rest.dropWhile isSpace).takeWhile (!isSpace ·),
      ⟨(s.rest.dropWhile isSpace).dropWhile (!isSpace ·),
        ((s.rest.dropWhile isSpace).takeWhile (!isSpace ·)).isEmpty⟩) := by
    rw [IStream.readWord, if_neg (by simp [hs])]
  rw [hword]
  by_cases hnil : (s.rest.dropWhile isSpace).takeWhile (!isSpace ·) = []
  · rw [words_scan_empty hnil, hnil]
    rfl
  · rw [words_scan hnil, if_pos (List.isEmpty_eq_false_iff.mpr hnil)]

theorem readMpzListLoop_word (hlimit : cgMaxItems env = .ok limit) {s : IStream}
    (h : s.readWord.2.fail = false) {values r : List Mpz} :
    readMpzListLoop env path q role s values = .ok r ↔
      ∃ x, GmpReads s.readWord.1 x ∧ x < q ∧ values.length + 1 ≤ limit ∧
        readMpzListLoop env path q role s.readWord.2 (values ++ [x]) = .ok r := by
  rw [readMpzListLoop, dif_pos h]
  simp only [bind_eq_ok, mpzOfText_ok]
  refine exists_congr fun x => ?_
  by_cases hrange : x < 0 ∨ q ≤ x
  · simp only [if_pos hrange, throw_eq_error, error_bind, reduceCtorEq, and_false, false_iff]
    rintro ⟨hread, hlt, -⟩
    rcases hrange with hneg | hge
    · exact absurd hread.2 (not_le.mpr hneg)
    · exact absurd hlt (not_lt.mpr hge)
  · obtain ⟨h0, hlt⟩ := not_or.mp hrange
    simp only [if_neg hrange, GmpReads, not_lt.mp h0, not_le.mp hlt, true_and, and_true, bind_eq_ok]
    constructor
    · rintro ⟨hx, ⟨⟩, hcount, hr⟩
      exact ⟨hx, ((cgValidateCount_ok_iff hlimit).mp hcount).2, hr⟩
    · rintro ⟨hx, hle, hr⟩
      exact ⟨hx, (), (cgValidateCount_ok_iff hlimit).mpr ⟨Nat.succ_pos _, hle⟩, hr⟩

theorem readMpzListLoop_ok (hlimit : cgMaxItems env = .ok limit) {s : IStream} (hs : s.fail = false)
    {values r : List Mpz} :
    readMpzListLoop env path q role s values = .ok r ↔ ∃ xs, r = values ++ xs ∧
      List.Forall₂ GmpReads (words isSpace s.rest) xs ∧ (∀ v ∈ xs, v < q) ∧
      (xs ≠ [] → values.length + xs.length ≤ limit) := by
  induction s, values using readMpzListLoop.induct with
  | case1 s values h ih =>
    rw [readMpzListLoop_word hlimit h, words_rest s hs, if_pos h]
    constructor
    · rintro ⟨x, hread, hlt, hle, hr⟩
      obtain ⟨xs, rfl, hreads, hbelow, hlen⟩ := (ih x h).mp hr
      refine ⟨x :: xs, by simp, .cons hread hreads, List.forall_mem_cons.mpr ⟨hlt, hbelow⟩, fun _ => ?_⟩
      cases xs with
      | nil => simpa using hle
      | cons y ys =>
        have hh := hlen (List.cons_ne_nil _ _)
        simp only [List.length_append, List.length_cons, List.length_nil] at hh ⊢
        omega
    · rintro ⟨_ | ⟨x, xs⟩, rfl, hreads, hbelow, hlen⟩
      · cases hreads
      · obtain ⟨hread, hreads⟩ := List.forall₂_cons.mp hreads
        obtain ⟨hlt, hbelow⟩ := List.forall_mem_cons.mp hbelow
        have hle := hlen (List.cons_ne_nil _ _)
        rw [List.length_cons] at hle
        refine ⟨x, hread, hlt, by omega, (ih x h).mpr ⟨xs, by simp, hreads, hbelow, fun _ => ?_⟩⟩
        rw [List.length_append, List.length_singleton]
        omega
  | case2 s values h =>
    rw [readMpzListLoop, dif_neg h, words_rest s hs, if_neg h]
    constructor
    · intro hr
      cases hr
      exact ⟨[], by simp⟩
    · rintro ⟨xs, rfl, hread, _⟩
      cases hread
      simp

theorem SetFile.valid {tokens : List (List Char)} {values : List Mpz}
    (h : SetFile GmpReads limit q tokens values) : values ≠ [] ∧ Reduced q values := by
  constructor
  · rintro rfl
    exact h.nonempty (List.forall₂_nil_right_iff.mp h.read)
  · intro v hv
    obtain ⟨token, _, _, h0⟩ := exists_left_of_forall₂ h.read v hv
    exact ⟨h0, h.below v hv⟩

theorem readMpzListFile_ok (hlimit : cgMaxItems env = .ok limit) {text : List Char} {values : List Mpz} :
    readMpzListFile env path (some text) q role = .ok values ↔
      SetFile GmpReads limit q (words isSpace text) values := by
  simp only [readMpzListFile, bind_eq_ok, readMpzListLoop_ok hlimit (s := ⟨text, false⟩) rfl,
    List.nil_append, List.length_nil, zero_add]
  constructor
  · rintro ⟨xs, ⟨_, rfl, hread, hbelow, hlen⟩, h⟩
    split at h
    · cases h
    · next hne =>
      obtain ⟨⟨⟩, hvalid, h⟩ := bind_eq_ok.mp h
      cases h
      exact ⟨hread, fun hnil => hne (by simpa [hnil] using hread), hread.length_eq ▸ hlen hne, hbelow,
        (validatePsiSet_ok.mp hvalid).2.2⟩
  · intro hfile
    obtain ⟨hvalues, hred⟩ := hfile.valid
    obtain ⟨hread, _, hcount, hbelow, hdistinct⟩ := hfile
    rw [hread.length_eq] at hcount
    have hvalid : validatePsiSet env values q role = .ok () :=
      validatePsiSet_ok.mpr ⟨(cgValidateCount_ok_iff hlimit).mpr
        ⟨List.length_pos_iff.mpr hvalues, hcount⟩, hred, hdistinct⟩
    refine ⟨values, ⟨values, rfl, hread, hbelow, fun _ => hcount⟩, ?_⟩
    rw [if_neg hvalues, hvalid]
    rfl

end

theorem isDigit_of_digitValue {c : Char} (h : digitValue c < 10) : c.isDigit = true := by
  unfold digitValue at h
  by_contra hc
  rw [if_neg hc] at h
  split at h
  · next hlower =>
    have hle : 97 ≤ c.toNat := hlower.1
    omega
  · split at h
    · next hupper =>
      have hle : 65 ≤ c.toNat := hupper.1
      omega
    · omega

theorem digitsInBase_ten_iff {cs : List Char} {n : ℕ} :
    digitsInBase 10 cs = some n ↔ cs.all Char.isDigit = true ∧ n = Nat.ofDigitChars 10 cs 0 := by
  constructor
  · intro h
    have hall : ∀ acc m, cs.foldlM (fun acc c => if digitValue c < 10
        then some (10 * acc + digitValue c) else none) acc = some m → ∀ c ∈ cs, c.isDigit = true := by
      clear h
      induction cs with
      | nil => simp
      | cons c cs ih =>
        intro acc m h
        rw [List.foldlM_cons] at h
        by_cases hc : digitValue c < 10
        · rw [if_pos hc] at h
          exact List.forall_mem_cons.mpr ⟨isDigit_of_digitValue hc, ih _ m h⟩
        · rw [if_neg hc] at h
          cases h
    have hdigits := hall 0 n h
    exact ⟨List.all_eq_true.mpr hdigits, Option.some.inj (h.symm.trans (digitsInBase_ten hdigits 0))⟩
  · rintro ⟨hdigits, rfl⟩
    exact digitsInBase_ten (List.all_eq_true.mp hdigits) 0

theorem le_ofDigitChars (cs : List Char) (acc : ℕ) : acc ≤ Nat.ofDigitChars 10 cs acc := by
  induction cs generalizing acc with
  | nil => simp
  | cons c cs ih =>
    rw [Nat.ofDigitChars_cons]
    exact le_trans (by omega) (ih _)

theorem ofDigitChars_cons_digit {c : Char} (hc : c.isDigit = true) (cs : List Char) (acc : ℕ) :
    Nat.ofDigitChars 10 (c :: cs) acc = Nat.ofDigitChars 10 cs (10 * acc + digitValue c) := by
  rw [(digitValue_of_isDigit hc).1, Nat.ofDigitChars_cons]
  rfl

def octalStep (acc : ℕ) (c : Char) : Option ℕ :=
  if digitValue c < 8 then some (8 * acc + digitValue c) else none

theorem octal_small {cs : List Char} {acc : ℕ} (hcs : ∀ c ∈ cs, c.isDigit = true)
    (h : Nat.ofDigitChars 10 cs acc < 8) :
    cs.foldlM octalStep acc = some (Nat.ofDigitChars 10 cs acc) := by
  induction cs generalizing acc with
  | nil => simp
  | cons c cs ih =>
    obtain ⟨hc, hcs⟩ := List.forall_mem_cons.mp hcs
    rw [ofDigitChars_cons_digit hc] at h ⊢
    have hle := le_ofDigitChars cs (10 * acc + digitValue c)
    have hstep : octalStep acc c = some (10 * acc + digitValue c) := by
      rw [octalStep, if_pos (by omega)]
      congr 1
      omega
    rw [List.foldlM_cons, hstep]
    exact ih hcs h

/-- Read in base eight, digits denote less than in base ten. -/
theorem octal_lt {cs : List Char} {a b v : ℕ} (hcs : ∀ c ∈ cs, c.isDigit = true) (hab : a < b)
    (h : cs.foldlM octalStep a = some v) : v < Nat.ofDigitChars 10 cs b := by
  induction cs generalizing a b with
  | nil =>
    cases h
    simpa using hab
  | cons c cs ih =>
    obtain ⟨hc, hcs⟩ := List.forall_mem_cons.mp hcs
    rw [List.foldlM_cons, octalStep] at h
    rw [ofDigitChars_cons_digit hc]
    by_cases h8 : digitValue c < 8
    · rw [if_pos h8] at h
      exact ih hcs (by omega) h
    · rw [if_neg h8] at h
      cases h

theorem octal_eq_small {cs : List Char} {acc : ℕ} (hcs : ∀ c ∈ cs, c.isDigit = true) (hacc : acc < 8)
    (h : cs.foldlM octalStep acc = some (Nat.ofDigitChars 10 cs acc)) :
    Nat.ofDigitChars 10 cs acc < 8 := by
  induction cs generalizing acc with
  | nil => simpa using hacc
  | cons c cs ih =>
    obtain ⟨hc, hcs⟩ := List.forall_mem_cons.mp hcs
    rw [List.foldlM_cons, octalStep] at h
    rw [ofDigitChars_cons_digit hc] at h ⊢
    by_cases h8 : digitValue c < 8
    · rw [if_pos h8] at h
      rcases Nat.eq_zero_or_pos acc with rfl | hpos
      · rw [Nat.mul_zero, Nat.zero_add] at h ⊢
        exact ih hcs h8 h
      · exact absurd (octal_lt hcs (by omega) h) (lt_irrefl _)
    · rw [if_neg h8] at h
      cases h

theorem mpzMagnitude_eight {c : Char} {cs : List Char} (hc : c.isDigit = true)
    (hcs : ∀ d ∈ cs, isSpace d = false) :
    mpzMagnitude ('0' :: c :: cs) = (c :: cs).foldlM octalStep 0 := by
  have hall : ∀ d ∈ c :: cs, isSpace d = false :=
    List.forall_mem_cons.mpr ⟨isDigit_not_isSpace hc, hcs⟩
  unfold mpzMagnitude
  split
  case h_5 heq =>
    cases heq
    rw [filter_not_isSpace hall]
    rfl
  case h_6 hne heq =>
    cases heq
    exact absurd rfl hne
  all_goals simp_all

/-- Tokens that the two formats may read in different ways. -/
def Ambiguous : List Char → Prop
  | '-' :: _ => True
  | '0' :: c :: cs => ¬ ((c :: cs).all Char.isDigit = true ∧ Nat.ofDigitChars 10 (c :: cs) 0 < 8)
  | _ => False

theorem ofDigitChars_zero_cons (cs : List Char) :
    Nat.ofDigitChars 10 ('0' :: cs) 0 = Nat.ofDigitChars 10 cs 0 := ofDigitChars_cons_digit rfl cs 0

theorem gmpReads_plain {c : Char} {cs : List Char} (hc : isSpace c = false) (hminus : c ≠ '-') (v : Mpz) :
    GmpReads (c :: cs) v ↔ ∃ n : ℕ, mpzMagnitude (c :: cs) = some n ∧ v = n := by
  rw [GmpReads, mpzSigned_plain hc hminus]
  simp only [Option.map_eq_some_iff]
  constructor
  · rintro ⟨⟨n, hn, rfl⟩, -⟩
    exact ⟨n, hn, rfl⟩
  · rintro ⟨n, hn, rfl⟩
    exact ⟨⟨n, hn, rfl⟩, Int.natCast_nonneg n⟩

theorem gmpReads_iff {token : List Char} (hspace : ∀ c ∈ token, isSpace c = false)
    (h : ¬ Ambiguous token) (v : Mpz) : GmpReads token v ↔ DecimalReads token v := by
  cases token with
  | nil => simp [GmpReads, DecimalReads, mpzSigned, mpzMagnitude]
  | cons c cs =>
    obtain ⟨hc, hcs⟩ := List.forall_mem_cons.mp hspace
    have hminus : c ≠ '-' := by
      rintro rfl
      exact h trivial
    rw [gmpReads_plain hc hminus, DecimalReads]
    by_cases h0 : c = '0'
    · subst h0
      cases cs with
      | nil =>
        have hmag : mpzMagnitude ['0'] = some 0 := rfl
        simp [hmag, ofDigitChars_zero_cons]
      | cons d ds =>
        obtain ⟨hdigits, hsmall⟩ := not_not.mp h
        have hmag := mpzMagnitude_eight (List.forall_mem_cons.mp (List.all_eq_true.mp hdigits)).1
          (List.forall_mem_cons.mp hcs).2
        rw [hmag, octal_small (List.all_eq_true.mp hdigits) hsmall, ofDigitChars_zero_cons]
        have hall : ('0' :: d :: ds).all Char.isDigit = true := hdigits
        simp [hall, eq_comm]
    · rw [mpzMagnitude_ten h0 hcs]
      simp only [digitsInBase_ten_iff]
      constructor
      · rintro ⟨n, ⟨hdigits, rfl⟩, rfl⟩
        exact ⟨List.cons_ne_nil _ _, hdigits, rfl⟩
      · rintro ⟨-, hdigits, hv⟩
        exact ⟨_, ⟨hdigits, rfl⟩, hv⟩

theorem not_ambiguous {token : List Char} {v : Mpz} (hspace : ∀ c ∈ token, isSpace c = false)
    (hgmp : GmpReads token v) (hdec : DecimalReads token v) : ¬ Ambiguous token := by
  obtain ⟨hne, hdigits, rfl⟩ := hdec
  obtain ⟨c, cs, rfl⟩ := List.exists_cons_of_ne_nil hne
  rw [List.all_cons, Bool.and_eq_true] at hdigits
  obtain ⟨hc, hcs⟩ := hdigits
  have hminus := isDigit_ne_minus hc
  by_cases h0 : c = '0'
  · subst h0
    cases cs with
    | nil => exact not_false
    | cons d ds =>
      obtain ⟨n, hmag, hn⟩ := (gmpReads_plain (by decide) hminus _).mp hgmp
      have hd := (List.all_eq_true.mp hcs) d List.mem_cons_self
      rw [mpzMagnitude_eight hd (List.forall_mem_cons.mp (List.forall_mem_cons.mp hspace).2).2] at hmag
      rw [ofDigitChars_zero_cons, Int.ofNat_inj] at hn
      rw [← hn] at hmag
      exact not_not.mpr ⟨hcs, octal_eq_small (List.all_eq_true.mp hcs) (by decide) hmag⟩
  · unfold Ambiguous
    split <;> simp_all

def DigitsFit (maxDigits : ℕ) (token : List Char) : Prop := maxDigits = 0 ∨ token.length ≤ maxDigits

theorem pyInt_ok {maxDigits n : ℕ} {token : List Char} :
    pyInt maxDigits token = .ok n ↔ DigitsFit maxDigits token ∧ n = Nat.ofDigitChars 10 token 0 := by
  rw [pyInt, DigitsFit]
  split
  · next hlong =>
    simp only [throw_eq_error, reduceCtorEq, false_iff]
    omega
  · next hfit =>
    simp only [pure_eq_ok, Except.ok.injEq]
    constructor
    · rintro rfl
      exact ⟨by omega, rfl⟩
    · rintro ⟨-, rfl⟩
      rfl

theorem numericSetLoop_cons {maxDigits : ℕ} {label : String} {token : List Char}
    {tokens : List (List Char)} {seen s : Finset ℕ} :
    numericSetLoop maxDigits label (token :: tokens) seen = .ok s ↔
      ∃ n : ℕ, DecimalReads token n ∧ DigitsFit maxDigits token ∧ n ∉ seen ∧
        numericSetLoop maxDigits label tokens (insert n seen) = .ok s := by
  rw [numericSetLoop]
  by_cases hmatch : token = [] ∨ ¬ token.all Char.isDigit = true
  · simp only [if_pos hmatch, throw_eq_error, reduceCtorEq, false_iff, DecimalReads]
    rintro ⟨n, ⟨hne, hdigits, -⟩, -⟩
    rcases hmatch with hnil | hnot
    · exact hne hnil
    · exact hnot hdigits
  · obtain ⟨hne, hdigits⟩ := not_or.mp hmatch
    rw [if_neg hmatch, bind_eq_ok]
    simp only [pyInt_ok]
    constructor
    · rintro ⟨n, ⟨hfit, rfl⟩, h⟩
      split at h
      · cases h
      · next hnot => exact ⟨_, ⟨hne, not_not.mp hdigits, rfl⟩, hfit, hnot, h⟩
    · rintro ⟨n, ⟨-, -, hn⟩, hfit, hnot, h⟩
      refine ⟨n, ⟨hfit, Int.ofNat_inj.mp hn⟩, ?_⟩
      rw [if_neg hnot]
      exact h

theorem numericSetLoop_ok {maxDigits : ℕ} {label : String} {tokens : List (List Char)} {seen s : Finset ℕ} :
    numericSetLoop maxDigits label tokens seen = .ok s ↔ ∃ values : List ℕ,
      List.Forall₂ (fun token n => DecimalReads token (n : ℕ)) tokens values ∧
        (∀ token ∈ tokens, DigitsFit maxDigits token) ∧ values.Nodup ∧ (∀ n ∈ values, n ∉ seen) ∧
        s = seen ∪ values.toFinset := by
  induction tokens generalizing seen with
  | nil =>
    simp only [numericSetLoop, pure_eq_ok, Except.ok.injEq, List.forall₂_nil_left_iff]
    constructor
    · rintro rfl
      exact ⟨[], by simp⟩
    · rintro ⟨values, rfl, -, -, -, rfl⟩
      simp
  | cons token tokens ih =>
    rw [numericSetLoop_cons]
    constructor
    · rintro ⟨n, hn, hfit, hnot, h⟩
      obtain ⟨values, hread, hfits, hnodup, hnew, rfl⟩ := ih.mp h
      have hmem : n ∉ values := fun hmem => hnew n hmem (Finset.mem_insert_self _ _)
      refine ⟨n :: values, .cons hn hread, List.forall_mem_cons.mpr ⟨hfit, hfits⟩,
        List.nodup_cons.mpr ⟨hmem, hnodup⟩, List.forall_mem_cons.mpr ⟨hnot, fun m hm hseen => ?_⟩, ?_⟩
      · exact hnew m hm (Finset.mem_insert_of_mem hseen)
      · rw [List.toFinset_cons, Finset.insert_union, Finset.union_insert]
    · rintro ⟨_ | ⟨n, values⟩, hread, hfits, hnodup, hnew, rfl⟩
      · cases hread
      · obtain ⟨hn, hread⟩ := List.forall₂_cons.mp hread
        obtain ⟨hfit, hfits⟩ := List.forall_mem_cons.mp hfits
        obtain ⟨hmem, hnodup⟩ := List.nodup_cons.mp hnodup
        obtain ⟨hnot, hnew⟩ := List.forall_mem_cons.mp hnew
        refine ⟨n, hn, hfit, hnot, ih.mpr ⟨values, hread, hfits, hnodup, fun m hm hseen => ?_, ?_⟩⟩
        · rcases Finset.mem_insert.mp hseen with rfl | hseen
          · exact hmem hm
          · exact hnew m hm hseen
        · rw [List.toFinset_cons, Finset.insert_union, Finset.union_insert]

theorem words_universalNewlines (x text : List Char) :
    words pySpace (x ++ universalNewlines text) = words pySpace (x ++ text) := by
  have hcr : pySpace '\r' = true := rfl
  have hlf : pySpace '\n' = true := rfl
  induction text using universalNewlines.induct generalizing x with
  | case1 cs ih =>
    rw [universalNewlines, words_append_sep hlf, words_append_sep hcr, words_cons_sep hlf]
    have h := ih []
    rw [List.nil_append, List.nil_append] at h
    rw [h]
  | case2 cs hne ih =>
    rw [universalNewlines, words_append_sep hlf, words_append_sep hcr]
    · have h := ih []
      rw [List.nil_append, List.nil_append] at h
      rw [h]
    · exact hne
  | case3 c cs hne hne' ih =>
    rw [universalNewlines]
    · have h := ih (x ++ [c])
      rwa [List.append_assoc, List.append_assoc] at h
    · exact hne
    · exact hne'
  | case4 => rfl

theorem isSpace_iff {c : Char} :
    isSpace c = true ↔ c.toNat = 32 ∨ 9 ≤ c.toNat ∧ c.toNat ≤ 13 := by
  simp only [isSpace, ← Char.toNat_inj, Bool.or_eq_true, decide_eq_true_eq]
  change ((((c.toNat = 32 ∨ c.toNat = 9) ∨ c.toNat = 10) ∨ c.toNat = 11) ∨ c.toNat = 12) ∨ c.toNat = 13 ↔ _
  omega

theorem pySpace_eq {c : Char} (h : setTextChar c = true) : pySpace c = isSpace c := by
  rw [Bool.eq_iff_iff, isSpace_iff]
  simp only [setTextChar, pySpace, ← Char.toNat_inj, Bool.or_eq_true, Bool.and_eq_true, decide_eq_true_eq] at h ⊢
  change (((32 ≤ c.toNat ∧ c.toNat ≤ 126) ∨ c.toNat = 9) ∨ c.toNat = 13) ∨ c.toNat = 10 at h
  omega

theorem words_pySpace {text : List Char} (hchars : ∀ c ∈ text, setTextChar c = true) :
    words pySpace (universalNewlines text) = words isSpace text := by
  have h := words_universalNewlines [] text
  rw [List.nil_append, List.nil_append] at h
  rw [h]
  exact words_congr fun c hc => pySpace_eq (hchars c hc)

theorem readSet_ok {maxDigits : ℕ} {path : String} {text : List Char} {s : Finset ℕ}
    (hchars : ∀ c ∈ text, setTextChar c = true) :
    readSet maxDigits path text = .ok s ↔ ∃ values : List ℕ,
      List.Forall₂ (fun token n => DecimalReads token (n : ℕ)) (words isSpace text) values ∧
        (∀ token ∈ words isSpace text, DigitsFit maxDigits token) ∧ values.Nodup ∧ s = values.toFinset := by
  rw [readSet, numericSet, words_pySpace hchars, numericSetLoop_ok]
  simp

theorem decimalReads_natural {tokens : List (List Char)} {values : List Mpz}
    (h : List.Forall₂ DecimalReads tokens values) : ∃ ns : List ℕ, values = ns.map (fun n : ℕ => (n : Mpz)) ∧
      List.Forall₂ (fun token n => DecimalReads token (n : ℕ)) tokens ns := by
  induction h with
  | nil => exact ⟨[], rfl, .nil⟩
  | cons hread _ ih =>
    obtain ⟨ns, rfl, hreads⟩ := ih
    obtain ⟨hne, hdigits, rfl⟩ := hread
    exact ⟨_ :: ns, rfl, .cons ⟨hne, hdigits, rfl⟩ hreads⟩

theorem decimalReads_unique {tokens : List (List Char)} {values values' : List ℕ}
    (h : List.Forall₂ (fun token n => DecimalReads token (n : ℕ)) tokens values)
    (h' : List.Forall₂ (fun token n => DecimalReads token (n : ℕ)) tokens values') : values = values' := by
  induction h generalizing values' with
  | nil =>
    cases h'
    rfl
  | cons hread _ ih =>
    cases h' with
    | cons hread' hreads' =>
      rw [ih hreads', Int.ofNat_inj.mp (hread.2.2.trans hread'.2.2.symm)]

theorem toFinset_map_cast (ns : List ℕ) :
    (ns.map fun n : ℕ => (n : Mpz)).toFinset = ns.toFinset.image fun n : ℕ => (n : Mpz) := by
  ext v
  simp

/-- The checker accepts the documented sets that its digit limit lets through. -/
theorem readSet_setFile {maxDigits limit : ℕ} {path : String} {q : Mpz} {text : List Char}
    (hchars : ∀ c ∈ text, setTextChar c = true) {s : Finset ℕ} :
    (readSet maxDigits path text = .ok s ∧ s.Nonempty ∧ (∀ n ∈ s, (n : Mpz) < q) ∧ s.card ≤ limit) ↔
      (∀ token ∈ words isSpace text, DigitsFit maxDigits token) ∧
        ∃ values, SetFile DecimalReads limit q (words isSpace text) values ∧
          values.toFinset = s.image fun n : ℕ => (n : Mpz) := by
  have hinj : Function.Injective fun n : ℕ => (n : Mpz) := Nat.cast_injective
  rw [readSet_ok hchars]
  constructor
  · rintro ⟨⟨ns, hread, hfits, hnodup, rfl⟩, hne, hbelow, hcount⟩
    rw [List.toFinset_card_of_nodup hnodup, ← hread.length_eq] at hcount
    refine ⟨hfits, ns.map fun n : ℕ => (n : Mpz), ⟨List.forall₂_map_right_iff.mpr hread, ?_, hcount, ?_,
      hnodup.map hinj⟩, toFinset_map_cast ns⟩
    · intro hnil
      rw [hnil, List.forall₂_nil_left_iff] at hread
      exact absurd hne (by simp [hread])
    · intro v hv
      obtain ⟨n, hn, rfl⟩ := List.mem_map.mp hv
      exact hbelow n (List.mem_toFinset.mpr hn)
  · rintro ⟨hfits, values, ⟨hread, hne, hcount, hbelow, hdistinct⟩, hset⟩
    obtain ⟨ns, rfl, hreads⟩ := decimalReads_natural hread
    rw [toFinset_map_cast, Finset.image_inj hinj] at hset
    have hnodup := hdistinct.of_map
    subst hset
    refine ⟨⟨ns, hreads, hfits, hnodup, rfl⟩, ?_, fun n hn => ?_, ?_⟩
    · rw [List.toFinset_nonempty_iff]
      rintro rfl
      exact hne (List.forall₂_nil_right_iff.mp hreads)
    · exact hbelow n (List.mem_map_of_mem (List.mem_toFinset.mp hn))
    · rwa [List.toFinset_card_of_nodup hnodup, ← hreads.length_eq]

theorem SetFile.imp {Reads Reads' : List Char → Mpz → Prop} {limit : ℕ} {q : Mpz}
    {tokens : List (List Char)} {values : List Mpz} (h : SetFile Reads limit q tokens values)
    (himp : ∀ token ∈ tokens, ∀ v, Reads token v → Reads' token v) :
    SetFile Reads' limit q tokens values := by
  refine ⟨?_, h.nonempty, h.count, h.below, h.distinct⟩
  have hboth := (List.forall₂_and_left _ _).mpr ⟨himp, h.read⟩
  exact hboth.imp fun token v hread => hread.1 v hread.2

theorem SetFile.same {limit maxDigits : ℕ} {q : Mpz} {path : String} {text : List Char}
    {values : List Mpz} {s : Finset ℕ} (hchars : ∀ c ∈ text, setTextChar c = true)
    (h : SetFile DecimalReads limit q (words isSpace text) values)
    (hs : readSet maxDigits path text = .ok s) : values.toFinset = s.image fun n : ℕ => (n : Mpz) := by
  obtain ⟨ns, rfl, hreads⟩ := decimalReads_natural h.read
  obtain ⟨ns', hreads', -, -, rfl⟩ := (readSet_ok hchars).mp hs
  rw [decimalReads_unique hreads hreads', toFinset_map_cast]

/-- What the reader of the endpoints owes to the documented format and to the checker. -/
structure MeetsSetFormat (env : Env) (path role : String) (maxDigits limit : ℕ) (q : Mpz)
    (text : List Char) : Prop where
  format : ∀ values, readMpzListFile env path (some text) q role = .ok values ↔
    SetFile DecimalReads limit q (words isSpace text) values
  checker : (∃ values, readMpzListFile env path (some text) q role = .ok values) ↔
    ∃ s, readSet maxDigits path text = .ok s ∧ s.Nonempty ∧ (∀ n ∈ s, (n : Mpz) < q) ∧ s.card ≤ limit
  same : ∀ values s, readMpzListFile env path (some text) q role = .ok values →
    readSet maxDigits path text = .ok s → values.toFinset = s.image fun n : ℕ => (n : Mpz)

/-- The reader meets the format exactly on the files where, if one of the two formats
accepts the file, no token can be read in two ways or is too long for the checker. -/
theorem readMpzListFile_meets_format {env : Env} {limit : ℕ} (hlimit : cgMaxItems env = .ok limit)
    (path role : String) (maxDigits : ℕ) (q : Mpz) {text : List Char}
    (hchars : ∀ c ∈ text, setTextChar c = true) :
    MeetsSetFormat env path role maxDigits limit q text ↔
      ∀ values, SetFile GmpReads limit q (words isSpace text) values ∨
          SetFile DecimalReads limit q (words isSpace text) values →
        ∀ token ∈ words isSpace text, ¬ Ambiguous token ∧ DigitsFit maxDigits token := by
  have hspace : ∀ token ∈ words isSpace text, ∀ c ∈ token, isSpace c = false :=
    fun token htoken => (mem_words htoken).2
  constructor
  · intro hmeets values hacc token htoken
    have hok : readMpzListFile env path (some text) q role = .ok values := by
      rcases hacc with hgmp | hdec
      · exact (readMpzListFile_ok hlimit).mpr hgmp
      · exact (hmeets.format values).mpr hdec
    have hgmp := (readMpzListFile_ok hlimit).mp hok
    have hdec := (hmeets.format values).mp hok
    obtain ⟨v, -, hread, hread'⟩ := exists_right_of_forall₂
      (List.Forall₂.mp (fun _ _ h h' => And.intro h h') hgmp.read hdec.read) token htoken
    obtain ⟨s, hs⟩ := hmeets.checker.mp ⟨values, hok⟩
    exact ⟨not_ambiguous (hspace token htoken) hread hread',
      ((readSet_setFile hchars).mp hs).1 token htoken⟩
  · intro hcond
    have hformat : ∀ values, readMpzListFile env path (some text) q role = .ok values ↔
        SetFile DecimalReads limit q (words isSpace text) values := by
      intro values
      rw [readMpzListFile_ok hlimit]
      constructor
      · intro h
        have hplain := hcond values (.inl h)
        exact h.imp fun token htoken v => (gmpReads_iff (hspace token htoken) (hplain token htoken).1 v).mp
      · intro h
        have hplain := hcond values (.inr h)
        exact h.imp fun token htoken v => (gmpReads_iff (hspace token htoken) (hplain token htoken).1 v).mpr
    refine ⟨hformat, ⟨?_, ?_⟩, fun values s h hs => ((hformat values).mp h).same hchars hs⟩
    · rintro ⟨values, h⟩
      have hdec := (hformat values).mp h
      obtain ⟨ns, rfl, -⟩ := decimalReads_natural hdec.read
      exact ⟨ns.toFinset, (readSet_setFile hchars).mpr
        ⟨fun token htoken => (hcond _ (.inr hdec) token htoken).2, _, hdec, toFinset_map_cast ns⟩⟩
    · rintro ⟨s, hs⟩
      obtain ⟨-, values, hdec, -⟩ := (readSet_setFile hchars).mp hs
      exact ⟨values, (hformat values).mpr hdec⟩

theorem readMpzListFile_meets_format_plain :
    MeetsSetFormat (fun _ => none) "set_B.txt" "psi_receiver" 4300 (2 ^ 20) 11 ['1', '0', ' ', '9', '\n'] := by
  have hwords : words isSpace ['1', '0', ' ', '9', '\n'] = [['1', '0'], ['9']] := rfl
  refine (readMpzListFile_meets_format rfl "set_B.txt" "psi_receiver" 4300 11 (by simp [setTextChar])).mpr ?_
  intro values _ token htoken
  rw [hwords, List.mem_pair] at htoken
  rcases htoken with rfl | rfl
  · exact ⟨not_false, .inr (by decide)⟩
  · exact ⟨not_false, .inr (by decide)⟩

/-- The token `010`. -/
theorem readMpzListFile_octal :
    readMpzListFile (fun _ => none) "set_B.txt" (some ['0', '1', '0', '\n']) 11 "psi_receiver" = .ok [8] ∧
      SetFile DecimalReads (2 ^ 20) 11 (words isSpace ['0', '1', '0', '\n']) [10] ∧
      readSet 4300 "set_B.txt" ['0', '1', '0', '\n'] = .ok {10} := by
  have hwords : words isSpace ['0', '1', '0', '\n'] = [['0', '1', '0']] := rfl
  have hlimit : cgMaxItems (fun _ => none) = .ok (2 ^ 20) := rfl
  refine ⟨(readMpzListFile_ok hlimit).mpr ?_, ?_, rfl⟩
  · rw [hwords]
    exact ⟨.cons ⟨rfl, by decide⟩ .nil, by simp, by simp, by simp, by simp⟩
  · rw [hwords]
    exact ⟨.cons ⟨by simp, rfl, rfl⟩ .nil, by simp, by simp, by simp, by simp⟩

end RfClassGroups
