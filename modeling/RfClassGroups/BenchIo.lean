import Mathlib.Data.List.TakeWhile
import RfClassGroups.Mpz

/-! The dumps of the endpoints as texts: how integers are printed, and how an
input stream takes them up again. -/

open ExceptList

namespace RfClassGroups

def mpzText : Mpz → List Char
  | .ofNat n => Nat.toDigits 10 n
  | .negSucc n => '-' :: Nat.toDigits 10 (n + 1)

def digitValue (c : Char) : ℕ :=
  if c.isDigit then c.toNat - 48
  else if 'a' ≤ c ∧ c ≤ 'z' then c.toNat - 87
  else if 'A' ≤ c ∧ c ≤ 'Z' then c.toNat - 55
  else 255

def digitsInBase (base : ℕ) (cs : List Char) : Option ℕ :=
  cs.foldlM (fun acc c => if digitValue c < base then some (base * acc + digitValue c) else none) 0

def isSpace (c : Char) : Bool :=
  c = ' ' || c = '\t' || c = '\n' || c = Char.ofNat 11 || c = Char.ofNat 12 || c = '\r'

/-- The base comes from the prefix; the first character after the sign is a
decimal digit, and white space among the later ones is ignored. -/
def mpzMagnitude : List Char → Option ℕ
  | '0' :: 'x' :: cs | '0' :: 'X' :: cs => digitsInBase 16 (cs.filter (!isSpace ·))
  | '0' :: 'b' :: cs | '0' :: 'B' :: cs => digitsInBase 2 (cs.filter (!isSpace ·))
  | '0' :: cs => digitsInBase 8 (cs.filter (!isSpace ·))
  | c :: cs => digitsInBase 10 (c :: cs.filter (!isSpace ·))
  | [] => none

def mpzSigned (s : List Char) : Option Mpz :=
  match s.dropWhile isSpace with
  | '-' :: cs => (mpzMagnitude cs).map fun n : ℕ => -(n : ℤ)
  | cs => (mpzMagnitude cs).map fun n : ℕ => (n : ℤ)

def mpzOfText (s : List Char) : Except String Mpz :=
  match mpzSigned s with
  | some v => return v
  | none => throw ("could not parse '" ++ String.ofList s ++ "' as a valid number")

structure IStream where
  rest : List Char
  fail : Bool := false

def IStream.readWord (s : IStream) : List Char × IStream :=
  if s.fail then ([], s)
  else
    let r := s.rest.dropWhile isSpace
    (r.takeWhile (!isSpace ·), ⟨r.dropWhile (!isSpace ·), (r.takeWhile (!isSpace ·)).isEmpty⟩)

/-- `in >> n` for a `size_t` that is zero before: an optional sign and the digits up
to the first other character. -/
def IStream.readSize (s : IStream) : ℕ × IStream :=
  if s.fail then (0, s)
  else
    let r := s.rest.dropWhile isSpace
    let (neg, r) := match r with
      | '-' :: cs => (true, cs)
      | '+' :: cs => (false, cs)
      | cs => (false, cs)
    let digits := r.takeWhile Char.isDigit
    let v := Nat.ofDigitChars 10 digits 0
    if digits = [] then (0, ⟨r, true⟩)
    else if 2 ^ 64 ≤ v then (2 ^ 64 - 1, ⟨r.dropWhile Char.isDigit, true⟩)
    else (if neg then (2 ^ 64 - v) % 2 ^ 64 else v, ⟨r.dropWhile Char.isDigit, false⟩)

def readMpzText (s : IStream) : Except String (Mpz × IStream) :=
  let (w, s) := s.readWord
  if s.fail then throw "failed to read Mpz text"
  else do
    let v ← mpzOfText w
    return (v, s)

def pairLines (xs ys : List Mpz) : List Char :=
  (xs.zip ys).flatMap fun xy => mpzText xy.1 ++ ' ' :: mpzText xy.2 ++ ['\n']

def header (magic : String) (n : ℕ) : List Char :=
  magic.toList ++ '\n' :: Nat.toDigits 10 n ++ ['\n']

def writeOleSenderInputs (aVals bVals : List Mpz) : Except String (List Char) :=
  if aVals.length ≠ bVals.length then throw "OLE sender dump size mismatch"
  else return header "OLE_SENDER_V1" aVals.length ++ pairLines aVals bVals

def writeOleReceiverIo (q : Mpz) (xVals yVals : List Mpz) : Except String (List Char) :=
  if xVals.length ≠ yVals.length then throw "OLE receiver dump size mismatch"
  else return header "OLE_RECEIVER_V1" xVals.length ++ mpzText q ++ '\n' :: pairLines xVals yVals

def writeOleBlinds (aBlinds bBlinds : List Mpz) : Except String (List Char) :=
  if aBlinds.length ≠ bBlinds.length then throw "OLE blind dump size mismatch"
  else return header "OLE_BLINDS_V1" aBlinds.length ++ pairLines aBlinds bBlinds

def mpzLines (vs : List Mpz) : List Char := vs.flatMap fun v => mpzText v ++ ['\n']

def writeOpeSenderCoeffs (q : Mpz) (coeffs : List Mpz) : List Char :=
  header "OPE_SENDER_V1" coeffs.length ++ mpzText q ++ '\n' :: mpzLines coeffs

def magicLine (magic : String) : List Char := magic.toList ++ ['\n']

def writeOpeReceiverOutput (q alpha output : Mpz) : List Char :=
  magicLine "OPE_RECEIVER_V1" ++ mpzLines [q, alpha, output]

def writeOpaSenderCoeffs (q : Mpz) (bCoeffs aCoeffs : List Mpz) : List Char :=
  magicLine "OPA_SENDER_V2" ++ Nat.toDigits 10 bCoeffs.length ++
    ' ' :: Nat.toDigits 10 aCoeffs.length ++ '\n' :: mpzText q ++ '\n' :: mpzLines bCoeffs ++
    '-' :: '-' :: '\n' :: mpzLines aCoeffs

def writeOpaReceiverDump (q : Mpz) (pBCoeffs alpha yVals : List Mpz) : Except String (List Char) :=
  if alpha.length ≠ yVals.length then throw "OPA receiver dump size mismatch"
  else return header "OPA_RECEIVER_V1" pBCoeffs.length ++ Nat.toDigits 10 alpha.length ++
    '\n' :: mpzText q ++ '\n' :: mpzLines pBCoeffs ++ '-' :: '-' :: '\n' :: pairLines alpha yVals

def readMpzs : ℕ → IStream → Except String (List Mpz × IStream)
  | 0, s => return ([], s)
  | n + 1, s => do
    let (v, s) ← readMpzText s
    let (vs, s) ← readMpzs n s
    return (v :: vs, s)

theorem digitValue_of_isDigit {c : Char} (h : c.isDigit = true) :
    digitValue c = c.toNat - 48 ∧ digitValue c < 10 := by
  have hv : digitValue c = c.toNat - 48 := if_pos h
  have hle : c.toNat ≤ 57 := by
    rw [Char.isDigit, Bool.and_eq_true, decide_eq_true_iff, decide_eq_true_iff] at h
    exact h.2
  exact ⟨hv, by omega⟩

theorem digitsInBase_ten {cs : List Char} (h : ∀ c ∈ cs, c.isDigit = true) (acc : ℕ) :
    cs.foldlM (fun acc c => if digitValue c < 10 then some (10 * acc + digitValue c) else none) acc =
      some (Nat.ofDigitChars 10 cs acc) := by
  induction cs generalizing acc with
  | nil => simp
  | cons c cs ih =>
    obtain ⟨hv, hlt⟩ := digitValue_of_isDigit (h c List.mem_cons_self)
    rw [List.foldlM_cons, if_pos hlt, hv, Nat.ofDigitChars_cons]
    exact ih (fun x hx => h x (List.mem_cons_of_mem _ hx)) _

theorem isDigit_of_mem_toDigits {n : ℕ} {c : Char} (h : c ∈ Nat.toDigits 10 n) :
    c.isDigit = true := Nat.isDigit_of_mem_toDigits (by decide) (by decide) h

theorem toDigits_head {n : ℕ} (hn : 0 < n) : ∃ c cs, Nat.toDigits 10 n = c :: cs ∧ c ≠ '0' := by
  induction n using Nat.strong_induction_on with
  | _ n ih =>
    rw [Nat.toDigits_eq_if (by decide)]
    split
    · next hlt =>
      refine ⟨n.digitChar, [], rfl, fun h => ?_⟩
      have hval := Nat.toNat_digitChar_of_lt_ten hlt
      rw [h] at hval
      change 48 = _ at hval
      omega
    · next hge =>
      obtain ⟨c, cs, hc, h0⟩ := ih (n / 10) (by omega) (by omega)
      exact ⟨c, cs ++ [Nat.digitChar (n % 10)], by rw [hc, List.cons_append], h0⟩

theorem toDigits_ne_nil (n : ℕ) : Nat.toDigits 10 n ≠ [] := by
  rcases Nat.eq_zero_or_pos n with rfl | hn
  · decide
  · obtain ⟨c, cs, h, _⟩ := toDigits_head hn
    simp [h]

theorem toDigits_append_ne {n : ℕ} {c : Char} {rest cs : List Char} (hc : c.isDigit = false) :
    Nat.toDigits 10 n ++ rest ≠ c :: cs := fun h => by
  obtain ⟨d, ds, hds⟩ := List.exists_cons_of_ne_nil (toDigits_ne_nil n)
  have hd := isDigit_of_mem_toDigits (n := n) (c := d) (hds ▸ List.mem_cons_self)
  rw [hds, List.cons_append, List.cons.injEq] at h
  rw [h.1, hc] at hd
  exact Bool.false_ne_true hd

theorem isDigit_not_isSpace {c : Char} (h : c.isDigit = true) : isSpace c = false := by
  rw [Char.isDigit, Bool.and_eq_true, decide_eq_true_iff, decide_eq_true_iff] at h
  simp only [isSpace, Bool.or_eq_false_iff, decide_eq_false_iff_not]
  refine ⟨⟨⟨⟨⟨?_, ?_⟩, ?_⟩, ?_⟩, ?_⟩, ?_⟩ <;> rintro rfl <;> exact absurd h (by decide)

theorem toDigits_not_isSpace {n : ℕ} {c : Char} (h : c ∈ Nat.toDigits 10 n) : isSpace c = false :=
  isDigit_not_isSpace (isDigit_of_mem_toDigits h)

theorem mpzText_not_isSpace {v : Mpz} {c : Char} (h : c ∈ mpzText v) : isSpace c = false := by
  cases v with
  | ofNat n => exact toDigits_not_isSpace h
  | negSucc n =>
    rcases List.mem_cons.mp h with rfl | h
    · rfl
    · exact toDigits_not_isSpace h

theorem filter_not_isSpace {cs : List Char} (h : ∀ c ∈ cs, isSpace c = false) :
    cs.filter (!isSpace ·) = cs := by
  refine List.filter_eq_self.mpr fun c hc => ?_
  rw [h c hc]
  rfl

theorem mpzMagnitude_ten {c : Char} {cs : List Char} (h0 : c ≠ '0')
    (hcs : ∀ d ∈ cs, isSpace d = false) :
    mpzMagnitude (c :: cs) = digitsInBase 10 (c :: cs) := by
  unfold mpzMagnitude
  split
  case h_6 heq =>
    cases heq
    rw [filter_not_isSpace hcs]
  all_goals simp_all

theorem mpzMagnitude_toDigits (n : ℕ) : mpzMagnitude (Nat.toDigits 10 n) = some n := by
  rcases Nat.eq_zero_or_pos n with rfl | hn
  · rfl
  obtain ⟨c, cs, hcs, h0⟩ := toDigits_head hn
  have hdigits := digitsInBase_ten (fun c hc => isDigit_of_mem_toDigits (n := n) hc) 0
  have hspace : ∀ d ∈ cs, isSpace d = false := fun d hd =>
    toDigits_not_isSpace (n := n) (hcs ▸ List.mem_cons_of_mem _ hd)
  rw [Nat.ofDigitChars_ten_toDigits] at hdigits
  rw [hcs] at hdigits ⊢
  rw [mpzMagnitude_ten h0 hspace]
  exact hdigits

theorem mpzSigned_minus (cs : List Char) :
    mpzSigned ('-' :: cs) = (mpzMagnitude cs).map fun n : ℕ => -(n : ℤ) := rfl

theorem mpzSigned_plain {c : Char} (hspace : isSpace c = false) (hminus : c ≠ '-') (cs : List Char) :
    mpzSigned (c :: cs) = (mpzMagnitude (c :: cs)).map fun n : ℕ => (n : ℤ) := by
  have hdrop : (c :: cs).dropWhile isSpace = c :: cs := List.dropWhile_cons_of_neg (by simp [hspace])
  rw [mpzSigned, hdrop]
  split
  · next heq =>
    rw [List.cons.injEq] at heq
    exact absurd heq.1 hminus
  · rfl

theorem isDigit_ne_minus {c : Char} (h : c.isDigit = true) : c ≠ '-' := by
  rintro rfl
  exact absurd h (by decide)

theorem mpzSigned_mpzText (v : Mpz) : mpzSigned (mpzText v) = some v := by
  cases v with
  | ofNat n =>
    obtain ⟨c, cs, hcs⟩ := List.exists_cons_of_ne_nil (toDigits_ne_nil n)
    have hc := isDigit_of_mem_toDigits (n := n) (c := c) (hcs ▸ List.mem_cons_self)
    rw [mpzText, hcs, mpzSigned_plain (isDigit_not_isSpace hc) (isDigit_ne_minus hc), ← hcs,
      mpzMagnitude_toDigits]
    rfl
  | negSucc n =>
    rw [mpzText, mpzSigned_minus, mpzMagnitude_toDigits]
    rfl

theorem mpzOfText_mpzText (v : Mpz) : mpzOfText (mpzText v) = .ok v := by
  rw [mpzOfText, mpzSigned_mpzText]
  rfl

theorem writeOleSenderInputs_eq {aVals bVals : List Mpz} (h : aVals.length = bVals.length) :
    writeOleSenderInputs aVals bVals =
      .ok (header "OLE_SENDER_V1" aVals.length ++ pairLines aVals bVals) := if_neg (not_not.mpr h)

theorem writeOleReceiverIo_eq {xVals yVals : List Mpz} (q : Mpz) (h : xVals.length = yVals.length) :
    writeOleReceiverIo q xVals yVals = .ok (header "OLE_RECEIVER_V1" xVals.length ++ mpzText q ++
      '\n' :: pairLines xVals yVals) := if_neg (not_not.mpr h)

theorem writeOleBlinds_eq {aBlinds bBlinds : List Mpz} (h : aBlinds.length = bBlinds.length) :
    writeOleBlinds aBlinds bBlinds =
      .ok (header "OLE_BLINDS_V1" aBlinds.length ++ pairLines aBlinds bBlinds) :=
  if_neg (not_not.mpr h)

theorem mpzText_ne_nil (v : Mpz) : mpzText v ≠ [] := by
  cases v with
  | ofNat n => exact toDigits_ne_nil n
  | negSucc n => exact List.cons_ne_nil _ _

def TokenEnds (rest : List Char) : Prop := ∀ c ∈ rest.head?, isSpace c = true

theorem newline_ends (rest : List Char) : TokenEnds ('\n' :: rest) := by simp [TokenEnds, isSpace]

theorem blank_ends (rest : List Char) : TokenEnds (' ' :: rest) := by simp [TokenEnds, isSpace]

theorem takeWhile_token {p : Char → Bool} {w : List Char} (rest : List Char) (hw : ∀ c ∈ w, p c = true)
    (hrest : ∀ c ∈ rest.head?, p c = false) :
    (w ++ rest).takeWhile p = w ∧ (w ++ rest).dropWhile p = rest := by
  rw [List.takeWhile_append_of_pos hw, List.dropWhile_append_of_pos hw]
  cases rest with
  | nil => simp
  | cons c rest =>
    have hc : p c = false := hrest c rfl
    simp [hc]

theorem dropWhile_spaces {ws w : List Char} (hws : ∀ c ∈ ws, isSpace c = true) (hne : w ≠ [])
    (hw : ∀ c ∈ w, isSpace c = false) (rest : List Char) : (ws ++ w ++ rest).dropWhile isSpace = w ++ rest := by
  rw [List.append_assoc]
  refine (takeWhile_token _ hws fun c hc => ?_).2
  obtain ⟨d, w, rfl⟩ := List.exists_cons_of_ne_nil hne
  rw [List.cons_append, List.head?_cons, Option.mem_some_iff] at hc
  exact hw c (hc ▸ List.mem_cons_self)

theorem readWord_eq (ws : List Char) {w rest : List Char} (hws : ∀ c ∈ ws, isSpace c = true) (hne : w ≠ [])
    (hw : ∀ c ∈ w, isSpace c = false) (hrest : TokenEnds rest) :
    IStream.readWord ⟨ws ++ w ++ rest, false⟩ = (w, ⟨rest, false⟩) := by
  obtain ⟨htake, hdrop⟩ := takeWhile_token (p := (!isSpace ·)) (w := w) rest
    (fun c hc => by simp [hw c hc]) (fun c hc => by simp [hrest c hc])
  simp only [IStream.readWord, dropWhile_spaces hws hne hw rest, htake, hdrop]
  simp [hne]

theorem readMpzText_eq (ws : List Char) {rest : List Char} (hws : ∀ c ∈ ws, isSpace c = true) (v : Mpz)
    (hrest : TokenEnds rest) :
    readMpzText ⟨ws ++ mpzText v ++ rest, false⟩ = .ok (v, ⟨rest, false⟩) := by
  have hword := readWord_eq ws hws (mpzText_ne_nil v) (fun _ hc => mpzText_not_isSpace hc) hrest
  simp only [readMpzText, hword, mpzOfText_mpzText]
  rfl

theorem readSize_eq (ws : List Char) {rest : List Char} (hws : ∀ c ∈ ws, isSpace c = true) {n : ℕ}
    (hn : n < 2 ^ 64) (hrest : TokenEnds rest) :
    IStream.readSize ⟨ws ++ Nat.toDigits 10 n ++ rest, false⟩ = (n, ⟨rest, false⟩) := by
  have hdrop := dropWhile_spaces hws (toDigits_ne_nil n)
    (fun _ hc => toDigits_not_isSpace hc) rest
  obtain ⟨htake, hdrop'⟩ := takeWhile_token (p := Char.isDigit) (w := Nat.toDigits 10 n)
    rest (fun _ hc => isDigit_of_mem_toDigits hc) (fun c hc => by
      by_contra hd
      simpa [hrest c hc] using isDigit_not_isSpace (by simpa using hd : c.isDigit = true))
  have hsign : (match Nat.toDigits 10 n ++ rest with
      | '-' :: cs => (true, cs)
      | '+' :: cs => (false, cs)
      | cs => (false, cs)) = (false, Nat.toDigits 10 n ++ rest) := by
    split
    · next h => exact absurd h (toDigits_append_ne (by decide))
    · next h => exact absurd h (toDigits_append_ne (by decide))
    · rfl
  simp only [IStream.readSize, hdrop, hsign, htake, hdrop', Nat.ofDigitChars_ten_toDigits]
  rw [if_neg (toDigits_ne_nil n), if_neg (Nat.not_le.mpr hn)]
  rfl

theorem not_isSpace_of_any {cs : List Char} (h : cs.any isSpace = false) :
    ∀ c ∈ cs, isSpace c = false := by
  intro c hc
  cases hspace : isSpace c with
  | false => rfl
  | true =>
    have hany := List.any_eq_true.mpr ⟨c, hc, hspace⟩
    rw [h] at hany
    cases hany

theorem header_eq {magic : String} (hne : magic.toList ≠ [])
    (hm : magic.toList.any isSpace = false) {n : ℕ} (hn : n < 2 ^ 64) (body : List Char) :
    ∃ s, IStream.readWord ⟨header magic n ++ body, false⟩ = (magic.toList, s) ∧
      s.readSize = (n, ⟨'\n' :: body, false⟩) := by
  have hword := readWord_eq [] (by simp) hne (not_isSpace_of_any hm)
    (newline_ends (Nat.toDigits 10 n ++ '\n' :: body))
  have hsize := readSize_eq ['\n'] (by simp [isSpace]) hn (newline_ends body)
  have htext : header magic n ++ body =
      [] ++ magic.toList ++ '\n' :: (Nat.toDigits 10 n ++ '\n' :: body) := by simp [header]
  exact ⟨_, htext ▸ hword, hsize⟩

theorem magicLine_eq {magic : String} (hne : magic.toList ≠ [])
    (hm : magic.toList.any isSpace = false) (body : List Char) :
    IStream.readWord ⟨magicLine magic ++ body, false⟩ = (magic.toList, ⟨'\n' :: body, false⟩) := by
  have hword := readWord_eq [] (by simp) hne (not_isSpace_of_any hm) (newline_ends body)
  rwa [List.nil_append, ← List.singleton_append, ← List.append_assoc] at hword

def pairsFrom (xs ys : List Mpz) (i : ℕ) : IStream :=
  ⟨'\n' :: pairLines (xs.drop i) (ys.drop i), false⟩

theorem readPair_eq {xs ys : List Mpz} (hlen : xs.length = ys.length) {i : ℕ} (hi : i < xs.length) :
    ∃ s, readMpzText (pairsFrom xs ys i) = .ok (xs.getD i 0, s) ∧
      readMpzText s = .ok (ys.getD i 0, pairsFrom xs ys (i + 1)) := by
  have hi' : i < ys.length := hlen ▸ hi
  have hlines : pairLines (xs.drop i) (ys.drop i) = mpzText xs[i] ++
      ' ' :: (mpzText ys[i] ++ '\n' :: pairLines (xs.drop (i + 1)) (ys.drop (i + 1))) := by
    rw [List.drop_eq_getElem_cons hi, List.drop_eq_getElem_cons hi', pairLines, List.zip_cons_cons,
      List.flatMap_cons, ← pairLines]
    simp
  have hx := readMpzText_eq ['\n'] (by simp [isSpace]) xs[i] (blank_ends
    (mpzText ys[i] ++ '\n' :: pairLines (xs.drop (i + 1)) (ys.drop (i + 1))))
  have hy := readMpzText_eq [' '] (by simp [isSpace]) ys[i]
    (newline_ends (pairLines (xs.drop (i + 1)) (ys.drop (i + 1))))
  rw [List.getD_eq_getElem _ _ hi, List.getD_eq_getElem _ _ hi', pairsFrom, hlines]
  exact ⟨_, hx, hy⟩

theorem readMpzs_eq (vs : List Mpz) (rest : List Char) :
    readMpzs vs.length ⟨'\n' :: (mpzLines vs ++ rest), false⟩ = .ok (vs, ⟨'\n' :: rest, false⟩) := by
  induction vs with
  | nil => rfl
  | cons v vs ih =>
    have hv := readMpzText_eq ['\n'] (by simp [isSpace]) v (newline_ends (mpzLines vs ++ rest))
    have htext : '\n' :: (mpzLines (v :: vs) ++ rest) =
        ['\n'] ++ mpzText v ++ '\n' :: (mpzLines vs ++ rest) := by
      simp [mpzLines]
    rw [htext, List.length_cons, readMpzs, hv, ok_bind]
    dsimp only
    rw [ih, ok_bind]
    rfl

end RfClassGroups
