import RfClassGroups.BenchIo
import RfClassGroups.Config
import RfClassGroups.Lib.Buffer
import RfClassGroups.Lib.Loops

/-! The offline checker of the batched evaluation, which reads the dumps of the
endpoints and of the firewalls. -/

open ExceptList Loops Buffer

namespace RfClassGroups

/-- One blind file added to the sums; `none` for a file of the wrong format. -/
def addBlindFile (q : Mpz) (ns : ℕ) (text : List Char) (sums : List Mpz × List Mpz) :
    Except String (Option (List Mpz × List Mpz)) := do
  let (magicB, bin) := IStream.readWord ⟨text, false⟩
  let (nb, bin) := bin.readSize
  if magicB ≠ "OLE_BLINDS_V1".toList ∨ nb ≠ ns then return none
  let r ← (List.range ns).foldlM (fun st i => do
    let (aSum, bSum, bin) := st
    let (aBlind, bin) ← readMpzText bin
    let (bBlind, bin) ← readMpzText bin
    return (aSum.set i ((aSum.getD i 0 + aBlind) % q), bSum.set i ((bSum.getD i 0 + bBlind) % q),
      bin)) (sums.1, sums.2, bin)
  return some (r.1, r.2.1)

def countErrors (q : Mpz) (ns : ℕ) (sums : List Mpz × List Mpz) (sin rin : IStream) :
    Except String ℕ := do
  let r ← (List.range ns).foldlM (fun st i => do
    let (errors, sin, rin) := st
    let (a, sin) ← readMpzText sin
    let (b, sin) ← readMpzText sin
    let (x, rin) ← readMpzText rin
    let (y, rin) ← readMpzText rin
    let a := (a + sums.1.getD i 0) % q
    let b := (b + sums.2.getD i 0) % q
    let expected := (a * x + b) % q
    return (if expected ≠ y then errors + 1 else errors, sin, rin)) (0, sin, rin)
  return r.1

/-- `cg_check_batch_ole` on the texts of its files: the exit code. -/
def checkBatchOle (env : Env) (senderText receiverText : List Char)
    (blinds : Option (List Char × List Char)) : Except String ℕ := do
  let (magicS, sin) := IStream.readWord ⟨senderText, false⟩
  let (ns, sin) := sin.readSize
  let (magicR, rin) := IStream.readWord ⟨receiverText, false⟩
  let (nr, rin) := rin.readSize
  if magicS ≠ "OLE_SENDER_V1".toList ∨ magicR ≠ "OLE_RECEIVER_V1".toList ∨ ns ≠ nr then return 2
  cgValidateCount env ns false
  let (q, rin) ← readMpzText rin
  if q ≤ 1 then throw "invalid checker modulus"
  let zeros := (List.replicate ns (0 : Mpz), List.replicate ns (0 : Mpz))
  let sums ← match blinds with
    | none => pure (some zeros)
    | some (senderBlinds, receiverBlinds) => do
      match ← addBlindFile q ns senderBlinds zeros with
      | none => pure none
      | some sums => addBlindFile q ns receiverBlinds sums
  match sums with
  | none => return 2
  | some sums =>
    let errors ← countErrors q ns sums sin rin
    return if errors = 0 then 0 else 1

section

variable {q : Mpz} {n : ℕ}

def addBlinds (q : Mpz) (sums blinds : List Mpz) : List Mpz :=
  filled (fun i => (sums.getD i 0 + blinds.getD i 0) % q) sums 0 sums.length

theorem addBlindFile_eq {aBlinds bBlinds : List Mpz} {sums : List Mpz × List Mpz} (hn : n < 2 ^ 64)
    (ha : aBlinds.length = n) (hb : bBlinds.length = n) (hs1 : sums.1.length = n)
    (hs2 : sums.2.length = n) :
    addBlindFile q n (header "OLE_BLINDS_V1" aBlinds.length ++ pairLines aBlinds bBlinds) sums =
      .ok (some (addBlinds q sums.1 aBlinds, addBlinds q sums.2 bBlinds)) := by
  set sa := fun i => (sums.1.getD i 0 + aBlinds.getD i 0) % q with hsa
  set sb := fun i => (sums.2.getD i 0 + bBlinds.getD i 0) % q with hsb
  obtain ⟨s, hword, hsize⟩ := header_eq (show "OLE_BLINDS_V1".toList ≠ [] by decide) (by decide) hn
    (pairLines aBlinds bBlinds)
  have hloop := foldlM_range_eq (ε := String) (n := n)
    (g := fun i => (filled sa sums.1 0 i, filled sb sums.2 0 i, pairsFrom aBlinds bBlinds i))
    (f := fun st i => do
      let (aSum, bSum, bin) := st
      let (aBlind, bin) ← readMpzText bin
      let (bBlind, bin) ← readMpzText bin
      return (aSum.set i ((aSum.getD i 0 + aBlind) % q), bSum.set i ((bSum.getD i 0 + bBlind) % q),
        bin)) fun i hi => ?_
  · simp only [filled_self] at hloop
    simp only [addBlindFile, ha, hword, hsize, ne_eq, not_true_eq_false, or_self, if_false]
    rw [pairsFrom, List.drop_zero, List.drop_zero] at hloop
    rw [hloop, addBlinds, addBlinds, hs1, hs2]
    rfl
  obtain ⟨t, hx, hy⟩ := readPair_eq (ha.trans hb.symm) (ha.symm ▸ hi)
  have hget1 : (filled sa sums.1 0 i).getD i 0 = sums.1.getD i 0 :=
    (filled_getD sa 0 i (hs1.symm ▸ hi)).trans (if_neg (by omega))
  have hget2 : (filled sb sums.2 0 i).getD i 0 = sums.2.getD i 0 :=
    (filled_getD sb 0 i (hs2.symm ▸ hi)).trans (if_neg (by omega))
  dsimp only
  rw [hx, ok_bind, hy, ok_bind, hget1, hget2]
  have hset1 : (filled sa sums.1 0 i).set i (sa i) = filled sa sums.1 0 (i + 1) := by
    rw [filled_set sa, filled_append sa _ (Nat.zero_le i) (Nat.le_add_right i 1)]
  have hset2 : (filled sb sums.2 0 i).set i (sb i) = filled sb sums.2 0 (i + 1) := by
    rw [filled_set sb, filled_append sb _ (Nat.zero_le i) (Nat.le_add_right i 1)]
  rw [← hset1, ← hset2]
  rfl

def sanitised (q : Mpz) (sums : List Mpz × List Mpz) (aVals bVals xVals : List Mpz) (i : ℕ) : Mpz :=
  ((aVals.getD i 0 + sums.1.getD i 0) % q * xVals.getD i 0 +
    (bVals.getD i 0 + sums.2.getD i 0) % q) % q

theorem countErrors_eq {sums : List Mpz × List Mpz} {aVals bVals xVals yVals : List Mpz}
    (ha : aVals.length = n) (hb : bVals.length = n) (hx : xVals.length = n)
    (hy : yVals.length = n) :
    countErrors q n sums (pairsFrom aVals bVals 0) (pairsFrom xVals yVals 0) =
      .ok ((List.range n).countP fun i => sanitised q sums aVals bVals xVals i ≠ yVals.getD i 0) := by
  have hloop := foldlM_range_eq (ε := String) (n := n)
    (g := fun k => ((List.range k).countP fun i =>
      sanitised q sums aVals bVals xVals i ≠ yVals.getD i 0, pairsFrom aVals bVals k,
      pairsFrom xVals yVals k))
    (f := fun st i => do
      let (errors, sin, rin) := st
      let (a, sin) ← readMpzText sin
      let (b, sin) ← readMpzText sin
      let (x, rin) ← readMpzText rin
      let (y, rin) ← readMpzText rin
      let a := (a + sums.1.getD i 0) % q
      let b := (b + sums.2.getD i 0) % q
      let expected := (a * x + b) % q
      return (if expected ≠ y then errors + 1 else errors, sin, rin)) fun i hi => ?_
  · exact congrArg (Except.map Prod.fst) hloop
  obtain ⟨t, hra, hrb⟩ := readPair_eq (ha.trans hb.symm) (ha.symm ▸ hi)
  obtain ⟨t', hrx, hry⟩ := readPair_eq (hx.trans hy.symm) (hx.symm ▸ hi)
  dsimp only
  rw [hra, ok_bind, hrb, ok_bind, hrx, ok_bind, hry, ok_bind, List.range_succ, List.countP_append,
    List.countP_singleton]
  refine congrArg (fun k => Except.ok (k, _, _)) ?_
  change (if sanitised q sums aVals bVals xVals i ≠ yVals.getD i 0 then _ else _) = _
  by_cases h : sanitised q sums aVals bVals xVals i = yVals.getD i 0
  · rw [if_neg (not_not.mpr h), if_neg (by simpa using h)]
    rfl
  · rw [if_pos h, if_pos (by simpa using h)]

def blindSum (blinds : Option ((List Mpz × List Mpz) × (List Mpz × List Mpz))) (i : ℕ) : Mpz × Mpz :=
  match blinds with
  | none => (0, 0)
  | some (s, r) => (s.1.getD i 0 + r.1.getD i 0, s.2.getD i 0 + r.2.getD i 0)

/-- The relation that the checker decides. -/
def SanitisedOle (q : Mpz) (blinds : Option ((List Mpz × List Mpz) × (List Mpz × List Mpz)))
    (aVals bVals xVals yVals : List Mpz) (n : ℕ) : Prop :=
  ∀ i < n, yVals.getD i 0 = ((aVals.getD i 0 + (blindSum blinds i).1) * xVals.getD i 0 +
    (bVals.getD i 0 + (blindSum blinds i).2)) % q

theorem addBlinds_getD (q : Mpz) {sums blinds : List Mpz} {i : ℕ} (hi : i < sums.length) :
    (addBlinds q sums blinds).getD i 0 = (sums.getD i 0 + blinds.getD i 0) % q :=
  filled_getD_of_lt _ hi le_rfl

theorem length_addBlinds (q : Mpz) (sums blinds : List Mpz) :
    (addBlinds q sums blinds).length = sums.length := length_filled _ _ _ _

theorem sanitised_eq {sums : List Mpz × List Mpz}
    {blinds : Option ((List Mpz × List Mpz) × (List Mpz × List Mpz))}
    (aVals bVals xVals : List Mpz) {i : ℕ} (h1 : sums.1.getD i 0 ≡ (blindSum blinds i).1 [ZMOD q])
    (h2 : sums.2.getD i 0 ≡ (blindSum blinds i).2 [ZMOD q]) :
    sanitised q sums aVals bVals xVals i = ((aVals.getD i 0 + (blindSum blinds i).1) *
      xVals.getD i 0 + (bVals.getD i 0 + (blindSum blinds i).2)) % q := by
  have ha := (Int.mod_modEq _ _).trans (h1.add_left (aVals.getD i 0))
  have hb := (Int.mod_modEq _ _).trans (h2.add_left (bVals.getD i 0))
  exact (ha.mul_right (xVals.getD i 0)).add hb

variable {env : Env}

def blindTexts (blinds : (List Mpz × List Mpz) × (List Mpz × List Mpz)) : List Char × List Char :=
  (header "OLE_BLINDS_V1" blinds.1.1.length ++ pairLines blinds.1.1 blinds.1.2,
    header "OLE_BLINDS_V1" blinds.2.1.length ++ pairLines blinds.2.1 blinds.2.2)

theorem zeros_getD (n i : ℕ) : (List.replicate n (0 : Mpz)).getD i 0 = 0 := by
  rw [List.getD_eq_getElem?_getD, List.getElem?_replicate]
  split <;> rfl

theorem addBlindFiles_eq (hn : n < 2 ^ 64) {b : (List Mpz × List Mpz) × (List Mpz × List Mpz)}
    (hb : b.1.1.length = n ∧ b.1.2.length = n ∧ b.2.1.length = n ∧ b.2.2.length = n)
    {zeros : List Mpz × List Mpz} (hz : zeros = (List.replicate n 0, List.replicate n 0)) :
    ∃ s sums, addBlindFile q n (blindTexts b).1 zeros = .ok (some s) ∧
      addBlindFile q n (blindTexts b).2 s = .ok (some sums) ∧
      ∀ i < n, sums.1.getD i 0 ≡ (blindSum (some b) i).1 [ZMOD q] ∧
        sums.2.getD i 0 ≡ (blindSum (some b) i).2 [ZMOD q] := by
  obtain ⟨h11, h12, h21, h22⟩ := hb
  subst hz
  have hlen : ∀ l : List Mpz, (addBlinds q (List.replicate n 0) l).length = n := fun l => by
    rw [length_addBlinds, List.length_replicate]
  refine ⟨_, _, addBlindFile_eq hn h11 h12 List.length_replicate List.length_replicate,
    addBlindFile_eq hn h21 h22 (hlen _) (hlen _), fun i hi => ?_⟩
  have hsum : ∀ l l' : List Mpz, (addBlinds q (addBlinds q (List.replicate n 0) l) l').getD i 0 ≡
      l.getD i 0 + l'.getD i 0 [ZMOD q] := fun l l' => by
    rw [addBlinds_getD q (by rwa [hlen]), addBlinds_getD q (by rwa [List.length_replicate]),
      zeros_getD, zero_add]
    exact (Int.mod_modEq _ _).trans ((Int.mod_modEq _ _).add_right _)
  exact ⟨hsum _ _, hsum _ _⟩

/-- On dumps of one size the checker succeeds exactly when every instance
satisfies the relation. -/
theorem checkBatchOle_eq (hq : 1 < q) (hcount : cgValidateCount env n false = .ok ())
    {aVals bVals xVals yVals : List Mpz} (ha : aVals.length = n) (hb : bVals.length = n)
    (hx : xVals.length = n) (hy : yVals.length = n)
    (blinds : Option ((List Mpz × List Mpz) × (List Mpz × List Mpz)))
    (hblinds : ∀ b ∈ blinds, b.1.1.length = n ∧ b.1.2.length = n ∧ b.2.1.length = n ∧
      b.2.2.length = n) [Decidable (SanitisedOle q blinds aVals bVals xVals yVals n)] :
    checkBatchOle env (header "OLE_SENDER_V1" aVals.length ++ pairLines aVals bVals)
      (header "OLE_RECEIVER_V1" xVals.length ++ mpzText q ++ '\n' :: pairLines xVals yVals)
      (blinds.map blindTexts) =
      .ok (if SanitisedOle q blinds aVals bVals xVals yVals n then 0 else 1) := by
  obtain ⟨_, limit, hlimit, hle⟩ := cgValidateCount_ok.mp hcount
  have hn : n < 2 ^ 64 := by
    have hmax := cgMaxItems_le hlimit
    omega
  obtain ⟨s, hwordS, hsizeS⟩ := header_eq (show "OLE_SENDER_V1".toList ≠ [] by decide) (by decide) hn
    (pairLines aVals bVals)
  obtain ⟨r, hwordR, hsizeR⟩ := header_eq (show "OLE_RECEIVER_V1".toList ≠ [] by decide) (by decide)
    hn (mpzText q ++ '\n' :: pairLines xVals yVals)
  have hreadq : readMpzText ⟨'\n' :: (mpzText q ++ '\n' :: pairLines xVals yVals), false⟩ =
      .ok (q, pairsFrom xVals yVals 0) :=
    readMpzText_eq ['\n'] (by simp [isSpace]) q (newline_ends (pairLines xVals yVals))
  rw [ha, hx, List.append_assoc]
  -- the exit code, once the sums are known
  have hexit : ∀ sums : List Mpz × List Mpz,
      (∀ i < n, sums.1.getD i 0 ≡ (blindSum blinds i).1 [ZMOD q] ∧
        sums.2.getD i 0 ≡ (blindSum blinds i).2 [ZMOD q]) →
      (do
        let errors ← countErrors q n sums (pairsFrom aVals bVals 0) (pairsFrom xVals yVals 0)
        return if errors = 0 then 0 else 1) =
        (.ok (if SanitisedOle q blinds aVals bVals xVals yVals n then 0 else 1) :
          Except String ℕ) := fun sums hsums => by
    rw [countErrors_eq ha hb hx hy, ok_bind]
    refine congrArg Except.ok (if_congr ?_ rfl rfl)
    rw [List.countP_eq_zero]
    refine ⟨fun h i hi => ?_, fun h i hi => ?_⟩
    · have hi' := h i (List.mem_range.mpr hi)
      rw [sanitised_eq aVals bVals xVals (hsums i hi).1 (hsums i hi).2] at hi'
      exact (not_not.mp fun hne => hi' (decide_eq_true hne)).symm
    · rw [List.mem_range] at hi
      rw [sanitised_eq aVals bVals xVals (hsums i hi).1 (hsums i hi).2]
      exact fun hne => of_decide_eq_true hne (h i hi).symm
  simp only [checkBatchOle, hwordS, hsizeS, hwordR, hsizeR, ne_eq, not_true_eq_false, or_self,
    if_false, hcount, hreadq, ok_bind, if_neg (not_le.mpr hq)]
  cases blinds with
  | none => exact hexit _ fun i _ => by simp only [zeros_getD, blindSum]; exact ⟨rfl, rfl⟩
  | some b =>
    obtain ⟨s, sums, hs, hsums, hmod⟩ := addBlindFiles_eq (q := q) hn (hblinds b rfl) rfl
    simp only [Option.map_some, hs, ok_bind, hsums]
    exact hexit sums hmod

end

end RfClassGroups
