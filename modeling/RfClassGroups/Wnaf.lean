import RfClassGroups.Lib.SignedDigits
import RfClassGroups.Nupow

/-! The windowed non-adjacent form and the interleaved exponentiation of several forms. -/

namespace RfClassGroups.Bicycl

open Loops SignedDigits

def int16 (x : Mpz) : ℤ := x.bmod (2 ^ 16)

def wnafRound (w : ℕ) (s : Mpz × List ℤ) : Mpz × List ℤ :=
  if tstbit s.1 0 then
    let aux := mod2kCentered s.1 w
    (divby2k (s.1 - aux) 1, s.2 ++ [int16 aux])
  else (divby2k s.1 1, s.2 ++ [0])

/-- `WNAF::WNAF`. The check of `w` builds an exception and does not throw it. -/
def wnaf (n : Mpz) (w : ℕ) : Option (List ℤ) :=
  (WhileLoop.run (·.1 != 0) (wnafRound w) n.natAbs (n, [])).map (·.2)

section

variable {Q : Type*} (ops : FormOps Q)

def interleaveDigit (tab : List Q) (d : ℤ) (r : Q) : Option Q :=
  (if 0 < d then (tab[((d - 1) / 2).toNat]?).map (ops.nucomp r · false) else some r).bind fun r =>
    if d < 0 then (tab[((-d - 1) / 2).toNat]?).map (ops.nucomp r · true) else some r

/-- One squaring, and a digit of every exponent. -/
def interleaveRound (entries : List (List Q × List ℤ)) (i : ℕ) (r : Option Q) : Option Q :=
  r.bind fun r => entries.foldlM (fun r en => interleaveDigit ops en.1 (en.2.getD i 0) r)
    (ops.nudupl r)

/-- The odd powers of a form and the digits of its exponent. -/
def interleaveEntry (w : ℕ) (p : Q × Mpz) : Option (List Q × List ℤ) :=
  (wnaf p.2 w).map fun l => (oddPowers ops p.1 (ops.nudupl p.1) (2 ^ (w - 2)), l)

/-- `QFI::nupow` of several forms. The check of the two lengths throws nothing: with no form
`fi[0]` and with too few exponents `ni[i]` is read past the end. An index of type `unsigned` never
reaches `2^32` forms. -/
def nupowInterleaved (fi : List Q) (ni : List Mpz) (w : ℕ) : Option Q :=
  if fi = [] ∨ ni.length < fi.length ∨ 2 ^ 32 ≤ fi.length then none
  else ((fi.zip ni).mapM (interleaveEntry ops w)).bind fun entries =>
    let biggest : ℕ := (entries.map fun en => en.2.length).foldr max 0
    (countdown (int32 biggest)).foldl (fun r i => interleaveRound ops entries i r) (some ops.one)

end

/-- A digit is zero or odd and below half the window. -/
def WnafDigit (w : ℕ) (d : ℤ) : Prop := d = 0 ∨ d % 2 = 1 ∧ |d| < 2 ^ (w - 1)

/-- The digits so far and what is left are the exponent; `recent` places below the next digit
at most `w - recent` bits of what is left are zero. -/
structure WnafInv (w : ℕ) (n : ℤ) (s : Mpz × List ℤ) : Prop where
  sum : value s.2 + 2 ^ s.2.length * s.1 = n
  digits : ∀ d ∈ s.2, WnafDigit w d
  zeros : ∀ i < s.2.length, s.2.getD i 0 ≠ 0 → (2 : ℤ) ^ (w - (s.2.length - i)) ∣ s.1
  sparse : ∀ i j, i < j → j < s.2.length → s.2.getD i 0 ≠ 0 → s.2.getD j 0 ≠ 0 → w ≤ j - i

/-- The digits so far are below half of the power of two that divides the rest of the exponent,
and no more than one longer than it. -/
structure WnafShort (n : ℤ) (s : Mpz × List ℤ) : Prop where
  below : ∃ k, (2 : ℤ) ^ k ∣ 2 ^ s.2.length * s.1 ∧ 2 * |value s.2| < 2 ^ k
  length : s.2.length ≤ nbits n + 1

theorem tstbit_zero (n : ℤ) : tstbit n 0 = true ↔ n % 2 = 1 := by
  cases n with
  | ofNat m =>
    have hbit : tstbit (Int.ofNat m) 0 = m.testBit 0 := rfl
    rw [hbit, Nat.testBit_zero, decide_eq_true_iff, Int.ofNat_eq_natCast]
    omega
  | negSucc m =>
    have hbit : tstbit (Int.negSucc m) 0 = !m.testBit 0 := rfl
    rw [hbit, Nat.testBit_zero, Bool.not_eq_true', decide_eq_false_iff_not, Int.negSucc_eq]
    omega

/-- The centred remainder of an odd number. -/
theorem mod2kCentered_odd {n : ℤ} (hn : n % 2 = 1) {w : ℕ} (hw : 2 ≤ w) (hw' : w ≤ 64) :
    mod2kCentered n w % 2 = 1 ∧ |mod2kCentered n w| < 2 ^ (w - 1) ∧
      (2 : ℤ) ^ w ∣ n - mod2kCentered n w := by
  have hhalf : (2 : ℤ) ^ w = 2 * 2 ^ (w - 1) := by rw [← pow_succ', show w - 1 + 1 = w by omega]
  have hquarter : (2 : ℤ) ^ (w - 1) = 2 * 2 ^ (w - 2) := by
    rw [← pow_succ', show w - 2 + 1 = w - 1 by omega]
  have hdiv := Int.mul_ediv_add_emod n (2 ^ w)
  have hlow := Int.emod_nonneg n (show (2 : ℤ) ^ w ≠ 0 by positivity)
  have hup := Int.emod_lt_of_pos n (show (0 : ℤ) < 2 ^ w by positivity)
  have hodd : n % 2 ^ w % 2 = 1 := by
    rw [Int.emod_emod_of_dvd n (dvd_pow_self 2 (show w ≠ 0 by omega))]
    exact hn
  have hpos : (0 : ℤ) < 2 ^ (w - 2) := by positivity
  rw [abs_lt]
  rcases mod2kCentered_eq n (show 1 ≤ w by omega) hw' with ⟨heq, hlt⟩ | ⟨heq, hge⟩
  · rw [heq]
    exact ⟨hodd, ⟨by linarith, hlt⟩, ⟨n / 2 ^ w, by linarith⟩⟩
  · rw [heq]
    have hne : n % 2 ^ w ≠ 2 ^ (w - 1) := by
      intro h
      omega
    have hgt := lt_of_le_of_ne hge hne.symm
    have hodd' : (n % 2 ^ w - 2 ^ w : ℤ) % 2 = 1 := by omega
    exact ⟨hodd', ⟨by linarith, by linarith⟩, ⟨n / 2 ^ w + 1, by linarith⟩⟩

theorem int16_of_abs_lt {x : ℤ} {w : ℕ} (hw : 1 ≤ w) (hw' : w ≤ 16) (hx : |x| < 2 ^ (w - 1)) :
    int16 x = x := by
  have hle : (2 : ℤ) ^ (w - 1) ≤ 2 ^ 15 := pow_le_pow_right₀ (by norm_num) (by omega)
  rw [abs_lt] at hx
  rw [int16]
  apply Int.bmod_eq_of_le
  · norm_num at hle ⊢
    linarith
  · norm_num at hle ⊢
    linarith

/-- A round on an odd number: the digit, and what is left. -/
theorem wnafRound_odd {w : ℕ} (hw : 2 ≤ w) (hw' : w ≤ 16) {s : Mpz × List ℤ} (hodd : s.1 % 2 = 1) :
    ∃ d m, wnafRound w s = (m, s.2 ++ [d]) ∧ s.1 = d + 2 * m ∧ d % 2 = 1 ∧ |d| < 2 ^ (w - 1) ∧
      (2 : ℤ) ^ (w - 1) ∣ m := by
  obtain ⟨hd, hlt, c, hc⟩ := mod2kCentered_odd hodd hw (by omega)
  have hhalf : (2 : ℤ) ^ w = 2 * 2 ^ (w - 1) := by rw [← pow_succ', show w - 1 + 1 = w by omega]
  refine ⟨mod2kCentered s.1 w, 2 ^ (w - 1) * c, ?_, ?_, hd, hlt, dvd_mul_right _ _⟩
  · rw [wnafRound, if_pos ((tstbit_zero _).mpr hodd)]
    dsimp only
    rw [int16_of_abs_lt (by omega) hw' hlt, divby2k, hc, hhalf, pow_one, mul_assoc,
      Int.mul_ediv_cancel_left _ two_ne_zero]
  · rw [← mul_assoc, ← hhalf, ← hc]
    ring

theorem wnafRound_even {w : ℕ} {s : Mpz × List ℤ} (heven : s.1 % 2 = 0) :
    ∃ m, wnafRound w s = (m, s.2 ++ [0]) ∧ s.1 = 2 * m := by
  have hbit : ¬ tstbit s.1 0 = true := by
    rw [tstbit_zero, heven]
    exact zero_ne_one
  refine ⟨s.1 / 2, by rw [wnafRound, if_neg hbit, divby2k, pow_one], ?_⟩
  exact (Int.mul_ediv_cancel' (Int.dvd_of_emod_eq_zero heven)).symm

theorem wnafRound_shrinks {w : ℕ} {n d m : ℤ} (h : n = d + 2 * m)
    (hd : |d| < 2 ^ (w - 1)) (hdvd : (2 : ℤ) ^ (w - 1) ∣ m) (hn : n ≠ 0) : m.natAbs < n.natAbs := by
  rw [abs_lt] at hd
  by_cases hm : m = 0
  · omega
  · have hle := Int.le_of_dvd (abs_pos.mpr hm) ((dvd_abs _ _).mpr hdvd)
    rcases le_or_gt 0 m with hsign | hsign
    · rw [abs_of_nonneg hsign] at hle
      omega
    · rw [abs_of_neg hsign] at hle
      omega

/-- A digit put at the end keeps the distances, where a digit other than zero meets only zeros
in the `w - 1` places before it. -/
theorem WnafInv.push {w : ℕ} {n m d : ℤ} {s : Mpz × List ℤ} (hs : WnafInv w n s)
    (hsum : s.1 = d + 2 * m) (hdigit : WnafDigit w d) (hzeros : d ≠ 0 → (2 : ℤ) ^ (w - 1) ∣ m)
    (hnear : ∀ i < s.2.length, s.2.getD i 0 ≠ 0 → d ≠ 0 → w ≤ s.2.length - i) :
    WnafInv w n (m, s.2 ++ [d]) := by
  have hbelow : ∀ i < s.2.length, (s.2 ++ [d]).getD i 0 = s.2.getD i 0 :=
    fun i hi => List.getD_append _ _ _ _ hi
  have hlast : (s.2 ++ [d]).getD s.2.length 0 = d := by
    rw [List.getD_append_right _ _ _ _ le_rfl, Nat.sub_self, List.getD_cons_zero]
  refine ⟨?_, ?_, ?_, ?_⟩
  · have hh := hs.sum
    simp only [value_append, List.length_append, List.length_singleton, value_cons, value_nil,
      smul_eq_mul, pow_succ]
    rw [hsum] at hh
    linear_combination hh
  · intro x hx
    rcases List.mem_append.mp hx with hx | hx
    · exact hs.digits x hx
    · rw [List.mem_singleton.mp hx]
      exact hdigit
  · intro i hi hne
    simp only [List.length_append, List.length_singleton] at hi ⊢
    by_cases heq : i = s.2.length
    · rw [heq, hlast] at hne
      rw [heq, Nat.add_sub_cancel_left]
      exact hzeros hne
    · have hlt : i < s.2.length := by omega
      rw [hbelow i hlt] at hne
      have hz := hs.zeros i hlt hne
      by_cases hfar : w ≤ s.2.length - i
      · rw [show w - (s.2.length + 1 - i) = 0 by omega, pow_zero]
        exact one_dvd m
      · have hd : d = 0 := not_not.mp fun hd => hfar (hnear i hlt hne hd)
        rw [hsum, hd, zero_add, show w - (s.2.length - i) = w - (s.2.length + 1 - i) + 1 by omega,
          pow_succ'] at hz
        exact (mul_dvd_mul_iff_left two_ne_zero).mp hz
  · intro i j hij hj hi0 hj0
    simp only [List.length_append, List.length_singleton] at hj
    rw [hbelow i (by omega)] at hi0
    by_cases heq : j = s.2.length
    · rw [heq, hlast] at hj0
      rw [heq]
      exact hnear i (by omega) hi0 hj0
    · rw [hbelow j (by omega)] at hj0
      exact hs.sparse i j hij (by omega) hi0 hj0

theorem wnafRound_spec {w : ℕ} (hw : 2 ≤ w) (hw' : w ≤ 16) {n : ℤ} {s : Mpz × List ℤ}
    (hs : WnafInv w n s) (h0 : s.1 ≠ 0) :
    WnafInv w n (wnafRound w s) ∧ (wnafRound w s).1.natAbs < s.1.natAbs := by
  rcases Int.emod_two_eq_zero_or_one s.1 with heven | hodd
  · obtain ⟨m, hround, hm⟩ := wnafRound_even (w := w) heven
    rw [hround]
    refine ⟨hs.push (by rw [hm, zero_add]) (Or.inl rfl) (absurd rfl) (fun _ _ _ => absurd rfl), ?_⟩
    have hpos : 0 < m.natAbs := Int.natAbs_pos.mpr (right_ne_zero_of_mul (hm ▸ h0))
    rw [hm, Int.natAbs_mul]
    exact (Nat.lt_mul_iff_one_lt_left hpos).mpr one_lt_two
  · obtain ⟨d, m, hround, hm, hd, hlt, hdvd⟩ := wnafRound_odd hw hw' hodd
    rw [hround]
    refine ⟨hs.push hm (Or.inr ⟨hd, hlt⟩) (fun _ => hdvd) ?_, wnafRound_shrinks hm hlt hdvd h0⟩
    intro i hi hne _
    by_contra hnear
    have heven := (dvd_pow_self (2 : ℤ) (show w - (s.2.length - i) ≠ 0 by omega)).trans
      (hs.zeros i hi hne)
    rw [Int.emod_eq_zero_of_dvd heven] at hodd
    exact zero_ne_one hodd

theorem value_push (l : List ℤ) (d : ℤ) : value (l ++ [d]) = value l + 2 ^ l.length * d := by
  rw [value_append, value_cons, value_nil, smul_zero, add_zero, smul_eq_mul]

/-- As long as a rest is left there are no more digits than bits. -/
theorem WnafShort.length_le {w : ℕ} {n : ℤ} {s : Mpz × List ℤ} (h : WnafShort n s)
    (hs : WnafInv w n s) (h0 : s.1 ≠ 0) : s.2.length ≤ nbits n := by
  obtain ⟨k, hdvd, hlt⟩ := h.below
  have hsum := hs.sum
  have hpow : (0 : ℤ) < 2 ^ s.2.length := by positivity
  have hpos : 0 < |2 ^ s.2.length * s.1| := abs_pos.mpr (mul_ne_zero hpow.ne' h0)
  have hstep := Int.le_of_dvd hpos ((dvd_abs _ _).mpr hdvd)
  have htriangle := abs_sub n (value s.2)
  rw [← hsum, add_sub_cancel_left, hsum] at htriangle
  have hone : (1 : ℤ) ≤ |s.1| := Int.one_le_abs h0
  have hle : (2 : ℤ) ^ s.2.length ≤ |2 ^ s.2.length * s.1| := by
    rw [abs_mul, abs_of_pos hpow]
    exact le_mul_of_one_le_right hpow.le hone
  have hbits : n.natAbs < 2 ^ nbits n := Nat.lt_log2_self
  have hbits' : |n| < 2 ^ nbits n := by
    rw [Int.abs_eq_natAbs]
    exact_mod_cast hbits
  have hlast : (2 : ℤ) ^ s.2.length < 2 ^ (nbits n + 1) := by
    rw [pow_succ]
    linarith
  exact Nat.lt_succ_iff.mp ((pow_lt_pow_iff_right₀ one_lt_two).mp hlast)

theorem wnafRound_short {w : ℕ} (hw : 2 ≤ w) (hw' : w ≤ 16) {n : ℤ} {s : Mpz × List ℤ}
    (hs : WnafInv w n s) (h : WnafShort n s) (h0 : s.1 ≠ 0) : WnafShort n (wnafRound w s) := by
  have hle := h.length_le hs h0
  obtain ⟨k, hdvd, hlt⟩ := h.below
  have hpow : (0 : ℤ) < 2 ^ s.2.length := by positivity
  rcases Int.emod_two_eq_zero_or_one s.1 with heven | hodd
  · obtain ⟨m, hround, hm⟩ := wnafRound_even (w := w) heven
    rw [hround]
    refine ⟨⟨k, ?_, ?_⟩, by simpa using hle⟩
    · rw [hm, ← mul_assoc, ← pow_succ] at hdvd
      simpa using hdvd
    · rwa [value_push, mul_zero, add_zero]
  · obtain ⟨d, m, hround, hm, -, hd, hrest⟩ := wnafRound_odd hw hw' hodd
    rw [hround]
    -- What is left is odd, so the power that divides it is one of the digits written.
    have hk : k ≤ s.2.length := by
      by_contra hgt
      have htwo := (pow_dvd_pow (2 : ℤ) (not_le.mp hgt)).trans hdvd
      rw [pow_succ] at htwo
      have hdvd' := (mul_dvd_mul_iff_left hpow.ne').mp htwo
      omega
    have hpowk : (2 : ℤ) ^ k ≤ 2 ^ s.2.length := pow_le_pow_right₀ one_le_two hk
    have hexp : (2 : ℤ) ^ (s.2.length + w) = 2 * (2 ^ s.2.length * 2 ^ (w - 1)) := by
      rw [← pow_add, ← pow_succ', show s.2.length + (w - 1) + 1 = s.2.length + w by omega]
    refine ⟨⟨s.2.length + w, ?_, ?_⟩, by simpa using hle⟩
    · have hmul := mul_dvd_mul_left ((2 : ℤ) ^ (s.2.length + 1)) hrest
      rw [← pow_add, show s.2.length + 1 + (w - 1) = s.2.length + w by omega] at hmul
      simpa using hmul
    · have habs := abs_add_le (value s.2) (2 ^ s.2.length * d)
      rw [abs_mul, abs_of_pos hpow] at habs
      have hdigit : 2 ^ s.2.length * |d| ≤ 2 ^ s.2.length * (2 ^ (w - 1) - 1) :=
        mul_le_mul_of_nonneg_left (Int.le_sub_one_of_lt hd) hpow.le
      rw [mul_sub_one] at hdigit
      dsimp only
      rw [value_push, hexp]
      linarith

/-- The form ends for every integer, its digits are the integer, at most one more than its bits,
and two digits other than zero are at least `w` places apart. -/
theorem wnaf_spec (n : ℤ) {w : ℕ} (hw : 2 ≤ w) (hw' : w ≤ 16) : ∃ l, wnaf n w = some l ∧
    value l = n ∧ (∀ d ∈ l, WnafDigit w d) ∧ l.length ≤ nbits n + 1 ∧
    ∀ i j, i < j → j < l.length → l.getD i 0 ≠ 0 → l.getD j 0 ≠ 0 → w ≤ j - i := by
  have hround : ∀ s : Mpz × List ℤ, WnafInv w n s ∧ WnafShort n s → (s.1 != 0) = true →
      (WnafInv w n (wnafRound w s) ∧ WnafShort n (wnafRound w s)) ∧
        (wnafRound w s).1.natAbs < s.1.natAbs := by
    rintro s ⟨hs, hshort⟩ hguard
    have h0 := bne_iff_ne.mp hguard
    obtain ⟨hs', hlt⟩ := wnafRound_spec hw hw' hs h0
    exact ⟨⟨hs', wnafRound_short hw hw' hs hshort h0⟩, hlt⟩
  have hstart : WnafInv w n (n, []) := ⟨by simp, by simp, by simp, by simp⟩
  have hshort : WnafShort n (n, []) := ⟨⟨0, by simp, by simp⟩, Nat.zero_le _⟩
  obtain ⟨s, hrun, ⟨hs, hlast⟩, hexit⟩ := WhileLoop.run_terminates
    (fun s : Mpz × List ℤ => s.1.natAbs) hround ⟨hstart, hshort⟩ (le_refl n.natAbs)
  have h0 : s.1 = 0 := by simpa using hexit
  have hsum := hs.sum
  rw [h0, mul_zero, add_zero] at hsum
  refine ⟨s.2, ?_, hsum, hs.digits, hlast.length, hs.sparse⟩
  rw [wnaf, hrun]
  rfl

section

variable {Q G : Type*} [CommGroup G] {ops : FormOps Q} {cls : Q → G}

theorem interleaveDigit_spec (h : ops.Lawful cls) (f : Q) {w : ℕ} (hw : 2 ≤ w) {d : ℤ}
    (hd : WnafDigit w d) (r : Q) : ∃ r',
      interleaveDigit ops (oddPowers ops f (ops.nudupl f) (2 ^ (w - 2))) d r = some r' ∧
        cls r' = cls r * cls f ^ d := by
  have hhalf : (2 : ℤ) ^ (w - 1) = 2 * (2 ^ (w - 2) : ℕ) := by
    push_cast
    rw [← pow_succ', show w - 2 + 1 = w - 1 by omega]
  unfold interleaveDigit
  rcases hd with rfl | ⟨hodd, hlt⟩
  · exact ⟨r, rfl, by rw [zpow_zero, mul_one]⟩
  · rw [abs_lt] at hlt
    rcases lt_or_ge 0 d with hpos | hneg
    · have hi : ((d - 1) / 2).toNat < 2 ^ (w - 2) := by omega
      have hexp : d = ((2 * ((d - 1) / 2).toNat + 1 : ℕ) : ℤ) := by omega
      obtain ⟨g, hg, hcls⟩ := h.getElem?_oddPowers f hi
      rw [if_pos hpos, hg, Option.map_some, Option.bind_some, if_neg (not_lt.mpr hpos.le)]
      refine ⟨_, rfl, ?_⟩
      rw [h.nucomp, hcls, if_neg Bool.false_ne_true, ← zpow_natCast, ← hexp]
    · have hi : ((-d - 1) / 2).toNat < 2 ^ (w - 2) := by omega
      have hexp : -d = ((2 * ((-d - 1) / 2).toNat + 1 : ℕ) : ℤ) := by omega
      obtain ⟨g, hg, hcls⟩ := h.getElem?_oddPowers f hi
      rw [if_neg (not_lt.mpr hneg), Option.bind_some, if_pos (by omega), hg, Option.map_some]
      refine ⟨_, rfl, ?_⟩
      rw [h.nucomp, hcls, if_pos rfl, ← zpow_natCast, ← hexp, zpow_neg, inv_inv]

theorem mapM_eq_some_map {α β : Type*} {f : α → Option β} {g : α → β} (l : List α)
    (h : ∀ x ∈ l, f x = some (g x)) : l.mapM f = some (l.map g) := by
  induction l with
  | nil => rfl
  | cons x l ih =>
    rw [List.mapM_cons, h x List.mem_cons_self, ih fun y hy => h y (List.mem_cons_of_mem _ hy)]
    rfl

theorem interleave_digits (h : ops.Lawful cls) {w : ℕ} (hw : 2 ≤ w) {ι : Type*} (f : ι → Q)
    (digits : ι → List ℤ) (ks : List ι) (hdigits : ∀ k ∈ ks, ∀ d ∈ digits k, WnafDigit w d) (i : ℕ)
    (r : Q) : ∃ r', (ks.map fun k => (oddPowers ops (f k) (ops.nudupl (f k)) (2 ^ (w - 2)),
        digits k)).foldlM (fun r en => interleaveDigit ops en.1 (en.2.getD i 0) r) r = some r' ∧
      cls r' = cls r * (ks.map fun k => cls (f k) ^ (digits k).getD i 0).prod := by
  induction ks generalizing r with
  | nil => exact ⟨r, rfl, by simp⟩
  | cons k ks ih =>
    have hd : WnafDigit w ((digits k).getD i 0) := by
      rcases lt_or_ge i (digits k).length with hi | hi
      · rw [List.getD_eq_getElem _ _ hi]
        exact hdigits k List.mem_cons_self _ (List.getElem_mem hi)
      · rw [List.getD_eq_default _ _ hi]
        exact Or.inl rfl
    obtain ⟨r', hr', hcls⟩ := interleaveDigit_spec h (f k) hw hd r
    obtain ⟨r'', hr'', hcls'⟩ := ih (fun k hk => hdigits k (List.mem_cons_of_mem _ hk)) r'
    refine ⟨r'', ?_, ?_⟩
    · rw [List.map_cons, List.foldlM_cons, hr']
      exact hr''
    · rw [hcls', hcls, List.map_cons, List.prod_cons, mul_assoc]

/-- The form is there and stands for an element. -/
def Represents (cls : Q → G) (o : Option Q) (a : Additive G) : Prop :=
  ∃ r, o = some r ∧ cls r = a.toMul

/-- A round doubles and then takes in the digits of all forms at one place. -/
theorem interleaveRound_represents (h : ops.Lawful cls) {w : ℕ} (hw : 2 ≤ w) {ι : Type*} (f : ι → Q)
    (digits : ι → List ℤ) (ks : List ι) (hdigits : ∀ k ∈ ks, ∀ d ∈ digits k, WnafDigit w d) (i : ℕ)
    {o : Option Q} {a : Additive G} (ho : Represents cls o a) :
    Represents cls (interleaveRound ops (ks.map fun k =>
        (oddPowers ops (f k) (ops.nudupl (f k)) (2 ^ (w - 2)), digits k)) i o)
      ((ks.map fun k => (digits k).getD i 0 • Additive.ofMul (cls (f k))).sum + (2 : ℤ) • a) := by
  obtain ⟨r, rfl, hr⟩ := ho
  obtain ⟨r', hr', hcls⟩ := interleave_digits h hw f digits ks hdigits i (ops.nudupl r)
  refine ⟨r', hr', ?_⟩
  rw [hcls, h.nudupl, hr, toMul_add, toMul_list_sum, List.map_map, toMul_zsmul, zpow_two, mul_comm]
  rfl

/-- The rounds over all places give the product of the powers by the values of the digits. -/
theorem interleaveRounds_spec (h : ops.Lawful cls) {w : ℕ} (hw : 2 ≤ w) {ι : Type*} (f : ι → Q)
    (digits : ι → List ℤ) (ks : List ι) (hdigits : ∀ k ∈ ks, ∀ d ∈ digits k, WnafDigit w d) {B : ℕ}
    (hB : ∀ k ∈ ks, (digits k).length ≤ B) :
    ∃ r, (List.range B).foldr (interleaveRound ops (ks.map fun k =>
        (oddPowers ops (f k) (ops.nudupl (f k)) (2 ^ (w - 2)), digits k))) (some ops.one) = some r ∧
      cls r = (ks.map fun k => cls (f k) ^ value (digits k)).prod := by
  have hstart : Represents cls (some ops.one) 0 := ⟨_, rfl, h.one⟩
  obtain ⟨r, hr, hcls⟩ := foldr_rep (l := List.range B) hstart fun i _ _ _ ho =>
    interleaveRound_represents h hw f digits ks hdigits i ho
  refine ⟨r, hr, ?_⟩
  rw [hcls, smul_zero, add_zero, value_map_sum, toMul_list_sum, List.map_map]
  congr 1
  apply List.map_congr_left
  intro k hk
  have hsum := value_getD (show id (0 : ℤ) = 0 from rfl) (digits k) (hB k hk)
  rw [List.map_id] at hsum
  rw [Function.comp_apply, value_map_zsmul]
  exact congrArg (cls (f k) ^ ·) hsum

theorem biggest_lt {lengths : List ℕ} (h : ∀ l ∈ lengths, l < 2 ^ 31) :
    lengths.foldr max 0 < 2 ^ 31 :=
  (List.max_le_of_forall_le _ (2 ^ 31 - 1) fun l hl => Nat.le_pred_of_lt (h l hl)).trans_lt
    (by norm_num)

/-- The interleaved exponentiation gives the product of the powers; exponents past the number of
forms are not looked at. -/
theorem nupowInterleaved_spec (h : ops.Lawful cls) {w : ℕ} (hw : 2 ≤ w) (hw' : w ≤ 16) {fi : List Q}
    {ni : List Mpz} (hne : fi ≠ []) (hlen : fi.length ≤ ni.length) (hcount : fi.length < 2 ^ 32)
    (hbits : ∀ p ∈ fi.zip ni, nbits p.2 + 1 < 2 ^ 31) :
    ∃ r, nupowInterleaved ops fi ni w = some r ∧
      cls r = ((fi.zip ni).map fun p => cls p.1 ^ p.2).prod := by
  choose digits hwnaf hvalue hdigits hlength _ using fun n : ℤ => wnaf_spec n hw hw'
  have hentry : ∀ p ∈ fi.zip ni, interleaveEntry ops w p =
      some (oddPowers ops p.1 (ops.nudupl p.1) (2 ^ (w - 2)), digits p.2) := by
    intro p _
    rw [interleaveEntry, hwnaf]
    rfl
  have hguard : ¬ (fi = [] ∨ ni.length < fi.length ∨ 2 ^ 32 ≤ fi.length) :=
    not_or.mpr ⟨hne, not_or.mpr ⟨not_lt.mpr hlen, not_le.mpr hcount⟩⟩
  unfold nupowInterleaved
  rw [if_neg hguard, mapM_eq_some_map _ hentry, Option.bind_some]
  generalize fi.zip ni = pairs at *
  dsimp only
  rw [List.map_map]
  have hbiggest : (pairs.map fun p => (digits p.2).length).foldr max 0 < 2 ^ 31 := by
    refine biggest_lt fun l hl => ?_
    obtain ⟨p, hp, rfl⟩ := List.mem_map.mp hl
    exact (hlength p.2).trans_lt (hbits p hp)
  have hlengths : ∀ p ∈ pairs, (digits p.2).length ≤
      (pairs.map fun p => (digits p.2).length).foldr max 0 + 1 := fun p hp =>
    (List.le_max_of_le' 0 (List.mem_map_of_mem (f := fun p : Q × Mpz => (digits p.2).length) hp)
      le_rfl).trans (Nat.le_succ _)
  obtain ⟨r, hr, hcls⟩ := interleaveRounds_spec h hw Prod.fst (fun p => digits p.2) pairs
    (fun p _ => hdigits p.2) hlengths
  refine ⟨r, ?_, by simpa only [hvalue] using hcls⟩
  rw [← hr, ← foldl_countdown]
  congr 2
  exact int32_of_lt (by omega) (by exact_mod_cast hbiggest)

end

namespace ClassGroup

variable {cl : ClassGroup}

theorem toClass_foldl_nucomp (E : Euclid) (powers : List cl.Elt) (x : cl.Elt) :
    (powers.foldl (nucompElt E · · false) x).toClass = x.toClass * (powers.map Elt.toClass).prod := by
  induction powers generalizing x with
  | nil => simp
  | cons p powers ih =>
    rw [List.foldl_cons, ih, toClass_nucomp, List.map_cons, List.prod_cons, ← mul_assoc]
    rfl

end ClassGroup

end RfClassGroups.Bicycl
