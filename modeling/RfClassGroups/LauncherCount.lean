import RfClassGroups.BenchIo
import RfClassGroups.PublicPoints

/-! The launcher counts the OPA points in shell arithmetic, on the texts of the
configuration; the endpoints count them from the parsed modulus. -/

open ExceptList

namespace RfClassGroups

/-- `${name:-fallback}` -/
def Env.shellText (env : Env) (name fallback : String) : String := (env.text name).getD fallback

def fixedQText : String := "170141183460469232709364739622490341377"

/-- Shell arithmetic is on 64-bit integers. -/
def shellInt (n : ℤ) : ℤ := Int.bmod n (2 ^ 64)

/-- `none` when the rounds run out. -/
def nextPowerOfTwoShell (n : ℤ) : ℕ → ℤ → Option ℤ
  | 0, p => if p < n then none else some p
  | rounds + 1, p => if p < n then nextPowerOfTwoShell n rounds (shellInt (p * 2)) else some p

/-- `none` for a loop that does not end: after 64 doublings the number is zero. -/
def nextPowerOfTwo (n : ℤ) : Option ℤ := nextPowerOfTwoShell n 64 1

def rfPsiExpectedOpaPoints (env : Env) (setSize : ℕ) : Option ℤ :=
  let raw := shellInt (2 * setSize + 1)
  if env.shellText "CG_USE_NTT_POLY" "1" ≠ "0" ∧ env.shellText "CG_FIXED_Q" fixedQText = fixedQText then
    nextPowerOfTwo raw
  else some raw

theorem shellInt_of_small {n : ℕ} (hn : n < 2 ^ 63) : shellInt n = n := by
  rw [shellInt]
  exact Int.bmod_eq_of_le (by omega) (by omega)

/-- The shell's loop returns what the loop of the endpoints returns. -/
theorem nextPowerOfTwoShell_loop {n p : ℕ} {k rounds : ℕ} (hk : 63 ≤ k + rounds) (hk' : k ≤ 62)
    (hn : n ≤ 2 ^ 62) (h : nextPowerOfTwoLoop n k = .ok p) :
    nextPowerOfTwoShell n rounds ((2 ^ k : ℕ) : ℤ) = some (p : ℤ) := by
  induction rounds generalizing k with
  | zero => omega
  | succ rounds ih =>
    rw [nextPowerOfTwoLoop] at h
    by_cases hlt : 2 ^ k < n
    · have hlt62 : k < 62 := (Nat.pow_lt_pow_iff_right (by decide : 1 < 2)).mp (hlt.trans_le hn)
      have hmax : ¬ 2 ^ 63 - 1 < 2 ^ k := by omega
      have hnext : shellInt (((2 ^ k : ℕ) : ℤ) * 2) = ((2 ^ (k + 1) : ℕ) : ℤ) := by
        have hsmall := shellInt_of_small (n := 2 ^ (k + 1))
          (Nat.pow_lt_pow_right (by decide) (by omega))
        rwa [pow_succ, Nat.cast_mul] at hsmall ⊢
      rw [if_pos hlt, dif_neg hmax] at h
      rw [nextPowerOfTwoShell, if_pos (by exact_mod_cast hlt), hnext]
      exact ih (by omega) (by omega) h
    · rw [if_neg hlt] at h
      simp only [pure_eq_ok, Except.ok.injEq] at h
      rw [nextPowerOfTwoShell, if_neg (by exact_mod_cast hlt), h]

theorem nextPowerOfTwo_eq {n p : ℕ} (h1 : 1 < n) (hn : n ≤ 2 ^ 62)
    (h : nextPowerOfTwoSize n = .ok p) : nextPowerOfTwo n = some (p : ℤ) := by
  rw [nextPowerOfTwoSize, if_neg (by omega)] at h
  exact nextPowerOfTwoShell_loop (k := 0) (by omega) (by omega) hn h

theorem mpzOfText_fixedQText : mpzOfText fixedQText.toList = .ok (cgNtt128Prime : ℤ) := by
  have htext : fixedQText.toList = mpzText (cgNtt128Prime : ℤ) := by decide
  rw [htext, mpzOfText_mpzText]

theorem shellText_ne_zero {env : Env} :
    env.shellText "CG_USE_NTT_POLY" "1" ≠ "0" ↔ nttRuntimeEnabled env = true := by
  rw [nttRuntimeEnabled, bne_iff_ne, Env.shellText]
  cases env.text "CG_USE_NTT_POLY" with
  | none => simp
  | some value => simp

theorem rfPsiExpectedOpaPoints_round {env : Env} {setSize p : ℕ} (hN : 1 ≤ setSize)
    (hn : 2 * setSize + 1 ≤ 2 ^ 24) (hp : nextPowerOfTwoSize (2 * setSize + 1) = .ok p) :
    rfPsiExpectedOpaPoints env setSize =
      if nttRuntimeEnabled env = true ∧ env.shellText "CG_FIXED_Q" fixedQText = fixedQText
      then some (p : ℤ) else some ((2 * setSize + 1 : ℕ) : ℤ) := by
  have hraw : shellInt (2 * setSize + 1) = ((2 * setSize + 1 : ℕ) : ℤ) :=
    shellInt_of_small (n := 2 * setSize + 1) (by omega)
  rw [rfPsiExpectedOpaPoints, hraw, nextPowerOfTwo_eq (by omega) (by omega) hp]
  simp only [shellText_ne_zero]

theorem psiOpaPointCount_round {env : Env} {d p : ℕ} (q : Mpz) (hraw : cgValidateCount env d false = .ok ())
    (hp : nextPowerOfTwoSize d = .ok p) (hround : cgValidateCount env p false = .ok ()) :
    psiOpaPointCount env d q =
      .ok (if nttRuntimeEnabled env = true ∧ q = cgNtt128Prime then p else d) := by
  rw [psiOpaPointCount, hraw, ok_bind]
  by_cases hntt : nttRuntimeEnabled env = true ∧ q = cgNtt128Prime
  · rw [if_pos hntt, if_pos (by simp [isNtt128Prime, hntt]), hp, ok_bind, hround, ok_bind]
    rfl
  · rw [if_neg hntt, if_neg (by simpa [isNtt128Prime] using hntt)]
    rfl

/-- The launcher counts the points of the endpoints exactly when a modulus equal to
the fixed prime is also written as the launcher writes it. -/
theorem rfPsiExpectedOpaPoints_agrees {env : Env} {setSize p : ℕ} {q : Mpz} (hN : 1 ≤ setSize)
    (hq : mpzOfText (env.shellText "CG_FIXED_Q" fixedQText).toList = .ok q)
    (hraw : cgValidateCount env (2 * setSize + 1) false = .ok ())
    (hp : nextPowerOfTwoSize (2 * setSize + 1) = .ok p)
    (hround : cgValidateCount env p false = .ok ()) :
    (∃ count : ℕ, rfPsiExpectedOpaPoints env setSize = some (count : ℤ) ∧
        psiOpaPointCount env (2 * setSize + 1) q = .ok count) ↔
      env.text "CG_USE_NTT_POLY" = some "0" ∨
        env.shellText "CG_FIXED_Q" fixedQText = fixedQText ∨ q ≠ cgNtt128Prime := by
  obtain ⟨_, limit, hlimit, hle⟩ := cgValidateCount_ok.mp hraw
  have hmax := hle.trans (cgMaxItems_le hlimit)
  rw [rfPsiExpectedOpaPoints_round hN hmax hp, psiOpaPointCount_round q hraw hp hround]
  have hmode : env.text "CG_USE_NTT_POLY" = some "0" ↔ ¬ nttRuntimeEnabled env = true := by
    rw [nttRuntimeEnabled, bne_iff_ne, not_not]
  have hprime : env.shellText "CG_FIXED_Q" fixedQText = fixedQText → q = cgNtt128Prime := by
    intro htext
    rw [htext, mpzOfText_fixedQText] at hq
    exact (Except.ok.inj hq).symm
  -- the raw count is odd, so rounding it up changes it
  have hodd : p ≠ 2 * setSize + 1 := by
    intro heq
    obtain ⟨_, k, hk⟩ := nextPowerOfTwoSize_ok hp
    cases k with
    | zero => omega
    | succ k => omega
  rw [hmode]
  by_cases hntt : nttRuntimeEnabled env = true
  · by_cases htext : env.shellText "CG_FIXED_Q" fixedQText = fixedQText
    · simp [hntt, htext, hprime htext]
    · by_cases heq : q = cgNtt128Prime
      · simp [hntt, htext, heq]
        omega
      · simp [hntt, htext, heq]
  · simp [hntt]

theorem nextPowerOfTwoSize_three : nextPowerOfTwoSize 3 = .ok 4 := by
  rw [nextPowerOfTwoSize, if_neg (by decide), nextPowerOfTwoLoop, if_pos (by decide),
    dif_neg (by decide), nextPowerOfTwoLoop, if_pos (by decide), dif_neg (by decide),
    nextPowerOfTwoLoop, if_neg (by decide)]
  rfl

theorem rfPsiExpectedOpaPoints_agrees_unset :
    ∃ count : ℕ, rfPsiExpectedOpaPoints (fun _ => none) 1 = some (count : ℤ) ∧
      psiOpaPointCount (fun _ => none) 3 cgNtt128Prime = .ok count :=
  (@rfPsiExpectedOpaPoints_agrees (fun _ => none) 1 4 cgNtt128Prime (le_refl 1) mpzOfText_fixedQText rfl
    nextPowerOfTwoSize_three rfl).mpr (.inr (.inl rfl))

def hexEnv : Env := fun name =>
  if name = "CG_FIXED_Q" then some "0x80000000000000350000000000000001" else none

/-- The fixed prime in hexadecimal. -/
theorem rfPsiExpectedOpaPoints_hex :
    mpzOfText (hexEnv.shellText "CG_FIXED_Q" fixedQText).toList = .ok (cgNtt128Prime : ℤ) ∧
      cgValidateCount hexEnv 3 false = .ok () ∧ cgValidateCount hexEnv 4 false = .ok () ∧
      rfPsiExpectedOpaPoints hexEnv 1 = some 3 ∧ psiOpaPointCount hexEnv 3 cgNtt128Prime = .ok 4 := by
  refine ⟨by rfl, by rfl, by rfl, by decide, ?_⟩
  rw [psiOpaPointCount_round _ rfl nextPowerOfTwoSize_three rfl]
  rfl

end RfClassGroups
