import RfClassGroups.Config
import RfClassGroups.Lib.Dft
import RfClassGroups.Lib.Loops
import RfClassGroups.Mpz

/-! The built-in number-theoretic transform modulo the fixed 128-bit prime.
The caches of roots and public points only store what the functions below
compute, so the functions are pure. -/

open CoeffList ExceptList Loops

namespace RfClassGroups

def cgNtt128Prime : ℕ := 170141183460469232709364739622490341377

def isPowerOfTwoSize (n : ℕ) : Bool := n != 0 && n &&& (n - 1) == 0

def nextPowerOfTwoLoop (n k : ℕ) : Except String ℕ :=
  if 2 ^ k < n then
    if h : 2 ^ 63 - 1 < 2 ^ k then throw "next_power_of_two_size: size overflow"
    else nextPowerOfTwoLoop n (k + 1)
  else return 2 ^ k
termination_by 63 - k
decreasing_by
  have hk : k < 63 := by
    by_contra hk
    have hle := Nat.pow_le_pow_right two_pos (not_lt.mp hk)
    omega
  omega

def nextPowerOfTwoSize (n : ℕ) : Except String ℕ :=
  if n ≤ 1 then return 1 else nextPowerOfTwoLoop n 0

def nttRuntimeEnabled (env : Env) : Bool := env.text "CG_USE_NTT_POLY" != some "0"

def isNtt128Prime (q : Mpz) : Bool := q == cgNtt128Prime

def nttDomainSupported (env : Env) (q : Mpz) (n : ℕ) : Bool :=
  nttRuntimeEnabled env && isNtt128Prime q && isPowerOfTwoSize n

def nttPrimitiveRoot (env : Env) (n : ℕ) (q : Mpz) : Except String Mpz :=
  if !nttDomainSupported env q n then
    throw "ntt_primitive_root: unsupported q or domain size"
  else if n = 1 then return 1
  else
    let root := powMod 3 ((q - 1) / n) q
    if powMod root n q ≠ 1 then throw "ntt_primitive_root: root order check failed"
    else if powMod root ((n / 2 : ℕ) : Mpz) q = 1 then
      throw "ntt_primitive_root: non-primitive root"
    else return root

def nttDomainPoints (env : Env) (n : ℕ) (q : Mpz) : Except String (List Mpz) :=
  if n = 0 then return []
  else do
    let omega ← nttPrimitiveRoot env n q
    return List.iterate (fun p => p * omega % q) 1 n

/-- `for (; j & bit; bit >>= 1) j ^= bit; j ^= bit;` -/
def bitReverseCarry (j bit : ℕ) : ℕ :=
  if _h : j &&& bit ≠ 0 then bitReverseCarry (j ^^^ bit) (bit >>> 1) else j ^^^ bit
termination_by bit
decreasing_by
  have hb : bit ≠ 0 := fun hb => _h (by rw [hb, Nat.and_zero])
  rw [Nat.shiftRight_one]
  omega

def swapAt (a : List Mpz) (i j : ℕ) : List Mpz := (a.set i (a.getD j 0)).set j (a.getD i 0)

def bitReverseStep (n : ℕ) (s : List Mpz × ℕ) (i : ℕ) : List Mpz × ℕ :=
  let j := bitReverseCarry s.2 (n >>> 1)
  (if i < j then swapAt s.1 i j else s.1, j)

def bitReversePermute (a : List Mpz) : List Mpz :=
  ((List.range' 1 (a.length - 1)).foldl (bitReverseStep a.length) (a, 0)).1

def butterflyStep (q wlen : Mpz) (half i : ℕ) (s : List Mpz × Mpz) (j : ℕ) : List Mpz × Mpz :=
  let u := s.1.getD (i + j) 0
  let v := s.1.getD (i + j + half) 0 * s.2 % q
  ((s.1.set (i + j) ((u + v) % q)).set (i + j + half) ((u - v) % q), s.2 * wlen % q)

def butterflyBlock (q wlen : Mpz) (half : ℕ) (a : List Mpz) (i : ℕ) : List Mpz :=
  ((List.range half).foldl (butterflyStep q wlen half i) (a, 1)).1

def nttStageRoot (env : Env) (q : Mpz) (inverse : Bool) (len : ℕ) : Except String Mpz := do
  let wlen ← nttPrimitiveRoot env len q
  if inverse then modInverse wlen q else return wlen

def nttStage (env : Env) (q : Mpz) (inverse : Bool) (a : List Mpz) (len : ℕ) :
    Except String (List Mpz) := do
  let wlen ← nttStageRoot env q inverse len
  return (strided a.length len).foldl (butterflyBlock q wlen (len / 2)) a

/-- `len` runs through `2, 4, …` up to the length of the vector. -/
def nttInplace (env : Env) (a : List Mpz) (q : Mpz) (inverse : Bool) :
    Except String (List Mpz) :=
  if !nttDomainSupported env q a.length then
    throw "ntt_inplace: unsupported q or non-power-of-two size"
  else do
    let out ← (List.range a.length.log2).foldlM
      (fun a s => nttStage env q inverse a (2 ^ (s + 1))) (bitReversePermute a)
    if inverse then
      let nInv ← modInverse a.length q
      return out.map fun x => x * nInv % q
    else return out

def nttPolyThreshold (env : Env) : Except String ℕ :=
  match env.text "CG_NTT_POLY_THRESHOLD" with
  | some value => cgParseSize env (some value) "polynomial threshold" true 0
  | none => return 512

theorem isPowerOfTwoSize_iff {n : ℕ} : isPowerOfTwoSize n = true ↔ ∃ k, n = 2 ^ k := by
  rw [isPowerOfTwoSize, Bool.and_eq_true, bne_iff_ne, beq_iff_eq,
    Nat.ne_zero_and_sub_one_eq_zero_iff_isPowerOfTwo]
  rfl

theorem nttDomainSupported_iff {env : Env} {q : Mpz} {n : ℕ} :
    nttDomainSupported env q n = true ↔
      nttRuntimeEnabled env = true ∧ q = cgNtt128Prime ∧ ∃ k, n = 2 ^ k := by
  rw [nttDomainSupported, Bool.and_eq_true, Bool.and_eq_true, isPowerOfTwoSize_iff,
    isNtt128Prime, beq_iff_eq, and_assoc]

theorem nextPowerOfTwoSize_ok {n p : ℕ} (h : nextPowerOfTwoSize n = .ok p) :
    n ≤ p ∧ ∃ k, p = 2 ^ k := by
  have hloop : ∀ k, nextPowerOfTwoLoop n k = .ok p → n ≤ p ∧ ∃ k, p = 2 ^ k := by
    intro k
    induction k using nextPowerOfTwoLoop.induct n with
    | case1 k hlt hmax =>
      intro h
      rw [nextPowerOfTwoLoop, if_pos hlt, dif_pos hmax] at h
      simp at h
    | case2 k hlt hmax ih =>
      intro h
      rw [nextPowerOfTwoLoop, if_pos hlt, dif_neg hmax] at h
      exact ih h
    | case3 k hge =>
      intro h
      rw [nextPowerOfTwoLoop, if_neg hge] at h
      simp only [pure_eq_ok, Except.ok.injEq] at h
      exact ⟨by omega, k, h.symm⟩
  unfold nextPowerOfTwoSize at h
  split at h
  · simp only [pure_eq_ok, Except.ok.injEq] at h
    exact ⟨by omega, 0, h.symm⟩
  · exact hloop 0 h

theorem nextPowerOfTwoSize_exists {n : ℕ} (hn : n ≤ 2 ^ 63) :
    ∃ k ≤ 63, nextPowerOfTwoSize n = .ok (2 ^ k) := by
  have hloop : ∀ k ≤ 63, ∃ k' ≤ 63, nextPowerOfTwoLoop n k = .ok (2 ^ k') := by
    intro k
    induction k using nextPowerOfTwoLoop.induct n with
    | case1 k hlt hmax =>
      intro hk
      omega
    | case2 k hlt hmax ih =>
      intro hk
      rw [nextPowerOfTwoLoop, if_pos hlt, dif_neg hmax]
      refine ih ?_
      by_contra hk'
      have h63 : k = 63 := by omega
      subst h63
      omega
    | case3 k hge =>
      intro hk
      rw [nextPowerOfTwoLoop, if_neg hge]
      exact ⟨k, hk, rfl⟩
  unfold nextPowerOfTwoSize
  split
  · exact ⟨0, Nat.zero_le _, rfl⟩
  · exact hloop 0 (Nat.zero_le _)

end RfClassGroups
