import Mathlib.Algebra.Order.Group.Nat
import RfClassGroups.Lib.ExceptList

/-! Environment variables and the integer configuration parsers. A process
never changes its own environment while the protocol code runs, so it is a
fixed argument of the functions that read it. -/

open ExceptList

namespace RfClassGroups

abbrev Env := String → Option String

def Env.text (env : Env) (name : String) : Option String :=
  (env name).filter (fun s => !s.isEmpty)

def decimalValue (cs : List Char) : ℕ :=
  cs.foldl (fun acc c => 10 * acc + (c.toNat - 48)) 0

/-- `strtoull` accepts the whole text exactly when it consists of digits and
its value fits 64 bits. -/
def cgParseU64 (value : Option String) (name : String) : Except String ℕ :=
  match value.map String.toList with
  | none | some [] => throw ("invalid unsigned integer: " ++ name)
  | some (c :: cs) =>
    if c < '0' ∨ '9' < c then throw ("invalid unsigned integer: " ++ name)
    else if (c :: cs).all Char.isDigit ∧ decimalValue (c :: cs) < 2 ^ 64 then
      return decimalValue (c :: cs)
    else throw ("invalid or overflowing unsigned integer: " ++ name)

def cgMaxItems (env : Env) : Except String ℕ := do
  let limit ← match env.text "CG_MAX_ITEMS" with
    | some value => cgParseU64 (some value) "CG_MAX_ITEMS"
    | none => pure (2 ^ 20)
  if limit = 0 ∨ 2 ^ 24 < limit then throw "CG_MAX_ITEMS must be in [1,16777216]"
  return limit

/-- `maximum = 0` stands for the item limit. -/
def cgParseSize (env : Env) (value : Option String) (name : String) (allowZero : Bool)
    (maximum : ℕ) : Except String ℕ := do
  let n ← cgParseU64 value name
  if !allowZero && n == 0 then throw ("out-of-range count: " ++ name)
  let bound ← if maximum = 0 then cgMaxItems env else pure maximum
  if bound < n then throw ("out-of-range count: " ++ name)
  return n

def cgConfigSize (env : Env) (name : String) (fallback maximum : ℕ) (allowZero : Bool) :
    Except String ℕ :=
  match env.text name with
  | some value => cgParseSize env (some value) name allowZero maximum
  | none => return fallback

def cgCheckedAdd (env : Env) (a b : ℕ) : Except String ℕ := do
  let limit ← cgMaxItems env
  if limit < a ∨ limit - a < b then throw "combined item count exceeds CG_MAX_ITEMS"
  return a + b

def cgValidateCount (env : Env) (n : ℕ) (allowZero : Bool) : Except String Unit := do
  if !allowZero && n == 0 then throw "item count outside CG_MAX_ITEMS"
  let limit ← cgMaxItems env
  if limit < n then throw "item count outside CG_MAX_ITEMS"

section

variable {env : Env}

theorem cgMaxItems_le {limit : ℕ} (h : cgMaxItems env = .ok limit) :
    limit ≤ 2 ^ 24 := by
  unfold cgMaxItems at h
  simp only [] at h
  split at h
  · obtain ⟨n, _, h⟩ := bind_eq_ok.mp h
    split at h
    · simp at h
    · simp only [pure_eq_ok, Except.ok.injEq] at h
      omega
  · rw [pure_eq_ok, ok_bind, if_neg (by decide), pure_eq_ok, Except.ok.injEq] at h
    omega

theorem cgValidateCount_ok {n : ℕ} : cgValidateCount env n false = .ok () ↔
    0 < n ∧ ∃ limit, cgMaxItems env = .ok limit ∧ n ≤ limit := by
  unfold cgValidateCount
  constructor
  · intro h
    split at h
    · simp at h
    next hpos =>
    obtain ⟨limit, hlimit, h⟩ := bind_eq_ok.mp h
    split at h
    · simp at h
    next hle => exact ⟨Nat.pos_of_ne_zero (by simpa using hpos), limit, hlimit, not_lt.mp hle⟩
  · rintro ⟨hpos, limit, hlimit, hle⟩
    rw [if_neg (by simp; omega), hlimit]
    simp only [pure_eq_ok, ok_bind, if_neg (not_lt.mpr hle)]

theorem cgValidateCount_zero_ok {n : ℕ} : cgValidateCount env n true = .ok () ↔
    ∃ limit, cgMaxItems env = .ok limit ∧ n ≤ limit := by
  rw [cgValidateCount]
  simp only [Bool.not_true, Bool.false_and, Bool.false_eq_true, if_false, bind_eq_ok]
  refine exists_congr fun limit => and_congr_right fun _ => ?_
  split
  · next hlt => simpa using hlt
  · next hle => simpa using hle

theorem cgCheckedAdd_ok_iff {a b s : ℕ} : cgCheckedAdd env a b = .ok s ↔
    s = a + b ∧ ∃ limit, cgMaxItems env = .ok limit ∧ a + b ≤ limit := by
  rw [cgCheckedAdd, bind_eq_ok]
  constructor
  · rintro ⟨limit, hlimit, h⟩
    split at h
    · cases h
    · next hle =>
      cases h
      exact ⟨rfl, limit, hlimit, by omega⟩
  · rintro ⟨rfl, limit, hlimit, hle⟩
    refine ⟨limit, hlimit, ?_⟩
    rw [if_neg (by omega)]
    rfl

theorem cgCheckedAdd_ok {a b s : ℕ} (h : cgCheckedAdd env a b = .ok s) : s = a + b :=
  (cgCheckedAdd_ok_iff.mp h).1

theorem cgConfigSize_pos {name : String} {fallback maximum v : ℕ} (hf : 0 < fallback)
    (h : cgConfigSize env name fallback maximum false = .ok v) : 0 < v := by
  have hparse : ∀ value, cgParseSize env value name false maximum = .ok v → 0 < v := by
    intro value h
    obtain ⟨m, _, h⟩ := bind_eq_ok.mp h
    by_cases hm : m = 0
    · simp [hm] at h
    · rw [if_neg (by simpa using hm)] at h
      have hlast : ∀ bound : ℕ, (if bound < m then throw ("out-of-range count: " ++ name)
          else pure m : Except String ℕ) = .ok v → m = v := by
        intro bound h
        split at h
        · simp at h
        · simpa using h
      have hv : m = v := by
        dsimp only at h
        split at h
        · obtain ⟨bound, _, h⟩ := bind_eq_ok.mp h
          exact hlast bound h
        · exact hlast maximum h
      exact hv ▸ Nat.pos_of_ne_zero hm
  unfold cgConfigSize at h
  split at h
  · exact hparse _ h
  · simp only [pure_eq_ok, Except.ok.injEq] at h
    exact h ▸ hf

theorem cgConfigSize_le {name : String} {fallback maximum v : ℕ} (hm : 0 < maximum)
    (hf : fallback ≤ maximum) (h : cgConfigSize env name fallback maximum false = .ok v) :
    v ≤ maximum := by
  unfold cgConfigSize at h
  split at h
  · obtain ⟨m, _, h⟩ := bind_eq_ok.mp h
    simp only [Nat.ne_of_gt hm, if_false, pure_eq_ok, ok_bind] at h
    split at h
    · simp at h
    split at h
    · simp at h
    next hle =>
    simp only [Except.ok.injEq] at h
    exact h ▸ not_lt.mp hle
  · simp only [pure_eq_ok, Except.ok.injEq] at h
    exact h ▸ hf

theorem cgParseU64_lt {value : Option String} {name : String} {v : ℕ}
    (h : cgParseU64 value name = .ok v) : v < 2 ^ 64 := by
  unfold cgParseU64 at h
  split at h
  · cases h
  · cases h
  · split at h
    · cases h
    · split at h
      · next hlt =>
        cases h
        exact hlt.2
      · cases h

theorem cgConfigSize_lt {name : String} {fallback maximum v : ℕ} {allowZero : Bool}
    (hf : fallback < 2 ^ 64) (h : cgConfigSize env name fallback maximum allowZero = .ok v) :
    v < 2 ^ 64 := by
  unfold cgConfigSize at h
  split at h
  · obtain ⟨m, hm, h⟩ := bind_eq_ok.mp h
    have hlt := cgParseU64_lt hm
    have hlast : ∀ bound : ℕ, (if bound < m then throw ("out-of-range count: " ++ name)
        else pure m : Except String ℕ) = .ok v → m = v := by
      intro bound h
      split at h
      · simp at h
      · simpa using h
    dsimp only at h
    split at h
    · cases h
    · split at h
      · obtain ⟨bound, _, h⟩ := bind_eq_ok.mp h
        exact hlast bound h ▸ hlt
      · exact hlast maximum h ▸ hlt
  · cases h
    exact hf

end

end RfClassGroups
