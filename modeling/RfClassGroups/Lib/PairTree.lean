import Mathlib.Data.List.GetD
import RfClassGroups.Lib.Chunk
import RfClassGroups.Lib.ExceptList

/-! A binary tree built level by level from a list: neighbours are combined by
a fallible product and an unpaired last node is carried up. -/

open ExceptList

namespace PairTree

section

variable {ε α : Type*} (mul : α → α → Except ε α) (d : α)

def next (prev : List α) : Except ε (List α) :=
  (List.range ((prev.length + 1) / 2)).mapM fun i =>
    if 2 * i + 1 < prev.length then mul (prev.getD (2 * i) d) (prev.getD (2 * i + 1) d)
    else return prev.getD (2 * i) d

def levels (prev : List α) : Except ε (List (List α)) :=
  if _h : 1 < prev.length then
    match _hn : next mul d prev with
    | .error e => throw e
    | .ok row => do
      let rest ← levels row
      return prev :: rest
  else return [prev]
termination_by prev.length
decreasing_by
  have hl := mapM_length _hn
  rw [List.length_range] at hl
  omega

/-- Consecutive levels from `first` up to the first one that is not wider than
one node. -/
structure IsLevels (first : List α) (ls : List (List α)) : Prop where
  pos : 0 < ls.length
  first_eq : ls.getD 0 [] = first
  step : ∀ k, k + 1 < ls.length → next mul d (ls.getD k []) = .ok (ls.getD (k + 1) [])
  wide : ∀ k, k + 1 < ls.length → 1 < (ls.getD k []).length
  top : (ls.getD (ls.length - 1) []).length ≤ 1

end

section

variable {ε α : Type*} {mul : α → α → Except ε α} {d : α}

theorem next_length {prev row : List α} (h : next mul d prev = .ok row) :
    row.length = (prev.length + 1) / 2 := by
  rw [mapM_length h, List.length_range]

theorem next_getD {prev row : List α} (h : next mul d prev = .ok row) {i : ℕ}
    (hi : i < row.length) :
    (2 * i + 1 < prev.length ∧
      mul (prev.getD (2 * i) d) (prev.getD (2 * i + 1) d) = .ok (row.getD i d)) ∨
    (2 * i + 1 = prev.length ∧ row.getD i d = prev.getD (2 * i) d) := by
  have hlen := next_length h
  have hstep := mapM_range_getElem h i hi
  rw [List.getD_eq_getElem row d hi]
  by_cases hr : 2 * i + 1 < prev.length
  · rw [if_pos hr] at hstep
    exact .inl ⟨hr, hstep⟩
  · rw [if_neg hr, pure_eq_ok, Except.ok.injEq] at hstep
    exact .inr ⟨by omega, hstep.symm⟩

theorem isLevels_singleton {prev : List α} (h : prev.length ≤ 1) : IsLevels mul d prev [prev] where
  pos := Nat.one_pos
  first_eq := rfl
  step := fun k hk => by simp at hk
  wide := fun k hk => by simp at hk
  top := h

theorem IsLevels.cons {prev row : List α} {rest : List (List α)} (hlt : 1 < prev.length)
    (hn : next mul d prev = .ok row) (h : IsLevels mul d row rest) :
    IsLevels mul d prev (prev :: rest) where
  pos := Nat.succ_pos _
  first_eq := rfl
  step := fun k hk => by
    cases k with
    | zero => simpa only [List.getD_cons_zero, List.getD_cons_succ, h.first_eq] using hn
    | succ k => simpa only [List.getD_cons_succ] using h.step k (Nat.lt_of_succ_lt_succ hk)
  wide := fun k hk => by
    cases k with
    | zero => exact hlt
    | succ k => simpa only [List.getD_cons_succ] using h.wide k (Nat.lt_of_succ_lt_succ hk)
  top := by
    obtain ⟨m, hm⟩ : ∃ m, rest.length = m + 1 := ⟨rest.length - 1, by have := h.pos; omega⟩
    have htop := h.top
    rw [hm, Nat.add_sub_cancel] at htop
    rwa [List.length_cons, hm, Nat.add_sub_cancel, List.getD_cons_succ]

theorem levels_ok {first : List α} {ls : List (List α)} (h : levels mul d first = .ok ls) :
    IsLevels mul d first ls := by
  induction hn : first.length using Nat.strong_induction_on generalizing first ls with
  | _ n ih =>
    rw [levels] at h
    split at h
    · next hlt =>
      split at h
      · simp at h
      next row hrow =>
      obtain ⟨rest, hrest, h⟩ := bind_eq_ok.mp h
      rw [pure_eq_ok, Except.ok.injEq] at h
      subst h
      have hlen := next_length hrow
      exact (ih _ (by omega) hrest rfl).cons hlt hrow
    · next hle =>
      rw [pure_eq_ok, Except.ok.injEq] at h
      subst h
      exact isLevels_singleton (not_lt.mp hle)

/-- Sizes halve, rounded up, from level to level. -/
theorem IsLevels.length_eq {first : List α} {ls : List (List α)} (h : IsLevels mul d first ls)
    {k : ℕ} (hk : k < ls.length) : (ls.getD k []).length = Chunk.size first.length k := by
  induction k with
  | zero => rw [h.first_eq, Chunk.size]
  | succ k ih => rw [next_length (h.step k hk), ih (by omega), Chunk.size]

theorem IsLevels.top_eq_one {first : List α} {ls : List (List α)} (h : IsLevels mul d first ls)
    (hf : first ≠ []) : (ls.getD (ls.length - 1) []).length = 1 := by
  have hpos := h.pos
  refine le_antisymm h.top ?_
  rw [h.length_eq (by omega), Nat.succ_le_iff, Chunk.lt_size_iff, zero_mul]
  exact List.length_pos_iff.mpr hf

/-- A node without a right neighbour goes up as it is. -/
theorem IsLevels.carried {first : List α} {ls : List (List α)} (h : IsLevels mul d first ls)
    {k i : ℕ} (hk : k + 1 < ls.length) (hi : 2 * i + 1 = (ls.getD k []).length) :
    (ls.getD (k + 1) []).getD i d = (ls.getD k []).getD (2 * i) d := by
  have hlen := next_length (h.step k hk)
  rcases next_getD (h.step k hk) (i := i) (by omega) with ⟨hlt, _⟩ | ⟨_, he⟩
  · omega
  · exact he

end

section

variable {ε α : Type*} {mul : α → α → Except ε α} {d : α}

/-- A property of the nodes, by level and index, that the leaves have and the
two ways of forming a node keep. -/
structure Preserved (mul : α → α → Except ε α) (n : ℕ) (P : ℕ → ℕ → α → Prop) : Prop where
  pair : ∀ k i a b c, P k (2 * i) a → P k (2 * i + 1) b → mul a b = .ok c → P (k + 1) i c
  carry : ∀ k i a, Chunk.size n k = 2 * i + 1 → P k (2 * i) a → P (k + 1) i a

variable {P : ℕ → ℕ → α → Prop}

theorem Preserved.next {n k : ℕ} (hP : Preserved mul n P) {prev row : List α}
    (hlen : prev.length = Chunk.size n k) (hprev : ∀ i < prev.length, P k i (prev.getD i d))
    (h : next mul d prev = .ok row) : ∀ i < row.length, P (k + 1) i (row.getD i d) := by
  intro i hi
  have hl := next_length h
  rcases next_getD h hi with ⟨hr, hmul⟩ | ⟨hr, he⟩
  · exact hP.pair k i _ _ _ (hprev _ (by omega)) (hprev _ hr) hmul
  · rw [he]
    exact hP.carry k i _ (hlen.symm.trans hr.symm) (hprev _ (by omega))

/-- The run lemma: a preserved property of the leaves holds of every node. -/
theorem IsLevels.node {first : List α} {ls : List (List α)} (h : IsLevels mul d first ls)
    (hP : Preserved mul first.length P) (hleaf : ∀ i < first.length, P 0 i (first.getD i d))
    {k : ℕ} (hk : k < ls.length) :
    ∀ i < (ls.getD k []).length, P k i ((ls.getD k []).getD i d) := by
  induction k with
  | zero =>
    rw [h.first_eq]
    exact hleaf
  | succ k ih => exact hP.next (h.length_eq (by omega)) (ih (by omega)) (h.step k hk)

/-- The levels exist where the products of neighbours do. -/
theorem levels_exists {n : ℕ} (hP : Preserved mul n P)
    (hmul : ∀ k i a b, P k (2 * i) a → P k (2 * i + 1) b → ∃ c, mul a b = .ok c)
    {k : ℕ} {prev : List α} (hlen : prev.length = Chunk.size n k)
    (hprev : ∀ i < prev.length, P k i (prev.getD i d)) : ∃ ls, levels mul d prev = .ok ls := by
  induction hm : prev.length using Nat.strong_induction_on generalizing prev k with
  | _ m ih =>
    rw [levels]
    by_cases hlt : 1 < prev.length
    · obtain ⟨row, hrow⟩ : ∃ row, next mul d prev = .ok row := by
        refine mapM_exists fun i hi => ?_
        by_cases hr : 2 * i + 1 < prev.length
        · rw [if_pos hr]
          exact hmul k i _ _ (hprev _ (by omega)) (hprev _ hr)
        · rw [if_neg hr]
          exact ⟨_, rfl⟩
      have hl := next_length hrow
      obtain ⟨rest, hrest⟩ := ih _ (by omega) (by rw [hl, hlen, Chunk.size])
        (hP.next hlen hprev hrow) rfl
      rw [dif_pos hlt]
      refine ⟨prev :: rest, ?_⟩
      split
      · next e he => simp [hrow] at he
      · next row' he =>
        obtain rfl : row = row' := by simpa [hrow] using he
        rw [hrest]
        rfl
    · rw [dif_neg hlt]
      exact ⟨_, rfl⟩

end

end PairTree
