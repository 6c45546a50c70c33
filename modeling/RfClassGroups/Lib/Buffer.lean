import Mathlib.Data.List.GetD
import Mathlib.Tactic.SplitIfs

/-! Buffers that a loop fills: which entries come from the stream that is written
and which are the old ones. -/

namespace Buffer

variable {α : Type*} [Inhabited α] {n b e : ℕ}

/-- The buffer with the entries from `b` to `e` taken from the stream. -/
def filled (c : ℕ → α) (values : List α) (b e : ℕ) : List α :=
  (List.range values.length).map fun j => if b ≤ j ∧ j < e then c j else values.getD j default

theorem length_filled (c : ℕ → α) (values : List α) (b e : ℕ) :
    (filled c values b e).length = values.length := by simp [filled]

theorem filled_getD (c : ℕ → α) {values : List α} (b e : ℕ) {j : ℕ} (hj : j < values.length) :
    (filled c values b e).getD j default =
      if b ≤ j ∧ j < e then c j else values.getD j default := by
  rw [List.getD_eq_getElem _ _ (by simpa [filled] using hj)]
  simp [filled]

theorem filled_self (c : ℕ → α) (values : List α) (b : ℕ) : filled c values b b = values := by
  refine List.ext_getElem (length_filled c values b b) fun j _ hj => ?_
  rw [← List.getD_eq_getElem _ default, filled_getD c b b hj, if_neg (by omega),
    List.getD_eq_getElem _ _ hj]

theorem filled_append (c : ℕ → α) (values : List α) {m : ℕ} (hbm : b ≤ m) (hme : m ≤ e) :
    filled c (filled c values b m) m e = filled c values b e := by
  refine List.ext_getElem (by simp [filled]) fun j hj hj' => ?_
  have hv : j < values.length := by simpa [filled] using hj'
  rw [← List.getD_eq_getElem _ default, ← List.getD_eq_getElem _ default,
    filled_getD c m e (by rwa [length_filled]), filled_getD c b m hv, filled_getD c b e hv]
  split_ifs <;> first | rfl | omega

theorem filled_set (c : ℕ → α) (values : List α) (b : ℕ) :
    values.set b (c b) = filled c values b (b + 1) := by
  refine List.ext_getElem (by simp [filled]) fun j hj hj' => ?_
  have hv : j < values.length := by simpa [filled] using hj'
  rw [List.getElem_set, ← List.getD_eq_getElem (filled c values b (b + 1)) default,
    filled_getD c b (b + 1) hv, List.getD_eq_getElem _ _ hv]
  by_cases hbj : b = j
  · subst hbj
    rw [if_pos rfl, if_pos (by omega)]
  · rw [if_neg hbj, if_neg (by omega)]

theorem filled_getD_of_lt (c : ℕ → α) {buf : List α} {j : ℕ} (hj : j < e) (he : e ≤ buf.length) :
    (filled c buf 0 e).getD j default = c j := by
  rw [filled_getD c 0 e (Nat.lt_of_lt_of_le hj he), if_pos ⟨Nat.zero_le j, hj⟩]

theorem filled_all (c : ℕ → α) (d : α) :
    filled c (List.replicate n d) 0 n = (List.range n).map c := by
  rw [filled, List.length_replicate]
  exact List.map_congr_left fun i hi => if_pos ⟨Nat.zero_le i, List.mem_range.mp hi⟩

end Buffer
