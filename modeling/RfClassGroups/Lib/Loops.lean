import RfClassGroups.Lib.ExceptList
import Mathlib.Data.List.Range
import Mathlib.Tactic.Ring

/-! Counting loops as folds over index lists: the strided and the descending index list, the
counters of 32 bits, and the invariant rules. -/

namespace Loops

open ExceptList

/-- The indices of `for (i = 0; i < n; i += step)`. -/
def strided (n step : ℕ) : List ℕ := (List.range ((n + step - 1) / step)).map (· * step)

theorem strided_mul (m : ℕ) {step : ℕ} (hs : 0 < step) :
    strided (m * step) step = (List.range m).map (· * step) := by
  have hh : (m * step + step - 1) / step = m := by
    rw [Nat.add_sub_assoc hs, Nat.add_comm, Nat.add_mul_div_right _ _ hs,
      Nat.div_eq_of_lt (by omega), Nat.zero_add]
  rw [strided, hh]

/-- The value that a signed counter of 32 bits takes from a number. -/
def int32 (n : ℤ) : ℤ := (Int32.ofInt n).toInt

theorem int32_of_lt {n : ℤ} (hlow : -2 ^ 31 ≤ n) (hhigh : n < 2 ^ 31) : int32 n = n :=
  Int32.toInt_ofInt_of_le hlow hhigh

/-- Above its range a counter comes back from below. -/
theorem int32_of_ge {n : ℤ} (hlow : 2 ^ 31 ≤ n) (hhigh : n < 2 ^ 32 + 2 ^ 31) :
    int32 n = n - 2 ^ 32 := by
  have hsub : int32 n = int32 (n - 2 ^ 32) := by
    rw [int32, int32, Int32.toInt_ofInt, Int32.toInt_ofInt]
    exact (Int.sub_bmod_right n (2 ^ 32)).symm
  rw [hsub, int32_of_lt (by omega) (by omega)]

/-- The value that an unsigned number of 64 bits takes from a number. -/
def size64 (n : ℤ) : ℕ := (n % 2 ^ 64).toNat

theorem size64_of_lt {n : ℤ} (hlow : 0 ≤ n) (hhigh : n < 2 ^ 64) : size64 n = n.toNat := by
  rw [size64, Int.emod_eq_of_lt hlow hhigh]

/-- The indices of `for (i = start; i >= 0; --i)`. -/
def countdown (start : ℤ) : List ℕ := (List.range (start + 1).toNat).reverse

theorem countdown_pred (n : ℕ) : countdown (n - 1) = (List.range n).reverse := by
  rw [countdown, sub_add_cancel, Int.toNat_natCast]

theorem countdown_of_neg {start : ℤ} (h : start < 0) : countdown start = [] := by
  rw [countdown, Int.toNat_of_nonpos (by omega)]
  rfl

universe u v

variable {σ : Type u} {ε : Type v}

theorem foldl_inv {α : Type v} {P : σ → Prop} {f : σ → α → σ} (hf : ∀ s x, P s → P (f s x))
    {s : σ} (hs : P s) (l : List α) : P (l.foldl f s) := by
  induction l generalizing s with
  | nil => exact hs
  | cons x l ih => exact ih (hf s x hs)

theorem foldl_range_inv (P : ℕ → σ → Prop) (f : σ → ℕ → σ) (s : σ) (n : ℕ) (h0 : P 0 s)
    (hstep : ∀ i s, i < n → P i s → P (i + 1) (f s i)) : P n ((List.range n).foldl f s) := by
  induction n with
  | zero => exact h0
  | succ n ih =>
    rw [List.range_succ, List.foldl_append]
    exact hstep n _ n.lt_succ_self (ih fun i s hi => hstep i s (hi.trans n.lt_succ_self))

theorem foldl_countdown (f : σ → ℕ → σ) (s : σ) (n : ℕ) :
    (countdown n).foldl f s = (List.range (n + 1)).foldr (fun i s => f s i) s := by
  have hstart : (n : ℤ) = (n + 1 : ℕ) - 1 := by push_cast; ring
  rw [hstart, countdown_pred, List.foldl_reverse]

/-- A descending loop ends in the state of index zero. -/
theorem foldl_countdown_inv (P : ℕ → σ → Prop) (f : σ → ℕ → σ) (s : σ) (n : ℕ) (h0 : P n s)
    (hstep : ∀ i s, i < n → P (i + 1) s → P i (f s i)) :
    P 0 ((countdown (n - 1)).foldl f s) := by
  rw [countdown_pred]
  induction n generalizing s with
  | zero => exact h0
  | succ n ih =>
    rw [List.range_succ, List.reverse_append, List.reverse_singleton, List.singleton_append,
      List.foldl_cons]
    exact ih _ (hstep n s n.lt_succ_self h0) fun i s hi => hstep i s (hi.trans n.lt_succ_self)

theorem foldlM_range_inv {P : ℕ → σ → Prop} {f : σ → ℕ → Except ε σ} {s r : σ} {n : ℕ}
    (h : (List.range n).foldlM f s = .ok r) (h0 : P 0 s)
    (hstep : ∀ i s s', i < n → P i s → f s i = .ok s' → P (i + 1) s') : P n r := by
  induction n generalizing r with
  | zero =>
    simp only [List.range_zero, List.foldlM_nil, pure_eq_ok, Except.ok.injEq] at h
    exact h ▸ h0
  | succ n ih =>
    rw [List.range_succ, List.foldlM_append] at h
    obtain ⟨s', hs', hr⟩ := bind_eq_ok.mp h
    simp only [List.foldlM_cons, List.foldlM_nil, bind_pure] at hr
    exact hstep n s' r n.lt_succ_self
      (ih hs' fun i s s'' hi => hstep i s s'' (hi.trans n.lt_succ_self)) hr

theorem foldlM_range_exists {P : ℕ → σ → Prop} {f : σ → ℕ → Except ε σ} {s : σ} {n : ℕ}
    (h0 : P 0 s) (hstep : ∀ i s, i < n → P i s → ∃ s', f s i = .ok s' ∧ P (i + 1) s') :
    ∃ r, (List.range n).foldlM f s = .ok r ∧ P n r := by
  induction n with
  | zero => exact ⟨s, rfl, h0⟩
  | succ n ih =>
    obtain ⟨s', hs', hP⟩ := ih fun i s hi => hstep i s (hi.trans n.lt_succ_self)
    obtain ⟨r, hr, hPr⟩ := hstep n s' n.lt_succ_self hP
    refine ⟨r, ?_, hPr⟩
    rw [List.range_succ, List.foldlM_append, hs', ok_bind, List.foldlM_cons, hr, ok_bind]
    rfl

theorem foldlM_range_eq {f : σ → ℕ → Except ε σ} {g : ℕ → σ} {n : ℕ}
    (hstep : ∀ i < n, f (g i) i = .ok (g (i + 1))) :
    (List.range n).foldlM f (g 0) = .ok (g n) := by
  obtain ⟨r, hr, rfl⟩ := foldlM_range_exists (f := f) (P := fun i s => s = g i) (n := n) rfl
    fun i s hi hs => ⟨g (i + 1), hs ▸ hstep i hi, rfl⟩
  exact hr

/-- The bounds of the passes of `for (b = 0; b < n; b += step)` with
`e = min(n, b + step)`. -/
def chunks (n step : ℕ) : List (ℕ × ℕ) := (strided n step).map fun b => (b, min n (b + step))

theorem mem_chunks {n step : ℕ} {c : ℕ × ℕ} (hc : c ∈ chunks n step) :
    ∃ q, c = (q * step, min n (q * step + step)) := by
  simp only [chunks, strided, List.map_map, List.mem_map] at hc
  obtain ⟨q, _, rfl⟩ := hc
  exact ⟨q, rfl⟩

theorem chunks_induction {P : List (ℕ × ℕ) → ℕ → Prop} {n step : ℕ} (hs : 0 < step) (h0 : P [] 0)
    (hstep : ∀ cs b e, b ≤ e → e ≤ n → P cs b → P (cs ++ [(b, e)]) e) : P (chunks n step) n := by
  have hcount : ∀ k, k < (n + step - 1) / step ↔ k * step < n := fun k => by
    rw [← Nat.succ_le_iff, Nat.le_div_iff_mul_le hs, Nat.succ_mul]
    omega
  have hlast : min n ((n + step - 1) / step * step) = n :=
    min_eq_left (not_lt.mp fun h => lt_irrefl _ ((hcount _).mpr h))
  have hprefix : ∀ k, k ≤ (n + step - 1) / step →
      P ((List.range k).map fun q => (q * step, min n (q * step + step))) (min n (k * step)) := by
    intro k hk
    induction k with
    | zero => simpa using h0
    | succ k ih =>
      have hlt := (hcount k).mp hk
      have hih := ih (Nat.le_of_succ_le hk)
      rw [min_eq_right hlt.le] at hih
      rw [List.range_succ, List.map_append, Nat.succ_mul]
      exact hstep _ _ _ (by omega) (min_le_left _ _) hih
  have hall := hprefix _ le_rfl
  rw [hlast] at hall
  rwa [chunks, strided, List.map_map]

/-- A chunked loop whose states are known by the number of entries done. -/
theorem foldlM_chunks_eq {f : σ → ℕ × ℕ → Except ε σ} {g : ℕ → σ} {n step : ℕ} (hs : 0 < step)
    (hstep : ∀ b e, b ≤ e → e ≤ n → f (g b) (b, e) = .ok (g e)) :
    (chunks n step).foldlM f (g 0) = .ok (g n) := by
  refine chunks_induction (P := fun cs e => cs.foldlM f (g 0) = .ok (g e)) hs rfl ?_
  intro cs b e hbe hen ih
  rw [List.foldlM_append, ih, ok_bind, List.foldlM_cons, hstep b e hbe hen]
  rfl

theorem flatMap_chunks_eq {α : Type*} {f : ℕ × ℕ → List α} {g : ℕ → List α} {n step : ℕ}
    (hs : 0 < step) (h0 : g 0 = []) (hstep : ∀ b e, b ≤ e → e ≤ n → g b ++ f (b, e) = g e) :
    (chunks n step).flatMap f = g n := by
  refine chunks_induction (P := fun cs e => cs.flatMap f = g e) hs h0.symm ?_
  intro cs b e hbe hen ih
  rw [List.flatMap_append, ih, List.flatMap_singleton, hstep b e hbe hen]

theorem chunk_le {n step : ℕ} (hs : 0 < step) : ∀ c ∈ chunks n step, c.1 ≤ c.2 ∧ c.2 ≤ n := by
  refine chunks_induction (P := fun cs _ => ∀ c ∈ cs, c.1 ≤ c.2 ∧ c.2 ≤ n) hs (by simp) ?_
  intro cs b e hbe hen ih c hc
  rcases List.mem_append.mp hc with hc | hc
  · exact ih c hc
  · rw [List.mem_singleton] at hc
    subst hc
    exact ⟨hbe, hen⟩

theorem pairwise_chunks (n : ℕ) {step : ℕ} (hs : 0 < step) :
    (chunks n step).Pairwise fun c c' => c.2 ≤ c'.1 := by
  refine (chunks_induction (n := n)
    (P := fun cs e => cs.Pairwise (fun c c' => c.2 ≤ c'.1) ∧ ∀ c ∈ cs, c.2 ≤ e) hs ?_ ?_).1
  · simp
  · rintro cs b e hbe hen ⟨hcs, hle⟩
    constructor
    · refine List.pairwise_append.mpr ⟨hcs, List.pairwise_singleton _ _, fun c hc c' hc' => ?_⟩
      rw [List.mem_singleton] at hc'
      subst hc'
      exact hle c hc
    · intro c hc
      rcases List.mem_append.mp hc with hc | hc
      · exact (hle c hc).trans hbe
      · rw [List.mem_singleton] at hc
        subst hc
        exact le_rfl

end Loops
