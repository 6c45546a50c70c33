import Mathlib.Algebra.Group.Prod
import Mathlib.Algebra.Module.NatInt
import Mathlib.Data.List.GetD
import Mathlib.Algebra.Ring.Int.Defs
import Mathlib.Tactic.Ring
import Mathlib.Tactic.Abel

/-! Digits to the base two in an additive group, lowest first, and the rule of
doubling and adding from the highest to the lowest. -/

namespace SignedDigits

variable {A : Type*} [AddCommGroup A]

def value (l : List A) : A := l.foldr (fun d v => d + (2 : ℤ) • v) 0

@[simp] theorem value_nil : value ([] : List A) = 0 := rfl

@[simp] theorem value_cons (d : A) (l : List A) : value (d :: l) = d + (2 : ℤ) • value l := rfl

theorem value_append (l l' : List A) : value (l ++ l') = value l + (2 : ℤ) ^ l.length • value l' := by
  induction l with
  | nil => simp
  | cons d l ih =>
    rw [List.cons_append, value_cons, ih, value_cons, List.length_cons, smul_add, smul_smul,
      ← pow_succ', add_assoc]

theorem map_value {B : Type*} [AddCommGroup B] (φ : A →+ B) (l : List A) :
    φ (value l) = value (l.map φ) := by
  induction l with
  | nil => exact map_zero φ
  | cons d l ih => rw [value_cons, map_add, map_zsmul, ih, List.map_cons, value_cons]

theorem value_map_add {ι : Type*} (u v : ι → A) (l : List ι) :
    value (l.map fun i => u i + v i) = value (l.map u) + value (l.map v) := by
  induction l with
  | nil => simp
  | cons i l ih =>
    rw [List.map_cons, value_cons, ih, List.map_cons, List.map_cons, value_cons, value_cons, smul_add]
    abel

theorem value_map_smul {ι : Type*} (k : ℤ) (u : ι → A) (l : List ι) :
    value (l.map fun i => k • u i) = k • value (l.map u) := by
  induction l with
  | nil => simp
  | cons i l ih =>
    rw [List.map_cons, value_cons, ih, List.map_cons, value_cons, smul_add, smul_comm]

theorem value_map_zsmul {ι : Type*} (x : A) (u : ι → ℤ) (l : List ι) :
    value (l.map fun i => u i • x) = value (l.map u) • x := by
  have hh := map_value (zmultiplesHom A x) (l.map u)
  rw [List.map_map] at hh
  exact hh.symm

theorem value_map_zero {ι : Type*} (u : ι → A) (l : List ι) (h : ∀ i ∈ l, u i = 0) :
    value (l.map u) = 0 := by
  induction l with
  | nil => rfl
  | cons i l ih =>
    rw [List.map_cons, value_cons, h i List.mem_cons_self,
      ih fun i hi => h i (List.mem_cons_of_mem _ hi), smul_zero, add_zero]

theorem value_map_sum {ι κ : Type*} (u : κ → ι → A) (ks : List κ) (l : List ι) :
    value (l.map fun i => (ks.map fun k => u k i).sum) = (ks.map fun k => value (l.map (u k))).sum := by
  induction ks with
  | nil => exact value_map_zero _ l fun _ _ => rfl
  | cons k ks ih =>
    simp only [List.map_cons, List.sum_cons]
    rw [value_map_add, ih]

theorem value_range_succ (u : ℕ → A) (n : ℕ) :
    value ((List.range (n + 1)).map u) = value ((List.range n).map u) + (2 : ℤ) ^ n • u n := by
  rw [List.range_succ, List.map_append, value_append]
  simp

theorem value_range_add (u : ℕ → A) (m n : ℕ) :
    value ((List.range (m + n)).map u) =
      value ((List.range m).map u) + (2 : ℤ) ^ m • value ((List.range n).map fun i => u (m + i)) := by
  rw [List.range_add, List.map_append, value_append, List.map_map, List.length_map, List.length_range]
  rfl

/-- Digits read past the end count for nothing. -/
theorem value_getD {δ : Type*} {u : δ → A} {zero : δ} (hu : u zero = 0) (l : List δ) {k : ℕ}
    (hk : l.length ≤ k) : value ((List.range k).map fun i => u (l.getD i zero)) = value (l.map u) := by
  obtain ⟨m, rfl⟩ := Nat.exists_eq_add_of_le hk
  have hpast : ∀ i ∈ List.range m, u (l.getD (l.length + i) zero) = 0 := by
    intro i _
    rw [List.getD_eq_default _ _ (Nat.le_add_right _ _), hu]
  have hall : (List.range l.length).map (fun i => u (l.getD i zero)) = l.map u := by
    apply List.ext_getElem
    · simp
    · intro i h1 h2
      have hi : i < l.length := by simpa using h1
      simp [List.getElem?_eq_getElem hi]
  rw [value_range_add, hall, value_map_zero _ _ hpast, smul_zero, add_zero]

/-- Doubling and adding, from the highest digit, where `rep r a` says that `r` stands for `a`. -/
theorem foldr_rep {Q δ : Type*} {rep : Q → A → Prop} {step : δ → Q → Q} {v : δ → A} {r : Q} {a : A}
    (hr : rep r a) {l : List δ}
    (hstep : ∀ d ∈ l, ∀ r a, rep r a → rep (step d r) (v d + (2 : ℤ) • a)) :
    rep (l.foldr step r) (value (l.map v) + (2 : ℤ) ^ l.length • a) := by
  induction l with
  | nil => simpa using hr
  | cons d l ih =>
    have hh := hstep d List.mem_cons_self _ _ (ih fun d hd => hstep d (List.mem_cons_of_mem _ hd))
    rw [List.foldr_cons, List.map_cons, value_cons, List.length_cons, pow_succ', ← smul_smul,
      add_assoc, ← smul_add]
    exact hh

end SignedDigits
