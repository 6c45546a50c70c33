import Mathlib.Data.List.Forall2

/-! Lists of fallible computations: what a successful bind or a successful
traversal says about its parts. -/

namespace ExceptList

universe u v w

variable {ε : Type u} {α β : Type v} {γ : Type w}

theorem bind_eq_ok {x : Except ε α} {f : α → Except ε β} {b : β} :
    (x >>= f) = .ok b ↔ ∃ a, x = .ok a ∧ f a = .ok b := by
  cases x with
  | error e => simp [bind, Except.bind]
  | ok a => simp [bind, Except.bind]

@[simp] theorem ok_bind (a : α) (f : α → Except ε β) : ((.ok a : Except ε α) >>= f) = f a := rfl

@[simp] theorem pure_eq_ok (a : α) : (pure a : Except ε α) = .ok a := rfl

@[simp] theorem error_bind (e : ε) (f : α → Except ε β) :
    ((.error e : Except ε α) >>= f) = .error e := rfl

@[simp] theorem throw_eq_error (e : ε) : (throw e : Except ε α) = .error e := rfl

theorem mapM_eq_ok {f : γ → Except ε β} {l : List γ} {r : List β} :
    l.mapM f = .ok r ↔ List.Forall₂ (fun a b => f a = .ok b) l r := by
  induction l generalizing r with
  | nil =>
    rw [List.mapM_nil, List.forall₂_nil_left_iff, pure_eq_ok, Except.ok.injEq, eq_comm]
  | cons a l ih =>
    rw [List.mapM_cons, bind_eq_ok, List.forall₂_cons_left_iff]
    constructor
    · rintro ⟨b, hb, h⟩
      obtain ⟨t, ht, hr⟩ := bind_eq_ok.mp h
      rw [pure_eq_ok, Except.ok.injEq] at hr
      exact ⟨b, t, hb, ih.mp ht, hr.symm⟩
    · rintro ⟨b, t, hb, ht, rfl⟩
      exact ⟨b, hb, bind_eq_ok.mpr ⟨t, ih.mpr ht, rfl⟩⟩

theorem mapM_length {f : γ → Except ε β} {l : List γ} {r : List β}
    (h : l.mapM f = .ok r) : r.length = l.length :=
  (mapM_eq_ok.mp h).length_eq.symm

theorem mapM_range_getElem {f : ℕ → Except ε β} {n : ℕ} {r : List β}
    (h : (List.range n).mapM f = .ok r) (i : ℕ) (hi : i < r.length) : f i = .ok r[i] := by
  have hlen := mapM_length h
  rw [List.length_range] at hlen
  have hh := (mapM_eq_ok.mp h).get (i := i) (by simpa [hlen] using hi) hi
  simpa using hh

theorem mapM_exists {f : γ → Except ε β} {l : List γ}
    (h : ∀ a ∈ l, ∃ b, f a = .ok b) : ∃ r, l.mapM f = .ok r := by
  induction l with
  | nil => exact ⟨[], rfl⟩
  | cons a l ih =>
    obtain ⟨b, hb⟩ := h a List.mem_cons_self
    obtain ⟨t, ht⟩ := ih (fun x hx => h x (List.mem_cons_of_mem _ hx))
    exact ⟨b :: t, by simp [List.mapM_cons, hb, ht]⟩

theorem mapM_of_forall {f : γ → Except ε β} {g : γ → β} {l : List γ}
    (h : ∀ a ∈ l, f a = .ok (g a)) : l.mapM f = .ok (l.map g) := by
  rw [mapM_eq_ok, List.forall₂_map_right_iff, List.forall₂_same]
  exact h

theorem exists_left_of_forall₂ {δ : Type*} {R : γ → δ → Prop} {l : List γ} {r : List δ}
    (h : List.Forall₂ R l r) : ∀ b ∈ r, ∃ a ∈ l, R a b := by
  induction h with
  | nil => simp
  | cons hab _ ih =>
    intro b hb
    rcases List.mem_cons.mp hb with rfl | hb
    · exact ⟨_, List.mem_cons_self, hab⟩
    · obtain ⟨a, ha, hR⟩ := ih b hb
      exact ⟨a, List.mem_cons_of_mem _ ha, hR⟩

theorem exists_right_of_forall₂ {δ : Type*} {R : γ → δ → Prop} {l : List γ} {r : List δ}
    (h : List.Forall₂ R l r) : ∀ a ∈ l, ∃ b ∈ r, R a b :=
  exists_left_of_forall₂ (R := flip R) h.flip

end ExceptList
