import RfClassGroups.Lib.ExceptList

/-! Fallible computations that record events, kept when the computation fails:
the events of a bind and of a loop. -/

universe u v w

structure Traced (ω : Type u) (ε : Type v) (α : Type w) where
  outcome : Except ε α
  events : List ω

namespace Traced

open ExceptList

variable {ω ε : Type} {α β σ : Type}

instance : Monad (Traced ω ε) where
  pure a := ⟨.ok a, []⟩
  bind x f := match x.outcome with
    | .error e => ⟨.error e, x.events⟩
    | .ok a => ⟨(f a).outcome, x.events ++ (f a).events⟩

def lift (x : Except ε α) : Traced ω ε α := ⟨x, []⟩

@[simp] theorem outcome_pure (a : α) : (pure a : Traced ω ε α).outcome = .ok a := rfl

@[simp] theorem events_pure (a : α) : (pure a : Traced ω ε α).events = [] := rfl

@[simp] theorem outcome_lift (x : Except ε α) : (lift x : Traced ω ε α).outcome = x := rfl

@[simp] theorem events_lift (x : Except ε α) : (lift x : Traced ω ε α).events = [] := rfl

theorem bind_of_error {x : Traced ω ε α} {e : ε} (h : x.outcome = .error e) (f : α → Traced ω ε β) :
    x >>= f = ⟨.error e, x.events⟩ := by
  change (match x.outcome with
    | .error e => ⟨.error e, x.events⟩
    | .ok a => ⟨(f a).outcome, x.events ++ (f a).events⟩ : Traced ω ε β) = _
  rw [h]

theorem bind_of_ok {x : Traced ω ε α} {a : α} (h : x.outcome = .ok a) (f : α → Traced ω ε β) :
    x >>= f = ⟨(f a).outcome, x.events ++ (f a).events⟩ := by
  change (match x.outcome with
    | .error e => ⟨.error e, x.events⟩
    | .ok a => ⟨(f a).outcome, x.events ++ (f a).events⟩ : Traced ω ε β) = _
  rw [h]

@[simp] theorem outcome_bind (x : Traced ω ε α) (f : α → Traced ω ε β) :
    (x >>= f).outcome = x.outcome >>= fun a => (f a).outcome := by
  cases h : x.outcome with
  | error e => rw [bind_of_error h, error_bind]
  | ok a => rw [bind_of_ok h, ok_bind]

@[simp] theorem lift_ok_bind (a : α) (f : α → Traced ω ε β) :
    (lift (.ok a) >>= f : Traced ω ε β) = f a := bind_of_ok rfl f

@[simp] theorem lift_error_bind (e : ε) (f : α → Traced ω ε β) :
    (lift (.error e) >>= f : Traced ω ε β) = lift (.error e) := bind_of_error rfl f

theorem mem_events_bind {x : Traced ω ε α} {f : α → Traced ω ε β} {e : ω} :
    e ∈ (x >>= f).events ↔ e ∈ x.events ∨ ∃ a, x.outcome = .ok a ∧ e ∈ (f a).events := by
  cases h : x.outcome with
  | error err => simp [bind_of_error h]
  | ok a => simp [bind_of_ok h]

/-- Every event of the computation has the property. -/
def Only (P : ω → Prop) (x : Traced ω ε α) : Prop := ∀ e ∈ x.events, P e

variable {P : ω → Prop}

theorem only_pure (a : α) : Only P (pure a : Traced ω ε α) := by simp [Only]

theorem only_lift (x : Except ε α) : Only P (lift x : Traced ω ε α) := by simp [Only]

theorem Only.bind {x : Traced ω ε α} {f : α → Traced ω ε β} (hx : Only P x)
    (hf : ∀ a, Only P (f a)) : Only P (x >>= f) := by
  intro e he
  rcases mem_events_bind.mp he with he | ⟨a, _, he⟩
  · exact hx e he
  · exact hf a e he

theorem only_foldlM {f : σ → α → Traced ω ε σ} (hf : ∀ s a, Only P (f s a)) (l : List α) (s : σ) :
    Only P (l.foldlM f s) := by
  induction l generalizing s with
  | nil => exact only_pure s
  | cons a l ih => exact (hf s a).bind ih

theorem outcome_foldlM (f : σ → α → Traced ω ε σ) (l : List α) (s : σ) :
    (l.foldlM f s).outcome = l.foldlM (fun s a => (f s a).outcome) s := by
  induction l generalizing s with
  | nil => rfl
  | cons a l ih =>
    rw [List.foldlM_cons, List.foldlM_cons, outcome_bind]
    exact congrArg _ (funext ih)

theorem foldlM_ok (f : σ → α → σ) (l : List α) (s : σ) :
    l.foldlM (fun s a => (.ok (f s a) : Except ε σ)) s = .ok (l.foldl f s) := by
  induction l generalizing s with
  | nil => rfl
  | cons a l ih => exact ih (f s a)

end Traced
