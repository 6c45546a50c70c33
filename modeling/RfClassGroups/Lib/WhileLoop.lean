import Mathlib.Algebra.Order.Group.Nat
import Mathlib.Tactic.TypeStar

/-! Loops `while (guard) step` with a number of rounds, and the rule of an
invariant with a measure. -/

namespace WhileLoop

variable {σ : Type*} {guard : σ → Bool} {step : σ → σ}

/-- `none` when the rounds run out. -/
def run (guard : σ → Bool) (step : σ → σ) : ℕ → σ → Option σ
  | 0, s => if guard s then none else some s
  | rounds + 1, s => if guard s then run guard step rounds (step s) else some s

/-- The states at the head of the loop. -/
inductive Visits (guard : σ → Bool) (step : σ → σ) (s : σ) : σ → Prop
  | start : Visits guard step s s
  | next {s' : σ} : Visits guard step s s' → guard s' = true → Visits guard step s (step s')

theorem Visits.inv {Inv : σ → Prop} (hstep : ∀ s, Inv s → guard s = true → Inv (step s)) {s s' : σ}
    (h : Visits guard step s s') (hs : Inv s) : Inv s' := by
  induction h with
  | start => exact hs
  | next _ hguard ih => exact hstep _ ih hguard

/-- A measure that every round lowers bounds the rounds. -/
theorem run_terminates {Inv : σ → Prop} (measure : σ → ℕ)
    (hstep : ∀ s, Inv s → guard s = true → Inv (step s) ∧ measure (step s) < measure s) {rounds : ℕ}
    {s : σ} (hs : Inv s) (hrounds : measure s ≤ rounds) :
    ∃ s', run guard step rounds s = some s' ∧ Inv s' ∧ guard s' = false := by
  induction rounds generalizing s with
  | zero =>
    cases hguard : guard s with
    | false => exact ⟨s, by simp [run, hguard], hs, hguard⟩
    | true =>
      have hlt := (hstep s hs hguard).2
      omega
  | succ rounds ih =>
    cases hguard : guard s with
    | false => exact ⟨s, by simp [run, hguard], hs, hguard⟩
    | true =>
      obtain ⟨hinv, hlt⟩ := hstep s hs hguard
      obtain ⟨s', hrun, hs', hexit⟩ := ih hinv (by omega)
      exact ⟨s', by simp [run, hguard, hrun], hs', hexit⟩

/-- A loop whose rounds may fail, where the invariant rules the failure out. -/
theorem run_partial {test : σ → Bool} {round : σ → Option σ} {Inv : σ → Prop} (measure : σ → ℕ)
    (hround : ∀ s, Inv s → test s = true →
      ∃ s', round s = some s' ∧ Inv s' ∧ measure s' < measure s) {rounds : ℕ} {s : σ} (hs : Inv s)
    (hrounds : measure s ≤ rounds) :
    ∃ s', run (fun o : Option σ => o.any test) (·.bind round) rounds (some s) = some (some s') ∧
      Inv s' ∧ test s' = false := by
  have hstep : ∀ o : Option σ, (∃ s, o = some s ∧ Inv s) → o.any test = true →
      (∃ s, o.bind round = some s ∧ Inv s) ∧
        (o.bind round).elim 0 measure < o.elim 0 measure := by
    intro o ho htest
    obtain ⟨s, rfl, hs⟩ := ho
    obtain ⟨s', hs', hinv, hlt⟩ := hround s hs htest
    rw [Option.bind_some, hs']
    exact ⟨⟨s', rfl, hinv⟩, hlt⟩
  obtain ⟨o, hrun, ⟨s', rfl, hs'⟩, hexit⟩ :=
    run_terminates (fun o : Option σ => o.elim 0 measure) hstep ⟨s, rfl, hs⟩ hrounds
  exact ⟨s', hrun, hs', hexit⟩

theorem run_mono {rounds rounds' : ℕ} (hle : rounds ≤ rounds') {s s' : σ}
    (h : run guard step rounds s = some s') : run guard step rounds' s = some s' := by
  induction rounds generalizing s rounds' with
  | zero =>
    cases hguard : guard s with
    | false => cases rounds' <;> simpa [run, hguard] using h
    | true => simp [run, hguard] at h
  | succ rounds ih =>
    cases rounds' with
    | zero => omega
    | succ rounds' =>
      cases hguard : guard s with
      | false => simpa [run, hguard] using h
      | true =>
        simp only [run, hguard, if_true] at h ⊢
        exact ih (by omega) h

end WhileLoop
