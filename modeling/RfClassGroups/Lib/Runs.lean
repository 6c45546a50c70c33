import Mathlib.Logic.Relation
import Mathlib.Data.Nat.Notation
import Mathlib.Tactic.TypeStar

/-! Runs of a machine that may refuse an event: the rule of an invariant, and the
rule of a measure for runs that have to end. -/

namespace Runs

variable {σ ε : Type*}

inductive Reachable (step : σ → ε → Option σ) (start : σ) : σ → Prop
  | start : Reachable step start start
  | step {s s' : σ} {ev : ε} : Reachable step start s → step s ev = some s' → Reachable step start s'

variable {step : σ → ε → Option σ} {start s s' : σ}

theorem Reachable.inv {P : σ → Prop} (hstart : P start)
    (hstep : ∀ {s s' ev}, P s → step s ev = some s' → P s') (h : Reachable step start s) : P s := by
  induction h with
  | start => exact hstart
  | step _ hnext ih => exact hstep ih hnext

theorem Reachable.run {evs : List ε} (h : Reachable step start s) (hrun : evs.foldlM step s = some s') :
    Reachable step start s' := by
  induction evs generalizing s with
  | nil =>
    cases hrun
    exact h
  | cons ev evs ih =>
    rw [List.foldlM_cons, Option.bind_eq_bind, Option.bind_eq_some_iff] at hrun
    obtain ⟨mid, hmid, hrest⟩ := hrun
    exact ih (h.step hmid) hrest

/-- A machine that can always move, and lowers a measure when it does, reaches its end. -/
theorem exists_end {R : σ → σ → Prop} {P ended : σ → Prop} (measure : σ → ℕ)
    (hmove : ∀ {s}, P s → ¬ ended s → ∃ s', R s s')
    (hlower : ∀ {s s'}, P s → R s s' → P s' ∧ measure s' < measure s) (hs : P s) :
    ∃ s', Relation.ReflTransGen R s s' ∧ ended s' := by
  induction hm : measure s using Nat.strongRecOn generalizing s with
  | ind m ih =>
    by_cases hended : ended s
    · exact ⟨s, .refl, hended⟩
    · obtain ⟨mid, hmid⟩ := hmove hs hended
      obtain ⟨hinv, hlt⟩ := hlower hs hmid
      obtain ⟨s', hrun, hend⟩ := ih (measure mid) (hm ▸ hlt) hinv rfl
      exact ⟨s', .head hmid hrun, hend⟩

end Runs
