import RfClassGroups.ParallelCall
import RfClassGroups.Lib.Runs

/-! The worker pool: any number of `parallel_for` calls share the queue and the
workers, in any interleaving. -/

namespace RfClassGroups.ThreadPool

inductive Worker (C E : Type)
  | idle
  | asleep
  | busy (c : C) (t : Task E)

structure Pool (W : ℕ) (C E : Type) where
  queue : List C
  worker : Fin W → Worker C E
  call : C → Call E

/-- Threads woken without a notification are events of their own. -/
inductive Event (W : ℕ) (C E : Type)
  | worker (w : Fin W)
  | throws (w : Fin W) (e : E)
  | wakeWorker (w : Fin W)
  | caller (c : C)
  | wakeCaller (c : C)

variable {W : ℕ} {C E : Type}

def Worker.wake : Worker C E → Worker C E
  | .asleep => .idle
  | x => x

def Pool.place (s : Pool W C E) (w : Fin W) (x : Worker C E) : Pool W C E :=
  { s with worker := Function.update s.worker w x }

def Pool.start : Pool W C E := ⟨[], fun _ => .idle, fun _ => {}⟩

@[simp] theorem place_worker (s : Pool W C E) (w : Fin W) (x : Worker C E) :
    (s.place w x).worker w = x := Function.update_self ..

theorem place_worker_ne (s : Pool W C E) {w v : Fin W} (x : Worker C E) (hv : v ≠ w) :
    (s.place w x).worker v = s.worker v := Function.update_of_ne hv ..

theorem asleep_of_place {s : Pool W C E} {w : Fin W} {x : Worker C E} (hx : x ≠ .asleep)
    (h : ∃ v, (s.place w x).worker v = .asleep) : ∃ v, s.worker v = .asleep := by
  obtain ⟨v, hv⟩ := h
  by_cases hvw : v = w
  · subst hvw
    rw [place_worker] at hv
    exact absurd hv hx
  · rw [place_worker_ne s x hvw] at hv
    exact ⟨v, hv⟩

variable [DecidableEq C]

def Pool.put (s : Pool W C E) (c : C) (r : Call E) : Pool W C E :=
  { s with call := Function.update s.call c r }

variable (args : C → Args)

/-- `worker_loop`: the wait and the pop are one step under `mu_`. -/
def workerStep (s : Pool W C E) (w : Fin W) : Option (Pool W C E) :=
  match s.worker w with
  | .idle =>
    match s.queue with
    | [] => some (s.place w .asleep)
    | c :: rest => some ({ s with queue := rest }.place w (.busy c .checkFlag))
  | .asleep => none
  | .busy c t =>
    match taskStep (args c) ((args c).nTasks W) (s.call c) t with
    | none => none
    | some (r, some t') => some ((s.put c r).place w (.busy c t'))
    | some (r, none) => some ((s.put c r).place w .idle)

def throwStep (s : Pool W C E) (w : Fin W) (e : E) : Option (Pool W C E) :=
  match s.worker w with
  | .busy c t => (taskThrow (s.call c) e t).map fun next => (s.put c next.1).place w (.busy c next.2)
  | _ => none

/-- The push is one step under `mu_`, and `notify_all` the next one. -/
def parallelForStep (s : Pool W C E) (c : C) : Option (Pool W C E) :=
  match (s.call c).caller with
  | .notIssued => some { s.put c (issue (args c) (s.call c)) with
      queue := s.queue ++ List.replicate (pushes (args c) ((args c).nTasks W)) c }
  | .pushed => (callerStep ((args c).nTasks W) (s.call c)).map fun r =>
      { s.put c r with worker := fun w => (s.worker w).wake }
  | _ => (callerStep ((args c).nTasks W) (s.call c)).map (s.put c)

def step (s : Pool W C E) : Event W C E → Option (Pool W C E)
  | .worker w => workerStep args s w
  | .throws w e => throwStep s w e
  | .wakeWorker w =>
    match s.worker w with
    | .asleep => some (s.place w .idle)
    | _ => none
  | .caller c => parallelForStep args s c
  | .wakeCaller c =>
    match (s.call c).caller with
    | .asleep => some (s.put c { s.call c with caller := .waiting })
    | _ => none

abbrev Reachable : Pool W C E → Prop := Runs.Reachable (step args) .start

/-- The steps of the workers and of the callers, one constructor for each kind. -/
inductive Work (s : Pool W C E) : Pool W C E → Prop
  | sleep {w : Fin W} : s.worker w = .idle → s.queue = [] → Work s (s.place w .asleep)
  | pop {w : Fin W} {c : C} {rest : List C} : s.worker w = .idle → s.queue = c :: rest →
      Work s ({ s with queue := rest }.place w (.busy c .checkFlag))
  | task {w : Fin W} {c : C} {t t' : Task E} {r : Call E} : s.worker w = .busy c t →
      Move (args c) (s.call c) t r t' → Work s ((s.put c r).place w (.busy c t'))
  | last {w : Fin W} {c : C} {finished : ℕ} : s.worker w = .busy c (.counted finished) →
      Work s ((s.put c (release ((args c).nTasks W) finished (s.call c))).place w .idle)
  | notify {c : C} {r : Call E} : (s.call c).caller = .pushed →
      callerStep ((args c).nTasks W) (s.call c) = some r →
      Work s { s.put c r with worker := fun w => (s.worker w).wake }
  | caller {c : C} {r : Call E} : (s.call c).caller ≠ .pushed →
      callerStep ((args c).nTasks W) (s.call c) = some r → Work s (s.put c r)

inductive Steps (s : Pool W C E) : Pool W C E → Prop
  | work {s' : Pool W C E} : Work args s s' → Steps s s'
  | wakeWorker {w : Fin W} : s.worker w = .asleep → Steps s (s.place w .idle)
  | issue {c : C} : (s.call c).caller = .notIssued →
      Steps s { s.put c (issue (args c) (s.call c)) with
        queue := s.queue ++ List.replicate (pushes (args c) ((args c).nTasks W)) c }
  | wakeCaller {c : C} : (s.call c).caller = .asleep →
      Steps s (s.put c { s.call c with caller := .waiting })

variable {args} {s s' : Pool W C E} {ev : Event W C E}

theorem workerStep_work {w : Fin W} (h : workerStep args s w = some s') : Work args s s' := by
  rw [workerStep] at h
  split at h
  · next hidle =>
    split at h
    · next hnil =>
      cases h
      exact .sleep hidle hnil
    · next c rest hcons =>
      cases h
      exact .pop hidle hcons
  · cases h
  · next c t hbusy =>
    split at h
    · cases h
    · next r t' hstep =>
      cases h
      exact .task hbusy (taskStep_move hstep)
    · next r hstep =>
      cases h
      obtain ⟨finished, rfl, rfl⟩ := taskStep_over hstep
      exact .last hbusy

theorem throwStep_work {w : Fin W} {e : E} (h : throwStep s w e = some s') : Work args s s' := by
  rw [throwStep] at h
  split at h
  · next c t hbusy =>
    obtain ⟨next, hthrow, rfl⟩ := Option.map_eq_some_iff.mp h
    exact .task hbusy (taskThrow_move hthrow)
  · cases h

theorem parallelForStep_work {c : C} (hc : (s.call c).caller ≠ .notIssued)
    (h : parallelForStep args s c = some s') : Work args s s' := by
  rw [parallelForStep] at h
  split at h
  · next hnot => exact absurd hnot hc
  · next hpushed =>
    obtain ⟨r, hr, rfl⟩ := Option.map_eq_some_iff.mp h
    exact .notify hpushed hr
  · next hother =>
    obtain ⟨r, hr, rfl⟩ := Option.map_eq_some_iff.mp h
    exact .caller hother hr

theorem step_steps (h : step args s ev = some s') : Steps args s s' := by
  cases ev with
  | worker w => exact .work (workerStep_work h)
  | throws w e => exact .work (throwStep_work h)
  | wakeWorker w =>
    rw [step] at h
    split at h
    · next hasleep =>
      cases h
      exact .wakeWorker hasleep
    · cases h
  | caller c =>
    cases hc : (s.call c).caller with
    | notIssued =>
      simp only [step, parallelForStep, hc] at h
      cases h
      exact .issue hc
    | _ => exact .work (parallelForStep_work (by rw [hc]; simp) h)
  | wakeCaller c =>
    rw [step] at h
    split at h
    · next hasleep =>
      cases h
      exact .wakeCaller hasleep
    · cases h

def own (c : C) : Worker C E → Multiset (Task E)
  | .busy d t => if d = c then {t} else 0
  | _ => 0

def others (s : Pool W C E) (w : Fin W) (c : C) : Multiset (Task E) :=
  ∑ v ∈ Finset.univ.erase w, own c (s.worker v)

/-- One call's part of the pool. -/
def Pool.view (s : Pool W C E) (c : C) : View E :=
  ⟨s.queue.count c, ∑ w, own c (s.worker w), s.call c⟩

@[simp] theorem put_call (s : Pool W C E) (c : C) (r : Call E) : (s.put c r).call c = r :=
  Function.update_self ..

theorem put_call_ne (s : Pool W C E) {c d : C} (r : Call E) (hc : c ≠ d) :
    (s.put d r).call c = s.call c := Function.update_of_ne hc ..

theorem view_worker (s : Pool W C E) (w : Fin W) (c : C) :
    s.view c = ⟨s.queue.count c, own c (s.worker w) + others s w c, s.call c⟩ := by
  rw [Pool.view, others, Finset.add_sum_erase _ (fun v => own c (s.worker v)) (Finset.mem_univ w)]

theorem view_place (s : Pool W C E) (w : Fin W) (x : Worker C E) (c : C) :
    (s.place w x).view c = ⟨s.queue.count c, own c x + others s w c, s.call c⟩ := by
  have hothers : others (s.place w x) w c = others s w c := by
    refine Finset.sum_congr rfl fun v hv => ?_
    rw [place_worker_ne s x (Finset.ne_of_mem_erase hv)]
  rw [view_worker _ w, hothers, place_worker]
  rfl

theorem own_wake (c : C) (x : Worker C E) : own c x.wake = own c x := by
  cases x <;> rfl

theorem own_idle (c : C) : own c (.idle : Worker C E) = 0 := rfl

theorem own_busy (c : C) (t : Task E) : own c (.busy c t) = {t} := if_pos rfl

theorem own_busy_ne {c d : C} (hdc : d ≠ c) (t : Task E) : own c (.busy d t) = 0 := if_neg hdc

theorem view_put (s : Pool W C E) (c : C) (r : Call E) :
    (s.put c r).view c = ⟨s.queue.count c, ∑ w, own c (s.worker w), r⟩ := by
  rw [Pool.view, put_call]
  rfl

theorem view_put_ne (s : Pool W C E) {c d : C} (hdc : d ≠ c) (r : Call E) : (s.put d r).view c = s.view c := by
  rw [Pool.view, put_call_ne s r (Ne.symm hdc)]
  rfl

theorem Work.view (h : Work args s s') (c : C) :
    s'.view c = s.view c ∨ ViewStep (args c) ((args c).nTasks W) (s.view c) (s'.view c) := by
  cases h with
  | @sleep w hidle _ =>
    left
    rw [view_place, view_worker s w, hidle]
    rfl
  | @pop w d rest hidle hqueue =>
    rw [view_place, view_worker s w, hidle, hqueue]
    by_cases hdc : d = c
    · subst hdc
      right
      rw [own_idle, zero_add, own_busy, List.count_cons_self]
      exact .take
    · left
      rw [own_busy_ne hdc, List.count_cons_of_ne hdc]
      rfl
  | @task w d t t' r hbusy hmove =>
    rw [view_place, view_worker s w, hbusy]
    by_cases hdc : d = c
    · subst hdc
      right
      rw [own_busy, own_busy, put_call]
      exact .move hmove
    · left
      rw [own_busy_ne hdc, own_busy_ne hdc, put_call_ne s r (Ne.symm hdc)]
      rfl
  | @last w d finished hbusy =>
    rw [view_place, view_worker s w, hbusy]
    by_cases hdc : d = c
    · subst hdc
      right
      rw [own_busy, own_idle, zero_add, put_call]
      exact .last
    · left
      rw [own_busy_ne hdc, put_call_ne s _ (Ne.symm hdc)]
      rfl
  | @notify d r hpushed hr =>
    have hview : Pool.view { s.put d r with worker := fun w => (s.worker w).wake } c = (s.put d r).view c := by
      simp only [Pool.view, own_wake]
      rfl
    rw [hview]
    by_cases hdc : d = c
    · subst hdc
      right
      rw [view_put]
      exact .caller hr
    · exact .inl (view_put_ne s hdc r)
  | @caller d r _ hr =>
    by_cases hdc : d = c
    · subst hdc
      right
      rw [view_put]
      exact .caller hr
    · exact .inl (view_put_ne s hdc r)

/-- Each step of the pool is a step of at most one call, on that call's part. -/
theorem Steps.view (h : Steps args s s') (c : C) :
    s'.view c = s.view c ∨ ViewStep (args c) ((args c).nTasks W) (s.view c) (s'.view c) := by
  cases h with
  | work hwork => exact hwork.view c
  | @wakeWorker w hasleep =>
    left
    rw [view_place, view_worker s w, hasleep]
    rfl
  | @issue d hnot =>
    by_cases hdc : d = c
    · subst hdc
      right
      have hview : ViewStep (args d) ((args d).nTasks W) (s.view d)
          ⟨s.queue.count d + pushes (args d) ((args d).nTasks W), ∑ w, own d (s.worker w),
            ThreadPool.issue (args d) (s.call d)⟩ := .issue hnot
      convert hview using 1
      simp [Pool.view, Pool.put]
    · left
      simp [Pool.view, Pool.put, Function.update_of_ne (Ne.symm hdc), List.count_replicate, hdc]
  | @wakeCaller d hasleep =>
    by_cases hdc : d = c
    · subst hdc
      right
      rw [view_put]
      exact .wakeCaller hasleep
    · exact .inl (view_put_ne s hdc _)

theorem nTasks_pos {a : Args} (hW : 0 < W) (hfits : a.Fits W) : 0 < a.nTasks W := by
  have hlt := hfits.nonempty
  have htotal := hfits.total
  have hchunk := chunk_pos a
  have hu : u64 (a.endIndex - a.beginIndex + a.chunk - 1) = a.endIndex - a.beginIndex + a.chunk - 1 :=
    Nat.mod_eq_of_lt (by omega)
  rw [Args.nTasks, hu, Nat.lt_min]
  exact ⟨hW, Nat.div_pos (by omega) hchunk⟩

theorem Reachable.sound (hW : 0 < W) (hfits : ∀ c, (args c).Fits W) (h : Reachable args s) (c : C) :
    Sound (args c) ((args c).nTasks W) (s.view c) := by
  refine h.inv (P := fun s => Sound (args c) ((args c).nTasks W) (s.view c)) ?_ fun ih hstep => ?_
  · left
    simp [Pool.view, Pool.start, own, View.start]
  · rcases (step_steps hstep).view c with heq | hview
    · rw [heq]
      exact ih
    · exact ih.step (hfits c) (nTasks_pos hW (hfits c)) hview

/-- A worker sleeps with work in the queue only until the call that pushed it notifies. -/
def Awake (s : Pool W C E) : Prop :=
  (∃ w, s.worker w = .asleep) → s.queue ≠ [] → ∃ c, (s.call c).caller = .pushed

theorem pushed_of_put {d : C} {r : Call E} (hr : (s.call d).caller = .pushed → r.caller = .pushed)
    (h : ∃ c, (s.call c).caller = .pushed) : ∃ c, ((s.put d r).call c).caller = .pushed := by
  obtain ⟨c, hc⟩ := h
  refine ⟨c, ?_⟩
  by_cases hcd : c = d
  · subst hcd
    rw [put_call]
    exact hr hc
  · rw [put_call_ne s r hcd]
    exact hc

theorem Work.awake (h : Work args s s') (hawake : Awake s) : Awake s' := by
  intro hasleep hqueue
  cases h with
  | sleep _ hnil => exact absurd hnil hqueue
  | pop hidle hcons =>
    refine hawake (asleep_of_place (s := { s with queue := _ }) (by simp) hasleep) ?_
    rw [hcons]
    exact List.cons_ne_nil _ _
  | task hbusy hmove =>
    exact pushed_of_put (fun hp => hmove.caller_eq.trans hp)
      (hawake (asleep_of_place (s := s.put _ _) (by simp) hasleep) hqueue)
  | last hbusy =>
    refine pushed_of_put (fun hp => ?_) (hawake (asleep_of_place (s := s.put _ _) (by simp) hasleep) hqueue)
    simp [release, hp]
  | notify _ _ =>
    obtain ⟨w, hw⟩ := hasleep
    exact absurd hw (by cases hx : s.worker w <;> simp [Worker.wake, hx])
  | caller hnot hr => exact pushed_of_put (fun hp => absurd hp hnot) (hawake hasleep hqueue)

theorem Steps.awake (h : Steps args s s') (hawake : Awake s) : Awake s' := by
  intro hasleep hqueue
  cases h with
  | work hwork => exact hwork.awake hawake hasleep hqueue
  | wakeWorker hold => exact hawake ⟨_, hold⟩ hqueue
  | @issue d hnot =>
    by_cases hempty : (args d).endIndex ≤ (args d).beginIndex
    · have hsame : s.queue ++ List.replicate (pushes (args d) ((args d).nTasks W)) d = s.queue := by
        rw [pushes, if_pos hempty, List.replicate_zero, List.append_nil]
      rw [hsame] at hqueue
      exact pushed_of_put (s := s) (fun hp => by rw [hnot] at hp; cases hp) (hawake hasleep hqueue)
    · refine ⟨d, ?_⟩
      change ((s.put d (ThreadPool.issue (args d) (s.call d))).call d).caller = .pushed
      rw [put_call, ThreadPool.issue, if_neg hempty]
  | wakeCaller hold =>
    exact pushed_of_put (fun hp => by rw [hold] at hp; cases hp) (hawake hasleep hqueue)

theorem Reachable.awake (h : Reachable args s) : Awake s := by
  refine Runs.Reachable.inv (fun _ hqueue => ?_) (fun ih hstep => ?_) h
  · exact absurd rfl hqueue
  · exact (step_steps hstep).awake ih

theorem mem_view_tasks {c : C} {t : Task E} : t ∈ (s.view c).tasks ↔ ∃ w, s.worker w = .busy c t := by
  rw [Pool.view, Multiset.mem_sum]
  constructor
  · rintro ⟨w, -, hmem⟩
    refine ⟨w, ?_⟩
    cases hw : s.worker w with
    | busy d t' =>
      rw [hw, own] at hmem
      split at hmem
      · next hdc => rw [hdc, Multiset.mem_singleton.mp hmem]
      · cases Multiset.notMem_zero _ hmem
    | _ =>
      rw [hw] at hmem
      cases Multiset.notMem_zero _ hmem
  · rintro ⟨w, hw⟩
    refine ⟨w, Finset.mem_univ w, ?_⟩
    rw [hw, own_busy]
    exact Multiset.mem_singleton_self t

/-- Steps that are no spurious wake-up, no throw and no new call. -/
def Event.Ordinary (s : Pool W C E) : Event W C E → Prop
  | .worker _ => True
  | .caller c => (s.call c).caller ≠ .notIssued
  | _ => False

def Unfinished (r : Call E) : Prop := r.caller ≠ .notIssued ∧ ∀ f, r.caller ≠ .returned f

theorem taskStep_isSome {a : Args} {n : ℕ} {r : Call E} {t : Task E}
    (h : t = .finish → r.doneMu = false) : (taskStep a n r t).isSome = true := by
  cases t with
  | finish => simp [taskStep, h rfl]
  | running i stop =>
    rw [taskStep]
    split <;> rfl
  | record e =>
    rw [taskStep]
    split <;> rfl
  | _ => rfl

theorem workerStep_busy {w : Fin W} {c : C} {t : Task E} (hbusy : s.worker w = .busy c t)
    (h : t = .finish → (s.call c).doneMu = false) : ∃ s', step args s (.worker w) = some s' := by
  obtain ⟨next, hnext⟩ := Option.isSome_iff_exists.mp
    (taskStep_isSome (a := args c) (n := (args c).nTasks W) (r := s.call c) h)
  rw [step, workerStep]
  simp only [hbusy, hnext]
  obtain ⟨r, t' | _⟩ := next
  · exact ⟨_, rfl⟩
  · exact ⟨_, rfl⟩

theorem Reachable.inv (hW : 0 < W) (hfits : ∀ c, (args c).Fits W) (h : Reachable args s) {c : C}
    (hc : (s.call c).caller ≠ .notIssued) : CallInv (args c) ((args c).nTasks W) (s.view c) := by
  rcases h.sound hW hfits c with hstart | hinv
  · have hcall : s.call c = {} := congrArg View.call hstart
    rw [hcall] at hc
    exact absurd rfl hc
  · exact hinv

theorem holder_moves (hW : 0 < W) (hfits : ∀ c, (args c).Fits W) (h : Reachable args s) {c : C}
    (hheld : (s.call c).doneMu = true) : ∃ v s', step args s (.worker v) = some s' := by
  rcases h.sound hW hfits c with hstart | hinv
  · have hcall : s.call c = {} := congrArg View.call hstart
    rw [hcall] at hheld
    cases hheld
  · have hlock := hinv.counts.lock
    rw [Pool.view] at hlock
    simp only [hheld, Bool.toNat_true] at hlock
    obtain ⟨t, ht, hholds⟩ := Multiset.countP_pos.mp (by rw [← tally, hlock]; exact Nat.one_pos)
    obtain ⟨v, hv⟩ := mem_view_tasks.mp ht
    refine ⟨v, workerStep_busy hv ?_⟩
    rintro rfl
    cases hholds

/-- A worker at a task can move, or the holder of the lock it waits for can. -/
theorem busy_moves (hW : 0 < W) (hfits : ∀ c, (args c).Fits W) (h : Reachable args s) {w : Fin W} {c : C}
    {t : Task E} (hbusy : s.worker w = .busy c t) : ∃ v s', step args s (.worker v) = some s' := by
  cases hheld : (s.call c).doneMu with
  | false =>
    exact ⟨w, workerStep_busy hbusy fun _ => hheld⟩
  | true => exact holder_moves hW hfits h hheld

theorem caller_moves {c : C} (hc : (s.call c).caller ≠ .notIssued)
    (h : (callerStep ((args c).nTasks W) (s.call c)).isSome = true) :
    ∃ ev s', ev.Ordinary s ∧ step args s ev = some s' := by
  obtain ⟨r, hr⟩ := Option.isSome_iff_exists.mp h
  refine ⟨.caller c, ?_⟩
  simp only [step, parallelForStep, hr, Option.map_some]
  split
  · next hnot => exact absurd hnot hc
  · exact ⟨_, hc, rfl⟩
  · exact ⟨_, hc, rfl⟩

/-- With work in the queue some step is possible. -/
theorem queue_moves (hW : 0 < W) (hfits : ∀ c, (args c).Fits W) (h : Reachable args s) (hqueue : s.queue ≠ []) :
    ∃ ev s', ev.Ordinary s ∧ step args s ev = some s' := by
  cases hw : s.worker ⟨0, hW⟩ with
  | idle =>
    obtain ⟨d, rest, hcons⟩ := List.exists_cons_of_ne_nil hqueue
    refine ⟨.worker ⟨0, hW⟩, { s with queue := rest }.place ⟨0, hW⟩ (.busy d .checkFlag), trivial, ?_⟩
    simp only [step, workerStep, hw, hcons]
  | busy d t =>
    obtain ⟨v, s', hs'⟩ := busy_moves hW hfits h hw
    exact ⟨.worker v, s', trivial, hs'⟩
  | asleep =>
    obtain ⟨d, hpushed⟩ := h.awake ⟨_, hw⟩ hqueue
    exact caller_moves (by rw [hpushed]; simp) (by simp [callerStep, hpushed])

theorem progress (hW : 0 < W) (hfits : ∀ c, (args c).Fits W) (h : Reachable args s) {c : C}
    (hc : Unfinished (s.call c)) : ∃ ev s', ev.Ordinary s ∧ step args s ev = some s' := by
  obtain ⟨hissued, hunfinished⟩ := hc
  have hinv := h.inv hW hfits hissued
  have hbusy : ∀ t ∈ (s.view c).tasks, ∃ ev s', ev.Ordinary s ∧ step args s ev = some s' := by
    intro t ht
    obtain ⟨w, hw⟩ := mem_view_tasks.mp ht
    obtain ⟨v, s', hs'⟩ := busy_moves hW hfits h hw
    exact ⟨.worker v, s', trivial, hs'⟩
  cases hcaller : (s.call c).caller with
  | notIssued => exact absurd hcaller hissued
  | returned f => exact absurd hcaller (hunfinished f)
  | pushed => exact caller_moves hissued (by simp [callerStep, hcaller])
  | leaving => exact caller_moves hissued (by simp [callerStep, hcaller])
  | waiting =>
    cases hheld : (s.call c).doneMu with
    | false => exact caller_moves hissued (by simp [callerStep, hcaller, hheld])
    | true =>
      obtain ⟨v, s', hs'⟩ := holder_moves hW hfits h hheld
      exact ⟨.worker v, s', trivial, hs'⟩
  | asleep =>
    rcases hinv.waits.asleep hcaller with hdone | hcounted
    · have htotal := hinv.counts.total
      by_cases hnil : (s.view c).tasks = 0
      · refine queue_moves hW hfits h fun hempty => hdone ?_
        have hqueued : (s.view c).queued = 0 := by rw [Pool.view, hempty]; rfl
        rw [hnil, tally_zero, tally_zero, hqueued] at htotal
        omega
      · obtain ⟨t, ht⟩ := Multiset.exists_mem_of_ne_zero hnil
        exact hbusy t ht
    · exact hbusy _ hcounted

theorem finished_quiet (hW : 0 < W) (hfits : ∀ c, (args c).Fits W) (h : Reachable args s) {c : C}
    (hc : ¬ Unfinished (s.call c)) : c ∉ s.queue ∧ ∀ w t, s.worker w ≠ .busy c t := by
  have hquiet : (s.view c).queued = 0 ∧ (s.view c).tasks = 0 := by
    rcases h.sound hW hfits c with hstart | hinv
    · rw [hstart]
      exact ⟨rfl, rfl⟩
    · refine hinv.waits.quiet (.inr ?_)
      by_contra hret
      exact hc ⟨hinv.waits.issued, fun f hf => hret ⟨f, hf⟩⟩
  refine ⟨List.count_eq_zero.mp hquiet.1, fun w t hw => ?_⟩
  have hmem := mem_view_tasks.mpr ⟨w, hw⟩
  rw [hquiet.2] at hmem
  exact Multiset.notMem_zero _ hmem

/-- Parallel loops neither lose nor repeat an index, and end. -/
theorem parallelFor_sound (hW : 0 < W) (hfits : ∀ c, (args c).Fits W) (h : Reachable args s) :
    (∀ c, (s.call c).ran.Nodup ∧
      ∀ i ∈ (s.call c).ran, (args c).beginIndex ≤ i ∧ i < (args c).endIndex) ∧
    (∀ c f, (s.call c).caller = .returned f →
      c ∉ s.queue ∧ (∀ w t, s.worker w ≠ .busy c t) ∧
      ((s.call c).thrown = [] → f = none ∧ (s.call c).ran.Perm
        (List.range' (args c).beginIndex ((args c).endIndex - (args c).beginIndex))) ∧
      ((s.call c).thrown ≠ [] →
        ∃ e ∈ (s.call c).thrown, (s.call c).recorded.head? = some e ∧ f = some e)) ∧
    (∀ c, Unfinished (s.call c) → ∃ ev s', ev.Ordinary s ∧ step args s ev = some s') ∧
    ((∀ c, ¬ Unfinished (s.call c)) → s.queue = [] ∧ (∀ w c t, s.worker w ≠ .busy c t) ∧
      ∀ c, (s.call c).caller = .notIssued → ∃ s', step args s (.caller c) = some s') := by
  refine ⟨fun c => (h.sound hW hfits c).ran, fun c f hret => ?_, fun c hc => progress hW hfits h hc,
    fun hdone => ?_⟩
  · have hissued : (s.call c).caller ≠ .notIssued := by
      rw [hret]
      simp
    have hfinished : ¬ Unfinished (s.call c) := fun hc => hc.2 f hret
    have hquiet := finished_quiet hW hfits h hfinished
    obtain ⟨-, -, hran, hthrown⟩ := (h.inv hW hfits hissued).returned (nTasks_pos hW (hfits c)) hret
    exact ⟨hquiet.1, hquiet.2, hran, hthrown⟩
  · refine ⟨List.eq_nil_iff_forall_not_mem.mpr fun c => (finished_quiet hW hfits h (hdone c)).1,
      fun w c t => (finished_quiet hW hfits h (hdone c)).2 w t, fun c hnot => ?_⟩
    rw [step, parallelForStep]
    simp only [hnot]
    exact ⟨_, rfl⟩

def pairArgs : Bool → Args
  | false => ⟨0, 3, 1⟩
  | true => ⟨5, 8, 2⟩

def callersTwice : List (Event 2 Bool String) :=
  [.caller false, .caller true, .caller false, .caller true]

def workersTake (turns : ℕ) : List (Event 2 Bool String) :=
  (List.replicate turns [Event.worker 0, Event.worker 1]).flatten

def throwsAtSix : List (Event 2 Bool String) := [.worker 0, .throws 1 "boom"]

def firstWorkerEnds : List (Event 2 Bool String) := List.replicate 4 (.worker 0)

/-- Both calls are pushed before the two workers take turns, and `fn` throws for the index 6. -/
def pairEvents : List (Event 2 Bool String) :=
  callersTwice ++ workersTake 17 ++ throwsAtSix ++ workersTake 4 ++ firstWorkerEnds ++ callersTwice

theorem parallelFor_sound_pair : ∃ s : Pool 2 Bool String, Reachable pairArgs s ∧
    (s.call false).caller = .returned none ∧ (s.call false).ran.Perm [0, 1, 2] ∧
    (s.call true).caller = .returned (some "boom") ∧ (s.call true).ran.Nodup ∧ s.queue = [] := by
  have hrun : ((pairEvents.foldlM (step pairArgs) Pool.start).map fun s =>
      ((s.call false).caller, (s.call false).thrown, (s.call true).caller, (s.call true).thrown)) =
        some (.returned none, [], .returned (some "boom"), ["boom"]) := by decide +kernel
  obtain ⟨s, hs, heq⟩ := Option.map_eq_some_iff.mp hrun
  simp only [Prod.mk.injEq] at heq
  obtain ⟨hret, hthrown, hret', hthrown'⟩ := heq
  have hreach : Reachable pairArgs s := Runs.Reachable.start.run hs
  have hfits : ∀ c, (pairArgs c).Fits 2 := by
    rintro (_ | _) <;> exact ⟨by decide, by decide, by decide⟩
  obtain ⟨hindices, hreturned, -, hquiet⟩ := parallelFor_sound two_pos hfits hreach
  have hdone : ∀ c, ¬ Unfinished (s.call c) := by
    rintro (_ | _) hc
    · exact hc.2 _ hret
    · exact hc.2 _ hret'
  obtain ⟨-, -, hran, -⟩ := hreturned false none hret
  exact ⟨s, hreach, hret, (hran hthrown).2, hret', (hindices true).1, (hquiet hdone).1⟩

end RfClassGroups.ThreadPool
