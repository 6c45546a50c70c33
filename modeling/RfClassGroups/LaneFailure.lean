import RfClassGroups.ParallelIoInv

/-! Failing lanes: every step lowers a measure, and once a lane has failed some step that
no peer has to answer for is possible until the call has ended. -/

namespace RfClassGroups.ParallelIo

variable {Fd E : Type} {job : Job Fd} {s s' : State Fd E} {lane : ℕ} {x : Raised Fd E}

def threadCost (job : Job Fd) (s : State Fd E) (lane : ℕ) : Thread Fd E → ℕ
  | .notStarted => job.steps lane - s.performed lane + job.fds.length + 6
  | .running => job.steps lane - s.performed lane + job.fds.length + 5
  | .caught _ => job.fds.length + 4
  | .locked _ => job.fds.length + 3
  | .unlocking _ => job.fds.length + 2
  | .cancelling _ rest => rest.length + 1
  | .stopped _ | .done => 0

def mainCost (job : Job Fd) (s : State Fd E) : Main Fd E → ℕ
  | .spawning todo => 2 * todo.length + s.workers.length + job.fds.length + 2
  | .cancelling rest => s.workers.length + rest.length + 2
  | .joining todo => todo.length + 1
  | .returned | .threw _ | .threwSpawn _ => 0

/-- What every step lowers. -/
def cost (job : Job Fd) (s : State Fd E) : ℕ :=
  mainCost job s s.main + (job.lanes.map fun lane => threadCost job s lane (s.thread lane)).sum

theorem outcome_over (s : State Fd E) : (outcome s).over = true := by
  rw [outcome]
  cases s.creation with
  | some e => rfl
  | none => cases s.failure <;> rfl

theorem mainCost_over {m : Main Fd E} (h : m.over = true) : mainCost job s m = 0 := by
  cases m with
  | returned => rfl
  | threw x => rfl
  | threwSpawn e => rfl
  | _ => cases h

theorem threadCost_congr (t : Thread Fd E) (h : s'.performed lane = s.performed lane) :
    threadCost job s' lane t = threadCost job s lane t := by
  cases t <;> simp only [threadCost, h]

theorem ThreadStep.cost_lt_lane (h : ThreadStep job lane s s') :
    threadCost job s' lane (s'.thread lane) < threadCost job s lane (s.thread lane) := by
  cases h with
  | io hrunning hlt _ =>
    change threadCost job _ lane (s.thread lane) < _
    rw [hrunning]
    simp only [threadCost, Function.update_self]
    omega
  | ioFails hold _ | fnReturns hold _ | stop hold =>
    rw [put_thread, hold]
    simp [threadCost]
  | lock hold _ | record hold | unlock hold | shutdown hold =>
    change threadCost job _ lane ((s.put lane _).thread lane) < _
    rw [put_thread, hold]
    simp [threadCost]

theorem ThreadStep.cost_lt (h : ThreadStep job lane s s') (hinv : Inv job s) : cost job s' < cost job s := by
  obtain ⟨hmain, hworkers, -, -⟩ := h.caller
  have hlane : lane ∈ job.lanes := hinv.lanes lane ((hinv.started lane).mp h.moves.1)
  have hcaller : mainCost job s' s'.main = mainCost job s s.main := by
    rw [hmain]
    cases s.main <;> simp only [mainCost, hworkers]
  rw [cost, cost, hcaller]
  apply Nat.add_lt_add_left
  refine List.sum_lt_sum _ _ (fun l _ => ?_) ⟨lane, hlane, h.cost_lt_lane⟩
  by_cases hl : l = lane
  · subst hl
    exact h.cost_lt_lane.le
  · rw [(h.other hl).1, threadCost_congr _ (h.other hl).2]

theorem MainStep.cost_lt (h : MainStep job s s') : cost job s' < cost job s := by
  have hlanes : (job.lanes.map fun lane => threadCost job s' lane (s'.thread lane)) =
      job.lanes.map fun lane => threadCost job s lane (s.thread lane) := by
    refine List.map_congr_left fun l _ => ?_
    rw [h.lanes.1, threadCost_congr _ (congrFun h.lanes.2.1 l)]
  rw [cost, cost, hlanes]
  apply Nat.add_lt_add_right
  cases h with
  | spawned hmain | spawnFails hmain | shutdown hmain | cancelled hmain =>
    rw [hmain]
    simp only [mainCost, List.length_cons, List.length_nil]
    omega
  | join hmain _ =>
    rw [hmain]
    simp [mainCost]
  | finish hmain =>
    rw [hmain, mainCost_over (outcome_over s)]
    simp [mainCost]

theorem Steps.cost_lt (h : Steps job s s') (hinv : Inv job s) : cost job s' < cost job s := by
  cases h with
  | @spawn lane todo hmain =>
    have hstart := hinv.spawn_fresh hmain
    rw [cost, cost, hmain]
    refine Nat.add_lt_add_of_lt_of_le ?_ (List.sum_le_sum fun l _ => ?_)
    · simp only [mainCost, List.length_cons, List.length_append, List.length_nil]
      omega
    · change threadCost job _ l ((s.put lane .running).thread l) ≤ _
      by_cases hl : l = lane
      · subst hl
        rw [put_thread, hstart]
        simp [threadCost, State.put]
      · rw [put_thread_ne s _ hl, threadCost_congr _ rfl]
        exact le_rfl
  | main hmain => exact hmain.cost_lt
  | thread hthread => exact hthread.cost_lt hinv

/-- No lane has to wait for its peer any more. -/
def Ending (job : Job Fd) (s : State Fd E) : Prop :=
  (∃ lane x, (s.thread lane).exn = some x) ∨ s.creation.isSome = true ∨
    ∀ lane ∈ job.lanes, s.performed lane = job.steps lane

theorem Ending.step (hend : Ending job s) (hinv : Inv job s) (h : Steps job s s') : Ending job s' := by
  cases h with
  | @spawn lane todo hmain =>
    rcases hend with ⟨l, x, hx⟩ | hend
    · refine .inl ⟨l, x, ?_⟩
      change ((s.put lane .running).thread l).exn = some x
      rw [put_thread_ne s]
      · exact hx
      · rintro rfl
        rw [hinv.spawn_fresh hmain] at hx
        cases hx
    · exact .inr hend
  | main hmain =>
    rcases hend with ⟨l, x, hx⟩ | hsome | hall
    · exact .inl ⟨l, x, by rw [hmain.lanes.1]; exact hx⟩
    · exact .inr (.inl (hmain.grows.creation hsome))
    · exact .inr (.inr (by rw [hmain.lanes.2.1]; exact hall))
  | @thread _ lane hthread =>
    rcases hend with ⟨l, x, hx⟩ | hsome | hall
    · exact .inl ⟨l, x, hthread.exn hx⟩
    · exact .inr (.inl (hthread.grows.creation hsome))
    · refine .inr (.inr fun l hl => ?_)
      cases hthread with
      | io _ hlt _ =>
        have hlane := hinv.lanes lane ((hinv.started lane).mp (by simp [*]))
        rw [hall lane hlane] at hlt
        exact absurd hlt (lt_irrefl _)
      | _ => exact hall l hl

section

variable [DecidableEq Fd]

theorem Reachable.sound (h : Reachable job s) : Inv job s :=
  Runs.Reachable.inv (.start job) (fun ih hstep => ih.step (step_steps hstep)) h

/-- The events that no peer has to answer for: an operation on a descriptor that is
shut down fails. -/
def Event.Guaranteed (job : Job Fd) (s : State Fd E) : Event E → Prop
  | .main | .thread _ => True
  | .ioFails lane _ => job.fd lane ∈ s.down
  | _ => False

def Moves (job : Job Fd) (s s' : State Fd E) : Prop :=
  ∃ ev : Event E, ev.Guaranteed job s ∧ step job s ev = some s'

theorem main_moves (h : (mainStep s).isSome = true) : ∃ s', Moves job s s' := by
  obtain ⟨s', hs'⟩ := Option.isSome_iff_exists.mp h
  exact ⟨s', .main, trivial, hs'⟩

theorem thread_moves (l : ℕ) (h : (threadStep job s l).isSome = true) : ∃ s', Moves job s s' := by
  obtain ⟨s', hs'⟩ := Option.isSome_iff_exists.mp h
  exact ⟨s', .thread l, trivial, hs'⟩

/-- A lane that has failed moves, or the one it waits for does. -/
theorem failed_moves (hinv : Inv job s) (hx : (s.thread lane).exn = some x)
    (hover : (s.thread lane).over = false) : ∃ s', Moves job s s' := by
  cases hthread : s.thread lane with
  | caught y =>
    cases hmutex : s.failureMutex with
    | none => exact thread_moves lane (by simp [threadStep, hthread, hmutex])
    | some l =>
      have hholds := (hinv.mutex l).mpr hmutex
      cases hl : s.thread l with
      | locked z => exact thread_moves l (by simp [threadStep, hl])
      | unlocking z => exact thread_moves l (by simp [threadStep, hl])
      | _ =>
        rw [hl] at hholds
        cases hholds
  | locked y => exact thread_moves lane (by simp [threadStep, hthread])
  | unlocking y => exact thread_moves lane (by simp [threadStep, hthread])
  | cancelling y rest =>
    cases rest with
    | nil => exact thread_moves lane (by simp [threadStep, hthread])
    | cons fd rest => exact thread_moves lane (by simp [threadStep, hthread])
  | stopped y =>
    rw [hthread] at hover
    cases hover
  | _ =>
    rw [hthread] at hx
    cases hx

/-- An operation on a live descriptor is not waited for forever. -/
theorem live_moves (hinv : Inv job s) {todo : List ℕ} (hmain : s.main = .joining todo)
    (hend : Ending job s) (hlane : lane ∈ job.lanes) (hrunning : s.thread lane = .running)
    (hlt : s.performed lane < job.steps lane) : ∃ s', Moves job s s' := by
  have hfails : ∀ e, job.fd lane ∈ s.down → ∃ s', Moves job s s' := fun e hdown =>
    ⟨_, .ioFails lane e, hdown, by rw [step, ioFailsStep]; simp only [hrunning, if_pos hlt]; rfl⟩
  have hshut : ∀ e, ShutDown job s [] → ∃ s', Moves job s s' := fun e hdown => by
    rcases hdown _ (job.owns lane hlane) with hmem | hmem
    · exact hfails e hmem
    · cases hmem
  rcases hend with ⟨l, x, hx⟩ | hsome | hall
  · cases hover : (s.thread l).over with
    | false => exact failed_moves hinv hx hover
    | true =>
      have hphase := hinv.phase l
      cases hl : s.thread l with
      | stopped y =>
        rw [hl] at hphase
        exact hshut x.error hphase.2.2
      | done =>
        rw [hl] at hx
        cases hx
      | _ =>
        rw [hl] at hover
        cases hover
  · obtain ⟨e, he⟩ := Option.isSome_iff_exists.mp hsome
    have hold := hinv.main
    rw [hmain] at hold
    exact hshut e (hold.2.2 hsome).2
  · rw [hall lane hlane] at hlt
    exact absurd hlt (lt_irrefl _)

theorem progress (hinv : Inv job s) (hend : Ending job s) (hover : s.main.over = false) :
    ∃ s', Moves job s s' := by
  cases hmain : s.main with
  | spawning todo =>
    cases todo with
    | nil => exact main_moves (by simp [mainStep, hmain])
    | cons lane todo => exact main_moves (by simp [mainStep, hmain])
  | cancelling rest =>
    cases rest with
    | nil => exact main_moves (by simp [mainStep, hmain])
    | cons fd rest => exact main_moves (by simp [mainStep, hmain])
  | joining todo =>
    cases todo with
    | nil => exact main_moves (by simp [mainStep, hmain])
    | cons lane todo =>
      have hworker : lane ∈ s.workers := by
        have hold := hinv.main
        rw [hmain] at hold
        rw [← hold.1]
        exact List.mem_append_right _ List.mem_cons_self
      cases hthread : s.thread lane with
      | notStarted => exact absurd hthread ((hinv.started lane).mpr hworker)
      | running =>
        by_cases hlt : s.performed lane < job.steps lane
        · exact live_moves hinv hmain hend (hinv.lanes lane hworker) hthread hlt
        · exact thread_moves lane (by simp [threadStep, hthread, hlt])
      | stopped y => exact main_moves (by simp [mainStep, hmain, hthread, Thread.over])
      | done => exact main_moves (by simp [mainStep, hmain, hthread, Thread.over])
      | caught y | locked y | unlocking y | cancelling y rest =>
        exact failed_moves hinv (x := y) (by rw [hthread]; rfl) (by rw [hthread]; rfl)
  | _ =>
    rw [hmain] at hover
    cases hover

/-- Once no lane has to wait for its peer, the call ends. -/
theorem Inv.ends (hinv : Inv job s) (hend : Ending job s) :
    ∃ s', Relation.ReflTransGen (Moves job) s s' ∧ s'.main.over = true := by
  refine Runs.exists_end (P := fun s => Inv job s ∧ Ending job s) (cost job) (fun hs hover => ?_)
    (fun hs hmoves => ?_) ⟨hinv, hend⟩
  · exact progress hs.1 hs.2 (by simpa using hover)
  · obtain ⟨ev, -, hstep⟩ := hmoves
    have hsteps := step_steps hstep
    exact ⟨⟨hs.1.step hsteps, hs.2.step hs.1 hsteps⟩, hsteps.cost_lt hs.1⟩

/-- `send_ct_lanes_range` and `recv_ct_lanes_range` over more than one lane; a lane stands for
its descriptor. -/
def laneJob (n lanes b e : ℕ) : Job ℕ where
  fds := List.range lanes
  lanes := (List.range lanes).filter fun lane =>
    max (laneBegin n lanes lane) b < min (laneBegin n lanes (lane + 1)) e
  fd := id
  steps := fun lane => (laneIndices n lanes lane b e).length
  nodup := List.nodup_range.filter _
  owns := fun _ hlane => List.mem_of_mem_filter hlane

/-- A lane that fails never leaves the call waiting, and the call reports what failed first. -/
theorem rfParallelIo_sound (h : Reachable job s) :
    (s.main.over = true → (s.main = .returned ↔
      ∀ lane ∈ job.lanes, s.thread lane = .done ∧ s.performed lane = job.steps lane)) ∧
    (Ending job s → s.main.over = false → ∃ s', Moves job s s') ∧
    (Ending job s → ∃ s', Relation.ReflTransGen (Moves job) s s' ∧ s'.main.over = true) ∧
    (s.main.over = true → s.joined = s.workers ∧ (∀ lane ∈ s.joined, (s.thread lane).over = true) ∧
      ∀ lane ∉ s.joined, s.thread lane = .notStarted) ∧
    (∀ x, s.main = .threw x → x.lane ∈ job.lanes ∧ s.thread x.lane = .stopped x ∧ x.down = []) ∧
    (∀ e, s.main = .threwSpawn e → s.creation = some e) := by
  have hinv := h.sound
  refine ⟨hinv.returned_iff, progress hinv, hinv.ends, fun hover => ?_,
    fun x hmain => hinv.threw hmain, fun e hmain => ?_⟩
  · have hjoined := hinv.over_joined hover
    refine ⟨hjoined, hinv.joined, fun lane hlane => ?_⟩
    by_contra hne
    exact hlane (hjoined ▸ (hinv.started lane).mp hne)
  · have hold := hinv.main
    rw [hmain] at hold
    exact hold.2.2

end

theorem rfParallelIo_sound_pair : ∃ (s : State ℕ String) (x : Raised ℕ String), Reachable (laneJob 2 2 0 2) s ∧
    s.main = .threw x ∧ x.lane = 0 ∧ x.error = "end of stream" ∧ x.down = [] := by
  have hrun : ((([.main, .main, .main, .ioFails 0 "end of stream"] ++ List.replicate 6 (.thread 0) ++
      [.ioFails 1 "shut down"] ++ List.replicate 6 (.thread 1) ++ [.main, .main, .main] :
        List (Event String)).foldlM (step (laneJob 2 2 0 2)) (.start (laneJob 2 2 0 2))).map State.main) =
      some (.threw ⟨0, "end of stream", []⟩) := by rfl
  obtain ⟨s, hs, hmain⟩ := Option.map_eq_some_iff.mp hrun
  have hreach : Reachable (laneJob 2 2 0 2) s := Runs.Reachable.start.run hs
  obtain ⟨-, -, -, -, hthrew, -⟩ := rfParallelIo_sound hreach
  exact ⟨s, _, hreach, hmain, rfl, rfl, (hthrew _ hmain).2.2⟩

end RfClassGroups.ParallelIo
