import RfClassGroups.ParallelIo

/-! What holds of every lane and of the caller in any state of `rf_parallel_io`. -/

namespace RfClassGroups.ParallelIo

variable {Fd E : Type} {job : Job Fd} {s s' : State Fd E} {lane l : ℕ} {x : Raised Fd E}

/-- The exception that a lane has raised. -/
def Thread.exn : Thread Fd E → Option (Raised Fd E)
  | .caught x | .locked x | .unlocking x | .cancelling x _ | .stopped x => some x
  | _ => none

def Thread.holds : Thread Fd E → Bool
  | .locked _ | .unlocking _ => true
  | _ => false

structure Raises (job : Job Fd) (s : State Fd E) (lane : ℕ) (x : Raised Fd E) : Prop where
  owner : x.lane = lane
  unfinished : s.performed lane < job.steps lane
  down : x.down ≠ [] → s.down ≠ []

/-- Every descriptor that is not in `rest` is shut down. -/
def ShutDown (job : Job Fd) (s : State Fd E) (rest : List Fd) : Prop :=
  ∀ fd ∈ job.fds, fd ∈ s.down ∨ fd ∈ rest

/-- What holds of a lane, by the place it stands at. -/
def Phase (job : Job Fd) (s : State Fd E) (lane : ℕ) : Thread Fd E → Prop
  | .notStarted => s.performed lane = 0
  | .running => s.performed lane ≤ job.steps lane
  | .caught x | .locked x => Raises job s lane x
  | .unlocking x => Raises job s lane x ∧ s.failure.isSome = true
  | .cancelling x rest => Raises job s lane x ∧ s.failure.isSome = true ∧ ShutDown job s rest
  | .stopped x => Raises job s lane x ∧ s.failure.isSome = true ∧ ShutDown job s []
  | .done => s.performed lane = job.steps lane

/-- What no step takes back. -/
structure Grows (s s' : State Fd E) : Prop where
  down : ∀ fd ∈ s.down, fd ∈ s'.down
  failure : ∀ x, s.failure = some x → s'.failure = some x
  creation : s.creation.isSome = true → s'.creation.isSome = true

theorem Grows.down_ne (h : Grows s s') (hne : s.down ≠ []) : s'.down ≠ [] := by
  obtain ⟨fd, hfd⟩ := List.exists_mem_of_ne_nil _ hne
  exact List.ne_nil_of_mem (h.down fd hfd)

theorem Grows.isSome (h : Grows s s') (hsome : s.failure.isSome = true) : s'.failure.isSome = true := by
  obtain ⟨x, hx⟩ := Option.isSome_iff_exists.mp hsome
  rw [h.failure x hx]
  rfl

theorem Grows.shutDown {rest : List Fd} (h : Grows s s') (hdown : ShutDown job s rest) :
    ShutDown job s' rest := fun fd hfd => (hdown fd hfd).imp_left (h.down fd)

theorem Raises.mono (h : Raises job s lane x) (hgrows : Grows s s')
    (hperformed : s'.performed lane = s.performed lane) : Raises job s' lane x :=
  ⟨h.owner, hperformed ▸ h.unfinished, fun hne => hgrows.down_ne (h.down hne)⟩

theorem Phase.mono {t : Thread Fd E} (h : Phase job s lane t) (hgrows : Grows s s')
    (hperformed : s'.performed lane = s.performed lane) : Phase job s' lane t := by
  cases t with
  | notStarted => exact hperformed.trans h
  | running => exact hperformed.trans_le h
  | caught x => exact Raises.mono h hgrows hperformed
  | locked x => exact Raises.mono h hgrows hperformed
  | unlocking x => exact ⟨h.1.mono hgrows hperformed, hgrows.isSome h.2⟩
  | cancelling x rest =>
    exact ⟨h.1.mono hgrows hperformed, hgrows.isSome h.2.1, hgrows.shutDown h.2.2⟩
  | stopped x => exact ⟨h.1.mono hgrows hperformed, hgrows.isSome h.2.1, hgrows.shutDown h.2.2⟩
  | done => exact hperformed.trans h

theorem ShutDown.next {fd : Fd} {rest : List Fd} (h : ShutDown job s (fd :: rest))
    (hdown : s'.down = s.down ++ [fd]) : ShutDown job s' rest := by
  intro fd' hfd
  have hold := h fd' hfd
  rw [hdown, List.mem_append, List.mem_singleton]
  rw [List.mem_cons] at hold
  tauto

theorem grows_of_down {fd : Fd} (hdown : s'.down = s.down ++ [fd]) (hfailure : s'.failure = s.failure)
    (hcreation : s'.creation = s.creation) : Grows s s' := by
  refine ⟨fun fd' hfd => ?_, fun x hx => ?_, fun h => ?_⟩
  · rw [hdown]
    exact List.mem_append_left _ hfd
  · rw [hfailure]
    exact hx
  · rw [hcreation]
    exact h

theorem ThreadStep.grows (h : ThreadStep job lane s s') : Grows s s' := by
  cases h with
  | record _ =>
    refine ⟨fun _ h => h, fun x hx => ?_, fun h => h⟩
    change (if s.failure.isNone then _ else s.failure) = some x
    rw [hx]
    rfl
  | shutdown _ => exact grows_of_down rfl rfl rfl
  | _ => exact ⟨fun _ h => h, fun _ h => h, fun h => h⟩

theorem ThreadStep.caller (h : ThreadStep job lane s s') :
    s'.main = s.main ∧ s'.workers = s.workers ∧ s'.joined = s.joined ∧ s'.creation = s.creation := by
  cases h <;> exact ⟨rfl, rfl, rfl, rfl⟩

theorem put_thread (s : State Fd E) (lane : ℕ) (t : Thread Fd E) : (s.put lane t).thread lane = t :=
  Function.update_self ..

theorem put_thread_ne (s : State Fd E) {l lane : ℕ} (t : Thread Fd E) (hl : l ≠ lane) :
    (s.put lane t).thread l = s.thread l := Function.update_of_ne hl ..

theorem ThreadStep.other (h : ThreadStep job lane s s') (hl : l ≠ lane) :
    s'.thread l = s.thread l ∧ s'.performed l = s.performed l := by
  cases h with
  | io _ _ _ => exact ⟨rfl, Function.update_of_ne hl ..⟩
  | _ => exact ⟨put_thread_ne s _ hl, rfl⟩

theorem ThreadStep.phase (h : ThreadStep job lane s s') (hphase : Phase job s lane (s.thread lane)) :
    Phase job s' lane (s'.thread lane) := by
  have hgrows := h.grows
  cases h with
  | io hrunning hlt _ =>
    change Phase job _ lane (s.thread lane)
    rw [hrunning]
    change Function.update s.performed lane (s.performed lane + 1) lane ≤ job.steps lane
    rw [Function.update_self]
    exact hlt
  | ioFails hrunning hlt =>
    rw [put_thread]
    exact ⟨rfl, hlt, fun hne => hne⟩
  | fnReturns hrunning hge =>
    rw [hrunning] at hphase
    rw [put_thread]
    exact le_antisymm hphase hge
  | lock hcaught _ =>
    rw [hcaught] at hphase
    change Phase job _ lane ((s.put lane _).thread lane)
    rw [put_thread]
    exact Raises.mono hphase hgrows rfl
  | record hlocked =>
    rw [hlocked] at hphase
    change Phase job _ lane ((s.put lane _).thread lane)
    rw [put_thread]
    refine ⟨Raises.mono hphase hgrows rfl, ?_⟩
    cases hfailure : s.failure <;> rfl
  | unlock hunlocking =>
    rw [hunlocking] at hphase
    change Phase job _ lane ((s.put lane _).thread lane)
    rw [put_thread]
    exact ⟨hphase.1.mono hgrows rfl, hphase.2, fun fd hfd => .inr hfd⟩
  | shutdown hcancelling =>
    rw [hcancelling] at hphase
    change Phase job _ lane ((s.put lane _).thread lane)
    rw [put_thread]
    exact ⟨hphase.1.mono hgrows rfl, hphase.2.1, hphase.2.2.next rfl⟩
  | stop hcancelling =>
    rw [hcancelling] at hphase
    rw [put_thread]
    exact ⟨hphase.1.mono hgrows rfl, hphase.2.1, hphase.2.2⟩

theorem ThreadStep.exn (h : ThreadStep job lane s s') (hx : (s.thread l).exn = some x) :
    (s'.thread l).exn = some x := by
  by_cases hl : l = lane
  · subst hl
    cases h with
    | io _ _ _ => exact hx
    | ioFails hrunning _ =>
      rw [hrunning] at hx
      cases hx
    | fnReturns hrunning _ =>
      rw [hrunning] at hx
      cases hx
    | lock hold _ | record hold | unlock hold | shutdown hold | stop hold =>
      rw [hold] at hx
      exact (congrArg Thread.exn (put_thread s l _)).trans hx
  · rw [(h.other hl).1]
    exact hx

theorem ThreadStep.moves (h : ThreadStep job lane s s') : s.thread lane ≠ .notStarted ∧
    (s.thread lane).over = false ∧ s'.thread lane ≠ .notStarted := by
  cases h with
  | io hold _ _ =>
    change _ ∧ _ ∧ s.thread lane ≠ _
    rw [hold]
    simp [Thread.over]
  | ioFails hold _ | fnReturns hold _ | lock hold _ | record hold | unlock hold | shutdown hold
  | stop hold =>
    change _ ∧ _ ∧ (s.put lane _).thread lane ≠ _
    rw [hold, put_thread]
    simp [Thread.over]

def MutexInv (s : State Fd E) : Prop :=
  ∀ lane, (s.thread lane).holds = true ↔ s.failureMutex = some lane

theorem ThreadStep.mutex (h : ThreadStep job lane s s') (hinv : MutexInv s) : MutexInv s' := by
  intro l
  have hold := hinv l
  by_cases hl : l = lane
  · subst hl
    cases h with
    | io _ _ _ => exact hold
    | ioFails hthread _ | fnReturns hthread _ | record hthread | shutdown hthread | stop hthread =>
      change ((s.put l _).thread l).holds = true ↔ s.failureMutex = some l
      rw [hthread] at hold
      rw [put_thread]
      exact hold
    | lock _ _ =>
      change ((s.put l _).thread l).holds = true ↔ some l = some l
      rw [put_thread]
      simp [Thread.holds]
    | unlock _ =>
      change ((s.put l _).thread l).holds = true ↔ none = some l
      rw [put_thread]
      simp [Thread.holds]
  · rw [(h.other hl).1, hold]
    cases h with
    | lock _ hfree =>
      rw [hfree]
      simpa using Ne.symm hl
    | unlock hunlocking =>
      have howner : s.failureMutex = some lane := (hinv lane).mp (by rw [hunlocking]; rfl)
      rw [howner]
      simpa using Ne.symm hl
    | _ => exact Iff.rfl

def Unspawned (job : Job Fd) (s : State Fd E) : Prop := ∃ lane ∈ job.lanes, lane ∉ s.workers

/-- What holds of the call, by the place the caller stands at. -/
def MainInv (job : Job Fd) (s : State Fd E) : Main Fd E → Prop
  | .spawning todo => s.workers ++ todo = job.lanes ∧ s.creation = none ∧ s.joined = []
  | .cancelling rest =>
    Unspawned job s ∧ s.creation.isSome = true ∧ s.joined = [] ∧ ShutDown job s rest
  | .joining todo => s.joined ++ todo = s.workers ∧ (s.creation = none → s.workers = job.lanes) ∧
      (s.creation.isSome = true → Unspawned job s ∧ ShutDown job s [])
  | .returned => s.joined = s.workers ∧ s.workers = job.lanes ∧ s.creation = none ∧ s.failure = none
  | .threw x => s.joined = s.workers ∧ s.workers = job.lanes ∧ s.creation = none ∧ s.failure = some x
  | .threwSpawn e => s.joined = s.workers ∧ Unspawned job s ∧ s.creation = some e

structure Inv (job : Job Fd) (s : State Fd E) : Prop where
  phase : ∀ lane, Phase job s lane (s.thread lane)
  started : ∀ lane, s.thread lane ≠ .notStarted ↔ lane ∈ s.workers
  lanes : ∀ lane ∈ s.workers, lane ∈ job.lanes
  joined : ∀ lane ∈ s.joined, (s.thread lane).over = true
  mutex : MutexInv s
  clean : s.down ≠ [] → s.failure.isSome = true ∨ s.creation.isSome = true
  first : ∀ x, s.failure = some x → s.creation = none → x.down = []
  kept : ∀ x, s.failure = some x → (s.thread x.lane).exn = some x
  main : MainInv job s s.main

theorem Inv.start (job : Job Fd) : Inv job (.start job : State Fd E) where
  phase := fun _ => rfl
  started := by simp [State.start]
  lanes := by simp [State.start]
  joined := by simp [State.start]
  mutex := by simp [MutexInv, State.start, Thread.holds]
  clean := fun hne => absurd rfl hne
  first := fun x hx => by cases hx
  kept := fun x hx => by cases hx
  main := ⟨rfl, rfl, rfl⟩

/-- The recorded exception is older than every shutdown unless a thread could not be created. -/
theorem ThreadStep.failure (h : ThreadStep job lane s s') (hinv : Inv job s) {y : Raised Fd E}
    (hy : s'.failure = some y) :
    (s'.creation = none → y.down = []) ∧ (s'.thread y.lane).exn = some y := by
  have hcreation := h.caller.2.2.2
  have hold : s.failure = some y → (s'.creation = none → y.down = []) ∧ (s'.thread y.lane).exn = some y :=
    fun hs => ⟨fun hnone => hinv.first y hs (hcreation ▸ hnone), h.exn (hinv.kept y hs)⟩
  cases h with
  | @record x hlocked =>
    cases hfailure : s.failure with
    | some z =>
      apply hold
      change (if s.failure.isNone then _ else s.failure) = some y at hy
      rw [hfailure] at hy
      rw [hfailure, ← hy]
      rfl
    | none =>
      change (if s.failure.isNone then some x else s.failure) = some y at hy
      rw [hfailure] at hy
      obtain rfl : x = y := Option.some.inj hy
      have hraises : Raises job s lane x := by
        have hphase := hinv.phase lane
        rw [hlocked] at hphase
        exact hphase
      refine ⟨fun hnone => ?_, ?_⟩
      · by_contra hne
        rcases hinv.clean (hraises.down hne) with hsome | hsome
        · rw [hfailure] at hsome
          cases hsome
        · rw [show s.creation = none from hnone] at hsome
          cases hsome
      · rw [hraises.owner]
        exact congrArg Thread.exn (put_thread s lane _)
  | _ => exact hold hy

theorem ThreadStep.down (h : ThreadStep job lane s s') (hinv : Inv job s) (hne : s'.down ≠ []) :
    s'.failure.isSome = true ∨ s'.creation.isSome = true := by
  cases h with
  | shutdown hcancelling =>
    left
    have hphase := hinv.phase lane
    rw [hcancelling] at hphase
    exact hphase.2.1
  | record _ =>
    left
    cases hfailure : s.failure <;> rfl
  | _ => exact hinv.clean hne

/-- A lane that moves has not been joined. -/
theorem ThreadStep.not_joined (h : ThreadStep job lane s s') (hinv : Inv job s) : s.joined ≠ s.workers := by
  intro heq
  obtain ⟨hstarted, hover, -⟩ := h.moves
  have hjoined : lane ∈ s.joined := heq ▸ (hinv.started lane).mp hstarted
  rw [hinv.joined lane hjoined] at hover
  cases hover

theorem Inv.thread (hinv : Inv job s) (h : ThreadStep job lane s s') : Inv job s' := by
  obtain ⟨hmain, hworkers, hjoined, hcreation⟩ := h.caller
  have hmoves := h.moves
  refine ⟨fun l => ?_, fun l => ?_, ?_, fun l hl => ?_, h.mutex hinv.mutex, h.down hinv,
    fun y hy => (h.failure hinv hy).1, fun y hy => (h.failure hinv hy).2, ?_⟩
  · by_cases hl : l = lane
    · subst hl
      exact h.phase (hinv.phase l)
    · rw [(h.other hl).1]
      exact (hinv.phase l).mono h.grows (h.other hl).2
  · rw [hworkers, ← hinv.started l]
    by_cases hl : l = lane
    · subst hl
      simp only [hmoves.1, hmoves.2.2, ne_eq, not_false_eq_true]
    · rw [(h.other hl).1]
  · rw [hworkers]
    exact hinv.lanes
  · rw [hjoined] at hl
    have hover := hinv.joined l hl
    by_cases hlane : l = lane
    · subst hlane
      rw [hmoves.2.1] at hover
      cases hover
    · rw [(h.other hlane).1]
      exact hover
  · have hold := hinv.main
    rw [hmain]
    cases hcase : s.main with
    | spawning todo =>
      rw [hcase] at hold
      rw [MainInv, hworkers, hjoined, hcreation]
      exact hold
    | cancelling rest =>
      rw [hcase] at hold
      rw [MainInv, Unspawned, hworkers, hjoined, hcreation]
      exact ⟨hold.1, hold.2.1, hold.2.2.1, h.grows.shutDown hold.2.2.2⟩
    | joining todo =>
      rw [hcase] at hold
      rw [MainInv, Unspawned, hworkers, hjoined, hcreation]
      exact ⟨hold.1, hold.2.1, fun hsome => (hold.2.2 hsome).imp_right h.grows.shutDown⟩
    | returned =>
      rw [hcase] at hold
      exact absurd hold.1 (h.not_joined hinv)
    | threw x =>
      rw [hcase] at hold
      exact absurd hold.1 (h.not_joined hinv)
    | threwSpawn e =>
      rw [hcase] at hold
      exact absurd hold.1 (h.not_joined hinv)

theorem MainStep.lanes (h : MainStep job s s') : s'.thread = s.thread ∧ s'.performed = s.performed ∧
    s'.workers = s.workers ∧ s'.failureMutex = s.failureMutex ∧ s'.failure = s.failure := by
  cases h <;> exact ⟨rfl, rfl, rfl, rfl, rfl⟩

theorem MainStep.grows (h : MainStep job s s') : Grows s s' := by
  cases h with
  | shutdown _ => exact grows_of_down rfl rfl rfl
  | spawnFails _ => exact ⟨fun _ h => h, fun _ h => h, fun _ => rfl⟩
  | _ => exact ⟨fun _ h => h, fun _ h => h, fun h => h⟩

theorem Inv.outcome (hinv : Inv job s) (hmain : s.main = .joining []) :
    MainInv job s (ParallelIo.outcome s) := by
  have hold := hinv.main
  rw [hmain] at hold
  obtain ⟨hjoined, hall, hsome⟩ := hold
  rw [List.append_nil] at hjoined
  rw [ParallelIo.outcome]
  cases hcreation : s.creation with
  | some e => exact ⟨hjoined, (hsome (by rw [hcreation]; rfl)).1, hcreation⟩
  | none =>
    cases hfailure : s.failure with
    | some x => exact ⟨hjoined, hall hcreation, hcreation, hfailure⟩
    | none => exact ⟨hjoined, hall hcreation, hcreation, hfailure⟩

theorem Inv.unspawned (hinv : Inv job s) {todo : List ℕ} (hmain : s.main = .spawning (lane :: todo)) :
    lane ∈ job.lanes ∧ lane ∉ s.workers := by
  have hold := hinv.main
  rw [hmain] at hold
  have hworkers : s.workers ++ lane :: todo = job.lanes := hold.1
  have hnodup := job.nodup
  rw [← hworkers] at hnodup ⊢
  exact ⟨List.mem_append_right _ List.mem_cons_self, fun hmem =>
    List.disjoint_of_nodup_append hnodup hmem List.mem_cons_self⟩

theorem Inv.spawn_fresh (hinv : Inv job s) {todo : List ℕ} (hmain : s.main = .spawning (lane :: todo)) :
    s.thread lane = .notStarted := by
  by_contra hne
  exact (hinv.unspawned hmain).2 ((hinv.started lane).mp hne)

theorem MainStep.main (h : MainStep job s s') (hinv : Inv job s) : MainInv job s' s'.main := by
  have hold := hinv.main
  cases h with
  | spawned hmain =>
    rw [hmain] at hold
    obtain ⟨hworkers, hnone, hjoined⟩ := hold
    rw [List.append_nil] at hworkers
    refine ⟨?_, fun _ => hworkers, fun hsome => ?_⟩
    · change s.joined ++ s.workers = s.workers
      rw [hjoined, List.nil_append]
    · change s.creation.isSome = true at hsome
      rw [hnone] at hsome
      cases hsome
  | @spawnFails lane todo e hmain =>
    rw [hmain] at hold
    obtain ⟨-, -, hjoined⟩ := hold
    exact ⟨⟨lane, hinv.unspawned hmain⟩, rfl, hjoined, fun fd hfd => .inr hfd⟩
  | shutdown hmain =>
    rw [hmain] at hold
    exact ⟨hold.1, hold.2.1, hold.2.2.1, hold.2.2.2.next rfl⟩
  | cancelled hmain =>
    rw [hmain] at hold
    obtain ⟨hunspawned, hsome, hjoined, hdown⟩ := hold
    refine ⟨?_, fun hnone => ?_, fun _ => ⟨hunspawned, hdown⟩⟩
    · change s.joined ++ s.workers = s.workers
      rw [hjoined, List.nil_append]
    · change s.creation = none at hnone
      rw [hnone] at hsome
      cases hsome
  | @join lane todo hmain _ =>
    rw [hmain] at hold
    refine ⟨?_, hold.2⟩
    change s.joined ++ [lane] ++ todo = s.workers
    rw [List.append_assoc]
    exact hold.1
  | finish hmain => exact hinv.outcome hmain

theorem Inv.caller (hinv : Inv job s) (h : MainStep job s s') : Inv job s' := by
  obtain ⟨hthread, hperformed, hworkers, hmutex, hfailure⟩ := h.lanes
  refine ⟨fun l => ?_, ?_, ?_, fun l hl => ?_, ?_, fun hne => ?_, fun x hx hnone => ?_, ?_, h.main hinv⟩
  · rw [hthread]
    exact (hinv.phase l).mono h.grows (congrFun hperformed l)
  · rw [hthread, hworkers]
    exact hinv.started
  · rw [hworkers]
    exact hinv.lanes
  · rw [hthread]
    cases h with
    | @join lane _ _ hover =>
      rcases List.mem_append.mp hl with hmem | hmem
      · exact hinv.joined l hmem
      · rw [List.mem_singleton.mp hmem]
        exact hover
    | _ => exact hinv.joined l hl
  · rw [MutexInv, hthread, hmutex]
    exact hinv.mutex
  · rw [hfailure]
    cases h with
    | spawnFails _ => exact .inr rfl
    | shutdown hmain =>
      right
      have hold := hinv.main
      rw [hmain] at hold
      exact hold.2.1
    | _ => exact hinv.clean hne
  · rw [hfailure] at hx
    refine hinv.first x hx (Option.not_isSome_iff_eq_none.mp fun hsome => ?_)
    have hsome' := h.grows.creation hsome
    rw [hnone] at hsome'
    cases hsome'
  · rw [hthread, hfailure]
    exact hinv.kept

theorem Inv.spawn (hinv : Inv job s) {todo : List ℕ} (hmain : s.main = .spawning (lane :: todo)) :
    Inv job { s.put lane .running with workers := s.workers ++ [lane], main := .spawning todo } := by
  have hstart := hinv.spawn_fresh hmain
  have hold := hinv.main
  rw [hmain] at hold
  obtain ⟨hworkers, hnone, hjoined⟩ := hold
  have hthread : ∀ l, l ≠ lane → (s.put lane .running).thread l = s.thread l := fun l hl =>
    put_thread_ne s _ hl
  have hgrows : Grows s { s.put lane .running with workers := s.workers ++ [lane], main := .spawning todo } :=
    ⟨fun _ h => h, fun _ h => h, fun h => h⟩
  refine ⟨fun l => ?_, fun l => ?_, fun l hl => ?_, fun l hl => ?_, fun l => ?_, hinv.clean, hinv.first,
    fun x hx => ?_, ⟨?_, hnone, hjoined⟩⟩
  · change Phase job _ l ((s.put lane .running).thread l)
    by_cases hl : l = lane
    · subst hl
      have hphase := hinv.phase l
      rw [hstart] at hphase
      rw [put_thread]
      exact (show s.performed l = 0 from hphase).trans_le (Nat.zero_le _)
    · rw [hthread l hl]
      exact (hinv.phase l).mono hgrows rfl
  · change (s.put lane .running).thread l ≠ .notStarted ↔ l ∈ s.workers ++ [lane]
    by_cases hl : l = lane
    · subst hl
      simp [put_thread]
    · rw [hthread l hl, hinv.started l]
      simp [hl]
  · rw [← hworkers]
    rcases List.mem_append.mp hl with hmem | hmem
    · exact List.mem_append_left _ hmem
    · rw [List.mem_singleton.mp hmem]
      exact List.mem_append_right _ List.mem_cons_self
  · change l ∈ s.joined at hl
    rw [hjoined] at hl
    cases hl
  · change ((s.put lane .running).thread l).holds = true ↔ s.failureMutex = some l
    by_cases hl : l = lane
    · subst hl
      have hfree := hinv.mutex l
      rw [hstart] at hfree
      rw [put_thread]
      exact hfree
    · rw [hthread l hl]
      exact hinv.mutex l
  · have hexn := hinv.kept x hx
    change ((s.put lane .running).thread x.lane).exn = some x
    rw [hthread]
    · exact hexn
    · intro heq
      rw [heq, hstart] at hexn
      cases hexn
  · change s.workers ++ [lane] ++ todo = job.lanes
    rw [List.append_assoc]
    exact hworkers

theorem Inv.step (hinv : Inv job s) (h : Steps job s s') : Inv job s' := by
  cases h with
  | spawn hmain => exact hinv.spawn hmain
  | main hmain => exact hinv.caller hmain
  | thread hthread => exact hinv.thread hthread

theorem Inv.over_joined (hinv : Inv job s) (hover : s.main.over = true) : s.joined = s.workers := by
  have hold := hinv.main
  cases hmain : s.main with
  | returned | threw x | threwSpawn e =>
    rw [hmain] at hold
    exact hold.1
  | _ =>
    rw [hmain] at hover
    cases hover

/-- A call returns normally only after every lane has performed all its operations. -/
theorem Inv.returned_iff (hinv : Inv job s) (hover : s.main.over = true) : s.main = .returned ↔
    ∀ lane ∈ job.lanes, s.thread lane = .done ∧ s.performed lane = job.steps lane := by
  have hjoined := hinv.over_joined hover
  have hold := hinv.main
  constructor
  · intro hmain lane hlane
    rw [hmain] at hold
    obtain ⟨-, hworkers, -, hnone⟩ := hold
    have hlast : (s.thread lane).over = true := hinv.joined lane (by rw [hjoined, hworkers]; exact hlane)
    have hphase := hinv.phase lane
    cases hthread : s.thread lane with
    | done =>
      rw [hthread] at hphase
      exact ⟨rfl, hphase⟩
    | stopped x =>
      rw [hthread] at hphase
      have hsome := hphase.2.1
      rw [hnone] at hsome
      cases hsome
    | _ =>
      rw [hthread] at hlast
      cases hlast
  · intro hall
    cases hmain : s.main with
    | returned => rfl
    | threw x =>
      rw [hmain] at hold
      have hexn := hinv.kept x hold.2.2.2
      by_cases hlane : x.lane ∈ job.lanes
      · rw [(hall _ hlane).1] at hexn
        cases hexn
      · have hstart : s.thread x.lane = .notStarted := by
          by_contra hne
          exact hlane (hinv.lanes _ ((hinv.started _).mp hne))
        rw [hstart] at hexn
        cases hexn
    | threwSpawn e =>
      rw [hmain] at hold
      obtain ⟨lane, hlane, hmem⟩ := hold.2.1
      have hdone := (hall lane hlane).1
      exact absurd ((hinv.started lane).mp (by rw [hdone]; simp)) hmem
    | _ =>
      rw [hmain] at hover
      cases hover

/-- What the call rethrows is the exception of a lane, older than every shutdown. -/
theorem Inv.threw (hinv : Inv job s) (hmain : s.main = .threw x) :
    x.lane ∈ job.lanes ∧ s.thread x.lane = .stopped x ∧ x.down = [] := by
  have hjoined := hinv.over_joined (by rw [hmain]; rfl)
  have hold := hinv.main
  rw [hmain] at hold
  obtain ⟨-, -, hnone, hfailure⟩ := hold
  have hexn := hinv.kept x hfailure
  have hworker : x.lane ∈ s.workers := by
    refine (hinv.started _).mp fun hstart => ?_
    rw [hstart] at hexn
    cases hexn
  have hlast := hinv.joined x.lane (hjoined ▸ hworker)
  refine ⟨hinv.lanes _ hworker, ?_, hinv.first x hfailure hnone⟩
  cases hthread : s.thread x.lane with
  | stopped y =>
    rw [hthread] at hexn
    cases hexn
    rfl
  | done =>
    rw [hthread] at hexn
    cases hexn
  | _ =>
    rw [hthread] at hlast
    cases hlast

end RfClassGroups.ParallelIo
