import RfClassGroups.LaneThreads
import RfClassGroups.Lib.Runs

/-! `rf_parallel_io` with its threads: one lane that fails shuts down the descriptors
of all, and the caller joins every lane before it returns or throws. -/

namespace RfClassGroups.ParallelIo

/-- `fn lane` is `steps lane` operations on the descriptor `fd lane`. -/
structure Job (Fd : Type) where
  fds : List Fd
  lanes : List ℕ
  fd : ℕ → Fd
  steps : ℕ → ℕ
  nodup : lanes.Nodup
  owns : ∀ lane ∈ lanes, fd lane ∈ fds

/-- An exception of a lane. `down` is not in the code: the descriptors already shut
down when the lane raised it. -/
structure Raised (Fd E : Type) where
  lane : ℕ
  error : E
  down : List Fd

inductive Thread (Fd E : Type)
  | notStarted
  | running
  | caught (x : Raised Fd E)
  | locked (x : Raised Fd E)
  | unlocking (x : Raised Fd E)
  | cancelling (x : Raised Fd E) (rest : List Fd)
  | stopped (x : Raised Fd E)
  | done

inductive Main (Fd E : Type)
  | spawning (todo : List ℕ)
  | cancelling (rest : List Fd)
  | joining (todo : List ℕ)
  | returned
  | threw (x : Raised Fd E)
  | threwSpawn (e : E)

/-- `creation` is the exception that the handler around the creation of the threads
holds; `joined` is not in the code. -/
structure State (Fd E : Type) where
  main : Main Fd E
  workers : List ℕ := []
  joined : List ℕ := []
  creation : Option E := none
  thread : ℕ → Thread Fd E := fun _ => .notStarted
  performed : ℕ → ℕ := fun _ => 0
  failureMutex : Option ℕ := none
  failure : Option (Raised Fd E) := none
  down : List Fd := []

inductive Event (E : Type)
  | main
  | spawnFails (e : E)
  | thread (lane : ℕ)
  | io (lane : ℕ)
  | ioFails (lane : ℕ) (e : E)

variable {Fd E : Type}

def Thread.over : Thread Fd E → Bool
  | .stopped _ | .done => true
  | _ => false

/-- Whether the call has ended. -/
def Main.over : Main Fd E → Bool
  | .returned | .threw _ | .threwSpawn _ => true
  | _ => false

def State.put (s : State Fd E) (lane : ℕ) (t : Thread Fd E) : State Fd E :=
  { s with thread := Function.update s.thread lane t }

def outcome (s : State Fd E) : Main Fd E :=
  match s.creation, s.failure with
  | some e, _ => .threwSpawn e
  | none, some x => .threw x
  | none, none => .returned

def State.start (job : Job Fd) : State Fd E := { main := .spawning job.lanes }

variable (job : Job Fd)

/-- The caller; `none` while it waits in a join, and once the call has ended. -/
def mainStep (s : State Fd E) : Option (State Fd E) :=
  match s.main with
  | .spawning (lane :: todo) =>
    some { s.put lane .running with workers := s.workers ++ [lane], main := .spawning todo }
  | .spawning [] => some { s with main := .joining s.workers }
  | .cancelling (fd :: rest) => some { s with down := s.down ++ [fd], main := .cancelling rest }
  | .cancelling [] => some { s with main := .joining s.workers }
  | .joining (lane :: todo) =>
    if (s.thread lane).over then some { s with joined := s.joined ++ [lane], main := .joining todo }
    else none
  | .joining [] => some { s with main := outcome s }
  | _ => none

def spawnFailsStep (s : State Fd E) (e : E) : Option (State Fd E) :=
  match s.main with
  | .spawning (_ :: _) => some { s with creation := some e, main := .cancelling job.fds }
  | _ => none

/-- What a lane does outside of its operations; `none` also while it waits for the mutex. -/
def threadStep (s : State Fd E) (lane : ℕ) : Option (State Fd E) :=
  match s.thread lane with
  | .running => if s.performed lane < job.steps lane then none else some (s.put lane .done)
  | .caught x =>
    if s.failureMutex.isNone then some { s.put lane (.locked x) with failureMutex := some lane }
    else none
  | .locked x =>
    some { s.put lane (.unlocking x) with
      failure := if s.failure.isNone then some x else s.failure }
  | .unlocking x => some { s.put lane (.cancelling x job.fds) with failureMutex := none }
  | .cancelling x (fd :: rest) => some { s.put lane (.cancelling x rest) with down := s.down ++ [fd] }
  | .cancelling x [] => some (s.put lane (.stopped x))
  | _ => none

def ioFailsStep (s : State Fd E) (lane : ℕ) (e : E) : Option (State Fd E) :=
  match s.thread lane with
  | .running =>
    if s.performed lane < job.steps lane then some (s.put lane (.caught ⟨lane, e, s.down⟩)) else none
  | _ => none

/-- The steps of a lane, one constructor for each branch. -/
inductive ThreadStep (lane : ℕ) (s : State Fd E) : State Fd E → Prop
  | io : s.thread lane = .running → s.performed lane < job.steps lane → job.fd lane ∉ s.down →
      ThreadStep lane s { s with performed := Function.update s.performed lane (s.performed lane + 1) }
  | ioFails {e : E} : s.thread lane = .running → s.performed lane < job.steps lane →
      ThreadStep lane s (s.put lane (.caught ⟨lane, e, s.down⟩))
  | fnReturns : s.thread lane = .running → job.steps lane ≤ s.performed lane →
      ThreadStep lane s (s.put lane .done)
  | lock {x : Raised Fd E} : s.thread lane = .caught x → s.failureMutex = none →
      ThreadStep lane s { s.put lane (.locked x) with failureMutex := some lane }
  | record {x : Raised Fd E} : s.thread lane = .locked x → ThreadStep lane s
      { s.put lane (.unlocking x) with failure := if s.failure.isNone then some x else s.failure }
  | unlock {x : Raised Fd E} : s.thread lane = .unlocking x →
      ThreadStep lane s { s.put lane (.cancelling x job.fds) with failureMutex := none }
  | shutdown {x : Raised Fd E} {fd : Fd} {rest : List Fd} : s.thread lane = .cancelling x (fd :: rest) →
      ThreadStep lane s { s.put lane (.cancelling x rest) with down := s.down ++ [fd] }
  | stop {x : Raised Fd E} : s.thread lane = .cancelling x [] →
      ThreadStep lane s (s.put lane (.stopped x))

/-- The steps of the caller that create no thread. -/
inductive MainStep (s : State Fd E) : State Fd E → Prop
  | spawned : s.main = .spawning [] → MainStep s { s with main := .joining s.workers }
  | spawnFails {lane : ℕ} {todo : List ℕ} {e : E} : s.main = .spawning (lane :: todo) →
      MainStep s { s with creation := some e, main := .cancelling job.fds }
  | shutdown {fd : Fd} {rest : List Fd} : s.main = .cancelling (fd :: rest) →
      MainStep s { s with down := s.down ++ [fd], main := .cancelling rest }
  | cancelled : s.main = .cancelling [] → MainStep s { s with main := .joining s.workers }
  | join {lane : ℕ} {todo : List ℕ} : s.main = .joining (lane :: todo) → (s.thread lane).over = true →
      MainStep s { s with joined := s.joined ++ [lane], main := .joining todo }
  | finish : s.main = .joining [] → MainStep s { s with main := outcome s }

inductive Steps (s : State Fd E) : State Fd E → Prop
  | spawn {lane : ℕ} {todo : List ℕ} : s.main = .spawning (lane :: todo) → Steps s
      { s.put lane .running with workers := s.workers ++ [lane], main := .spawning todo }
  | main {s' : State Fd E} : MainStep job s s' → Steps s s'
  | thread {s' : State Fd E} {lane : ℕ} : ThreadStep job lane s s' → Steps s s'

section

variable [DecidableEq Fd]

/-- An operation that succeeds; it cannot on a descriptor that is shut down. -/
def ioStep (s : State Fd E) (lane : ℕ) : Option (State Fd E) :=
  match s.thread lane with
  | .running =>
    if s.performed lane < job.steps lane ∧ job.fd lane ∉ s.down then
      some { s with performed := Function.update s.performed lane (s.performed lane + 1) }
    else none
  | _ => none

def step (s : State Fd E) : Event E → Option (State Fd E)
  | .main => mainStep s
  | .spawnFails e => spawnFailsStep job s e
  | .thread lane => threadStep job s lane
  | .io lane => ioStep job s lane
  | .ioFails lane e => ioFailsStep job s lane e

abbrev Reachable : State Fd E → Prop := Runs.Reachable (step job) (.start job)

end

variable {job} {s s' : State Fd E} {ev : Event E} {lane l : ℕ} {x : Raised Fd E}

theorem mainStep_steps (h : mainStep s = some s') : Steps job s s' := by
  rw [mainStep] at h
  split at h
  · next hmain =>
    cases h
    exact .spawn hmain
  · next hmain =>
    cases h
    exact .main (.spawned hmain)
  · next hmain =>
    cases h
    exact .main (.shutdown hmain)
  · next hmain =>
    cases h
    exact .main (.cancelled hmain)
  · next hmain =>
    split at h
    · next hover =>
      cases h
      exact .main (.join hmain hover)
    · cases h
  · next hmain =>
    cases h
    exact .main (.finish hmain)
  · cases h

theorem threadStep_steps (h : threadStep job s lane = some s') : ThreadStep job lane s s' := by
  rw [threadStep] at h
  split at h
  · next hrunning =>
    split at h
    · cases h
    · next hge =>
      cases h
      exact .fnReturns hrunning (not_lt.mp hge)
  · next x hcaught =>
    split at h
    · next hfree =>
      cases h
      exact .lock hcaught (Option.isNone_iff_eq_none.mp hfree)
    · cases h
  · next x hlocked =>
    cases h
    exact .record hlocked
  · next x hunlocking =>
    cases h
    exact .unlock hunlocking
  · next x fd rest hcancelling =>
    cases h
    exact .shutdown hcancelling
  · next x hcancelling =>
    cases h
    exact .stop hcancelling
  · cases h

section

variable [DecidableEq Fd]

theorem step_steps (h : step job s ev = some s') : Steps job s s' := by
  cases ev with
  | main => exact mainStep_steps h
  | spawnFails e =>
    rw [step, spawnFailsStep] at h
    split at h
    · next hmain =>
      cases h
      exact .main (.spawnFails hmain)
    · cases h
  | thread lane => exact .thread (threadStep_steps h)
  | io lane =>
    rw [step, ioStep] at h
    split at h
    · next hrunning =>
      split at h
      · next hlive =>
        cases h
        exact .thread (.io hrunning hlive.1 hlive.2)
      · cases h
    · cases h
  | ioFails lane e =>
    rw [step, ioFailsStep] at h
    split at h
    · next hrunning =>
      split at h
      · next hlt =>
        cases h
        exact .thread (.ioFails hrunning hlt)
      · cases h
    · cases h

end

end RfClassGroups.ParallelIo
