import Mathlib.Algebra.BigOperators.Group.Finset.Basic
import Mathlib.Algebra.Order.BigOperators.Group.Finset
import Mathlib.Data.ENat.Basic
import Mathlib.Data.Fintype.Basic
import Mathlib.Logic.Function.Basic
import Mathlib.Logic.Relation

/-! Parties that exchange messages over bundles of bounded FIFO lanes. A program
is a list of calls. A call uses one port in one direction, its lanes work
concurrently, and it returns when every lane is done. -/

set_option linter.unusedSectionVars false

namespace FifoNetwork

inductive Dir
  | send
  | recv
  deriving DecidableEq

/-- `work l` are the jobs of lane `l`, in order. -/
structure Call (Port Lane Job : Type*) where
  dir : Dir
  port : Port
  work : Lane → List Job

abbrev Program (Port Lane Job : Type*) := List (Call Port Lane Job)

/-- Every port has one party at either end. A job says which message is meant:
`emit` reads it out of the memory of its sender, `store` writes it into the
memory of its receiver. -/
structure Net (Party Port Job Msg Mem : Type*) where
  owner : Dir → Port → Party
  cap : ℕ∞
  emit : Port → Job → Mem → Msg
  store : Port → Job → Msg → Mem → Mem

structure State (Party Port Lane Job Msg Mem : Type*) where
  prog : Party → Program Port Lane Job
  queue : Port → Lane → List Msg
  mem : Party → Mem

section

variable {Port Lane Job : Type*}

/-- Every call comes after the calls before it, every lane is worked through in order. -/
def Ordered (rank : Dir → Port → Job → ℕ) (prog : Program Port Lane Job) : Prop :=
  (∀ c ∈ prog, ∀ l, (c.work l).Pairwise fun j j' => rank c.dir c.port j ≤ rank c.dir c.port j') ∧
    prog.Pairwise fun c c' => ∀ l l', ∀ j ∈ c.work l, ∀ j' ∈ c'.work l',
      rank c.dir c.port j < rank c'.dir c'.port j'

/-- A message is sent no later than it is received, and no earlier than the
message `cap` places before it in its lane is received. -/
def Spaced (cap : ℕ∞) (rank : Dir → Port → Job → ℕ) (port : Port) (jobs : List Job) : Prop :=
  (∀ j ∈ jobs, rank .send port j ≤ rank .recv port j) ∧
    ∀ pre j mid j' post, jobs = pre ++ j :: (mid ++ j' :: post) →
      cap ≤ ((mid.length + 1 : ℕ) : ℕ∞) → rank .recv port j ≤ rank .send port j'

theorem Spaced.suffix {cap : ℕ∞} {rank : Dir → Port → Job → ℕ} {port : Port} {jobs jobs' : List Job}
    (h : Spaced cap rank port jobs) (hs : jobs' <:+ jobs) : Spaced cap rank port jobs' := by
  obtain ⟨a, rfl⟩ := hs
  refine ⟨fun j hj => h.1 j (List.mem_append_right a hj), ?_⟩
  rintro pre j mid j' post rfl hcap
  exact h.2 (a ++ pre) j mid j' post (List.append_assoc a pre _).symm hcap

theorem Spaced.of_pairwise {cap : ℕ∞} {rank : Dir → Port → Job → ℕ} {port : Port} {jobs : List Job}
    (hle : ∀ j ∈ jobs, rank .send port j ≤ rank .recv port j)
    (h : jobs.Pairwise fun j j' => rank .recv port j ≤ rank .send port j') :
    Spaced cap rank port jobs := by
  refine ⟨hle, ?_⟩
  rintro pre j mid j' post rfl _
  have hsub := (List.pairwise_append.mp h).2.1
  exact (List.pairwise_cons.mp hsub).1 j' (by simp)

theorem Ordered.tail {rank : Dir → Port → Job → ℕ} {c : Call Port Lane Job}
    {rest : Program Port Lane Job} (h : Ordered rank (c :: rest)) : Ordered rank rest :=
  ⟨fun c' hc' => h.1 c' (List.mem_cons_of_mem c hc'), (List.pairwise_cons.mp h.2).2⟩

theorem Ordered.append {rank : Dir → Port → Job → ℕ} {prog prog' : Program Port Lane Job}
    (h : Ordered rank prog) (h' : Ordered rank prog') (m : ℕ)
    (hlt : ∀ c ∈ prog, ∀ l, ∀ j ∈ c.work l, rank c.dir c.port j < m)
    (hle : ∀ c ∈ prog', ∀ l, ∀ j ∈ c.work l, m ≤ rank c.dir c.port j) :
    Ordered rank (prog ++ prog') := by
  constructor
  · intro c hc
    rcases List.mem_append.mp hc with hc | hc
    · exact h.1 c hc
    · exact h'.1 c hc
  · refine List.pairwise_append.mpr ⟨h.2, h'.2, fun c hc c' hc' l l' j hj j' hj' => ?_⟩
    exact (hlt c hc l j hj).trans_le (hle c' hc' l' j' hj')

def laneJobs (l : Lane) (prog : Program Port Lane Job) : List (Dir × Port × Job) :=
  prog.flatMap fun c => (c.work l).map fun j => (c.dir, c.port, j)

theorem laneJobs_cons (l : Lane) (c : Call Port Lane Job) (prog : Program Port Lane Job) :
    laneJobs l (c :: prog) = ((c.work l).map fun j => (c.dir, c.port, j)) ++ laneJobs l prog := rfl

section

variable [DecidableEq Port]

def pending (d : Dir) (port : Port) (l : Lane) (prog : Program Port Lane Job) : List Job :=
  prog.flatMap fun c => if c.dir = d ∧ c.port = port then c.work l else []

theorem pending_cons (d : Dir) (port : Port) (l : Lane) (c : Call Port Lane Job)
    (prog : Program Port Lane Job) : pending d port l (c :: prog) =
      (if c.dir = d ∧ c.port = port then c.work l else []) ++ pending d port l prog := rfl

theorem pending_append (d : Dir) (port : Port) (l : Lane) (prog prog' : Program Port Lane Job) :
    pending d port l (prog ++ prog') = pending d port l prog ++ pending d port l prog' :=
  List.flatMap_append

theorem length_pending (d : Dir) (port : Port) (l : Lane) (prog : Program Port Lane Job) :
    (pending d port l prog).length =
      (laneJobs l prog).countP fun x => decide (x.1 = d ∧ x.2.1 = port) := by
  induction prog with
  | nil => rfl
  | cons c prog ih =>
    rw [pending_cons, laneJobs_cons, List.length_append, List.countP_append, List.countP_map, ih,
      Nat.add_right_cancel_iff]
    by_cases h : c.dir = d ∧ c.port = port
    · simp [Function.comp_def, h]
    · rw [if_neg h, List.countP_eq_zero.mpr fun j _ => by simpa using h]
      rfl

theorem mem_pending {d : Dir} {port : Port} {l : Lane} {prog : Program Port Lane Job} {j : Job} :
    j ∈ pending d port l prog ↔ ∃ c ∈ prog, c.dir = d ∧ c.port = port ∧ j ∈ c.work l := by
  simp only [pending, List.mem_flatMap]
  refine exists_congr fun c => and_congr_right fun _ => ?_
  split
  · next h => simp [h]
  · next h =>
    constructor
    · intro hj
      simp at hj
    · rintro ⟨hd, hport, _⟩
      exact absurd ⟨hd, hport⟩ h

end

section

variable [DecidableEq Lane]

def Call.setWork (c : Call Port Lane Job) (l : Lane) (js : List Job) :
    Call Port Lane Job := { c with work := Function.update c.work l js }

theorem setWork_sublist {c : Call Port Lane Job} {l : Lane} {j : Job} {js : List Job}
    (hl : c.work l = j :: js) (l' : Lane) : ((c.setWork l js).work l').Sublist (c.work l') := by
  by_cases hll : l' = l
  · subst hll
    simp [Call.setWork, hl]
  · simp [Call.setWork, hll]

theorem Ordered.setWork {rank : Dir → Port → Job → ℕ} {c : Call Port Lane Job}
    {rest : Program Port Lane Job} (h : Ordered rank (c :: rest)) {l : Lane} {j : Job}
    {js : List Job} (hl : c.work l = j :: js) : Ordered rank (c.setWork l js :: rest) := by
  obtain ⟨hhead, htail⟩ := List.pairwise_cons.mp h.2
  have hsub := fun l' => setWork_sublist hl l'
  constructor
  · intro c' hc' l'
    rcases List.mem_cons.mp hc' with rfl | hc'
    · exact (h.1 c List.mem_cons_self l').sublist (hsub l')
    · exact h.1 c' (List.mem_cons_of_mem c hc') l'
  · refine List.pairwise_cons.mpr ⟨fun c' hc' l₁ l₂ j₁ hj₁ j₂ hj₂ => ?_, htail⟩
    exact hhead c' hc' l₁ l₂ j₁ ((hsub l₁).subset hj₁) j₂ hj₂

theorem laneJobs_setWork {c : Call Port Lane Job} {l : Lane} {j : Job} {js : List Job}
    (hl : c.work l = j :: js) (rest : Program Port Lane Job) (l' : Lane) :
    laneJobs l' (c.setWork l js :: rest) <:+ laneJobs l' (c :: rest) := by
  rw [laneJobs_cons, laneJobs_cons]
  by_cases hll : l' = l
  · subst hll
    refine ⟨[(c.dir, c.port, j)], ?_⟩
    simp [Call.setWork, hl]
  · simp [Call.setWork, hll]

theorem pending_setWork [DecidableEq Port] {c : Call Port Lane Job} {l : Lane} {j : Job}
    {js : List Job} (hl : c.work l = j :: js) (rest : Program Port Lane Job) (d : Dir) (port : Port) (l' : Lane) :
    pending d port l' (c :: rest) =
      (if c.dir = d ∧ c.port = port ∧ l = l' then [j] else []) ++
        pending d port l' (c.setWork l js :: rest) := by
  rw [pending_cons, pending_cons]
  by_cases hc : c.dir = d ∧ c.port = port
  · by_cases hll : l = l'
    · subst hll
      simp [Call.setWork, hc, hl]
    · simp [Call.setWork, hc, hll, Ne.symm hll]
  · have hc' : ¬ (c.dir = d ∧ c.port = port ∧ l = l') := fun h => hc ⟨h.1, h.2.1⟩
    simp [Call.setWork, hc, hc']

end

end

/-- A lane thread of a party moves, or the current call of a party returns. -/
inductive Move (Party Lane : Type*)
  | lane (p : Party) (l : Lane)
  | join (p : Party)

section

variable {Party Port Lane Job Msg Mem : Type*}

def State.setProg [DecidableEq Party] (s : State Party Port Lane Job Msg Mem) (p : Party)
    (prog : Program Port Lane Job) : State Party Port Lane Job Msg Mem :=
  { s with prog := Function.update s.prog p prog }

def State.setQueue [DecidableEq Port] [DecidableEq Lane] (s : State Party Port Lane Job Msg Mem)
    (port : Port) (l : Lane) (q : List Msg) : State Party Port Lane Job Msg Mem :=
  { s with queue := Function.update s.queue port (Function.update (s.queue port) l q) }

def State.setMem [DecidableEq Party] (s : State Party Port Lane Job Msg Mem) (p : Party)
    (m : Mem) : State Party Port Lane Job Msg Mem := { s with mem := Function.update s.mem p m }

def State.start (prog : Party → Program Port Lane Job) (mem : Party → Mem) :
    State Party Port Lane Job Msg Mem := ⟨prog, fun _ _ => [], mem⟩

def State.Finished (s : State Party Port Lane Job Msg Mem) : Prop := ∀ p, s.prog p = []

variable [DecidableEq Party] [DecidableEq Port] [DecidableEq Lane] [Fintype Lane]

/-- A send waits while its lane is full, a receive while it is empty. -/
def step (N : Net Party Port Job Msg Mem) (s : State Party Port Lane Job Msg Mem) :
    Move Party Lane → Option (State Party Port Lane Job Msg Mem)
  | .lane p l =>
    match s.prog p with
    | [] => none
    | c :: rest =>
      match c.work l with
      | [] => none
      | j :: js =>
        let s' := s.setProg p (c.setWork l js :: rest)
        match c.dir with
        | .send =>
          if ((s.queue c.port l).length : ℕ∞) < N.cap then
            some (s'.setQueue c.port l (s.queue c.port l ++ [N.emit c.port j (s.mem p)]))
          else none
        | .recv =>
          match s.queue c.port l with
          | [] => none
          | m :: q => some ((s'.setQueue c.port l q).setMem p (N.store c.port j m (s.mem p)))
  | .join p =>
    match s.prog p with
    | [] => none
    | c :: rest => if ∀ l, c.work l = [] then some (s.setProg p rest) else none

inductive Step (N : Net Party Port Job Msg Mem) (s : State Party Port Lane Job Msg Mem) :
    State Party Port Lane Job Msg Mem → Prop
  | send {p : Party} {c : Call Port Lane Job} {rest : Program Port Lane Job} {l : Lane} {j : Job}
      {js : List Job} (hp : s.prog p = c :: rest) (hd : c.dir = .send) (hl : c.work l = j :: js)
      (hcap : ((s.queue c.port l).length : ℕ∞) < N.cap) :
      Step N s ((s.setProg p (c.setWork l js :: rest)).setQueue c.port l
        (s.queue c.port l ++ [N.emit c.port j (s.mem p)]))
  | recv {p : Party} {c : Call Port Lane Job} {rest : Program Port Lane Job} {l : Lane} {j : Job}
      {js : List Job} {m : Msg} {q : List Msg} (hp : s.prog p = c :: rest) (hd : c.dir = .recv)
      (hl : c.work l = j :: js) (hq : s.queue c.port l = m :: q) :
      Step N s (((s.setProg p (c.setWork l js :: rest)).setQueue c.port l q).setMem p
        (N.store c.port j m (s.mem p)))
  | join {p : Party} {c : Call Port Lane Job} {rest : Program Port Lane Job}
      (hp : s.prog p = c :: rest) (hdone : ∀ l, c.work l = []) : Step N s (s.setProg p rest)

variable {N : Net Party Port Job Msg Mem} {s s' s₀ : State Party Port Lane Job Msg Mem}

theorem step_iff : (∃ m, step N s m = some s') ↔ Step N s s' := by
  constructor
  · rintro ⟨m, h⟩
    cases m with
    | join p =>
      cases hp : s.prog p with
      | nil => simp [step, hp] at h
      | cons c rest =>
        simp only [step, hp] at h
        split at h
        · next hdone =>
          cases h
          exact .join hp hdone
        · cases h
    | lane p l =>
      cases hp : s.prog p with
      | nil => simp [step, hp] at h
      | cons c rest =>
        cases hl : c.work l with
        | nil => simp [step, hp, hl] at h
        | cons j js =>
          cases hd : c.dir with
          | send =>
            simp only [step, hp, hl, hd] at h
            split at h
            · next hcap =>
              cases h
              exact .send hp hd hl hcap
            · cases h
          | recv =>
            cases hq : s.queue c.port l with
            | nil => simp [step, hp, hl, hd, hq] at h
            | cons m q =>
              simp only [step, hp, hl, hd, hq, Option.some.injEq] at h
              exact h ▸ .recv hp hd hl hq
  · intro h
    cases h with
    | @send p c rest l j js hp hd hl hcap => exact ⟨.lane p l, by simp [step, hp, hl, hd, hcap]⟩
    | @recv p c rest l j js m q hp hd hl hq => exact ⟨.lane p l, by simp [step, hp, hl, hd, hq]⟩
    | @join p c rest hp hdone => exact ⟨.join p, by simp [step, hp, hdone]⟩

abbrev Reachable (N : Net Party Port Job Msg Mem) :=
  Relation.ReflTransGen fun s s' : State Party Port Lane Job Msg Mem => ∃ m, step N s m = some s'

theorem Reachable.invariant {P : State Party Port Lane Job Msg Mem → Prop} (h0 : P s₀)
    (hstep : ∀ s s', Step N s s' → P s → P s') (h : Reachable N s₀ s) : P s := by
  induction h with
  | refl => exact h0
  | tail _ hlast ih => exact hstep _ _ (step_iff.mp hlast) ih

def CanStep (N : Net Party Port Job Msg Mem) (s : State Party Port Lane Job Msg Mem) : Prop :=
  ∃ m, (step N s m).isSome

/-- No reachable state has an unfinished party while no party can move. -/
def DeadlockFree (N : Net Party Port Job Msg Mem)
    (s₀ : State Party Port Lane Job Msg Mem) : Prop :=
  ∀ s, Reachable N s₀ s → ¬ s.Finished → CanStep N s

theorem Step.length_le (h : Step N s s') (p : Party) :
    (s'.prog p).length ≤ (s.prog p).length := by
  have hset : ∀ {p' : Party} {prog : Program Port Lane Job}, prog.length ≤ (s.prog p').length →
      ((s.setProg p' prog).prog p).length ≤ (s.prog p).length := by
    intro p' prog hle
    by_cases hp : p = p'
    · subst hp
      simpa [State.setProg] using hle
    · simp [State.setProg, hp]
  cases h with
  | send hp hd hl hcap => exact hset (by simp [hp])
  | recv hp hd hl hq => exact hset (by simp [hp])
  | join hp hdone => exact hset (by simp [hp])

def todo (N : Net Party Port Job Msg Mem) (s : State Party Port Lane Job Msg Mem) (d : Dir)
    (port : Port) (l : Lane) : List Job := pending d port l (s.prog (N.owner d port))

def Owned (N : Net Party Port Job Msg Mem) (s : State Party Port Lane Job Msg Mem) : Prop :=
  ∀ p, ∀ c ∈ s.prog p, N.owner c.dir c.port = p

/-- The messages in a lane are those of the jobs that are sent and not yet
received, in order. -/
def Tracked (N : Net Party Port Job Msg Mem) (Good : Port → Job → Msg → Prop)
    (s : State Party Port Lane Job Msg Mem) : Prop :=
  ∀ port l, ∃ sent, List.Forall₂ (Good port) sent (s.queue port l) ∧
    sent ++ todo N s .send port l = todo N s .recv port l

theorem Owned.setProg (ho : Owned N s) {p : Party} {prog : Program Port Lane Job}
    (h : ∀ c ∈ prog, N.owner c.dir c.port = p) : Owned N (s.setProg p prog) := by
  intro p' c hc
  by_cases hp : p' = p
  · subst hp
    exact h c (by simpa [State.setProg] using hc)
  · exact ho p' c (by simpa [State.setProg, hp] using hc)

theorem Owned.pop (ho : Owned N s) {p : Party} {c : Call Port Lane Job}
    {rest : Program Port Lane Job} (hp : s.prog p = c :: rest) (l : Lane) (js : List Job) :
    Owned N (s.setProg p (c.setWork l js :: rest)) := by
  refine ho.setProg fun c' hc' => ?_
  rcases List.mem_cons.mp hc' with rfl | hc'
  · exact ho p c (by simp [hp])
  · exact ho p c' (by simp [hp, hc'])

theorem Owned.step (ho : Owned N s) (h : Step N s s') : Owned N s' := by
  cases h with
  | send hp hd hl hcap => exact ho.pop hp _ _
  | recv hp hd hl hq => exact ho.pop hp _ _
  | join hp hdone => exact ho.setProg fun c hc => ho _ c (by simp [hp, hc])

/-- Taking a job off a program takes it off the list of its lane, direction and
port, and off no other. -/
theorem todo_pop (ho : Owned N s) {p : Party} {c : Call Port Lane Job}
    {rest : Program Port Lane Job} {l : Lane} {j : Job} {js : List Job} (hp : s.prog p = c :: rest)
    (hl : c.work l = j :: js) (d : Dir) (port : Port) (l' : Lane) :
    todo N s d port l' = (if c.dir = d ∧ c.port = port ∧ l = l' then [j] else []) ++
      todo N (s.setProg p (c.setWork l js :: rest)) d port l' := by
  by_cases hown : N.owner d port = p
  · simp only [todo, hown, hp, State.setProg, Function.update_self]
    exact pending_setWork hl rest d port l'
  · have hne : ¬ (c.dir = d ∧ c.port = port ∧ l = l') := by
      rintro ⟨rfl, rfl, _⟩
      exact hown (ho p c (by simp [hp]))
    simp [todo, State.setProg, hown, hne]

theorem todo_join {p : Party} {c : Call Port Lane Job} {rest : Program Port Lane Job}
    (hp : s.prog p = c :: rest) (hdone : ∀ l, c.work l = []) (d : Dir) (port : Port) (l : Lane) :
    todo N (s.setProg p rest) d port l = todo N s d port l := by
  by_cases hown : N.owner d port = p
  · simp [todo, hown, hp, State.setProg, pending_cons, hdone]
  · simp [todo, State.setProg, hown]

theorem State.setQueue_queue (s : State Party Port Lane Job Msg Mem) (port port' : Port)
    (l l' : Lane) (q : List Msg) : (s.setQueue port l q).queue port' l' =
      if port = port' ∧ l = l' then q else s.queue port' l' := by
  by_cases hport : port = port'
  · subst hport
    by_cases hl : l = l'
    · subst hl
      simp [State.setQueue]
    · simp [State.setQueue, hl, Ne.symm hl]
  · simp [State.setQueue, hport, Ne.symm hport]

theorem Tracked.step {Good : Port → Job → Msg → Prop} (ho : Owned N s)
    (hgood : ∀ port j, Good port j (N.emit port j (s.mem (N.owner .send port)))) (ht : Tracked N Good s)
    (h : Step N s s') : Tracked N Good s' := by
  intro port l'
  obtain ⟨sent, hsent, heq⟩ := ht port l'
  cases h with
  | @join p c rest hp hdone =>
    refine ⟨sent, hsent, ?_⟩
    rw [todo_join hp hdone, todo_join hp hdone]
    exact heq
  | @send p c rest l j js hp hd hl hcap =>
    have hsend := todo_pop ho hp hl .send port l'
    have hrecv := todo_pop ho hp hl .recv port l'
    rw [hd, if_neg (by simp), List.nil_append] at hrecv
    rw [State.setQueue_queue]
    by_cases hc : c.port = port ∧ l = l'
    · rw [if_pos ⟨hd, hc⟩] at hsend
      obtain ⟨rfl, rfl⟩ := hc
      refine ⟨sent ++ [j], ?_, ?_⟩
      · rw [if_pos ⟨rfl, rfl⟩]
        have hown := ho p c (by simp [hp])
        rw [hd] at hown
        exact List.rel_append hsent (.cons (hown ▸ hgood c.port j) .nil)
      · rw [hsend, hrecv] at heq
        rw [List.append_assoc]
        exact heq
    · rw [if_neg (fun h => hc h.2), List.nil_append] at hsend
      refine ⟨sent, ?_, ?_⟩
      · rw [if_neg hc]
        exact hsent
      · rw [hsend, hrecv] at heq
        exact heq
  | @recv p c rest l j js m q hp hd hl hq =>
    have hsend := todo_pop ho hp hl .send port l'
    have hrecv := todo_pop ho hp hl .recv port l'
    rw [hd, if_neg (by simp), List.nil_append] at hsend
    change ∃ sent, List.Forall₂ (Good port) sent
      (((s.setProg p (c.setWork l js :: rest)).setQueue c.port l q).queue port l') ∧ _
    rw [State.setQueue_queue]
    by_cases hc : c.port = port ∧ l = l'
    · rw [if_pos ⟨hd, hc⟩] at hrecv
      obtain ⟨rfl, rfl⟩ := hc
      rw [hq] at hsent
      cases hsent with
      | @cons j' _ sent _ hj hsent =>
        rw [hsend, hrecv, List.cons_append, List.singleton_append, List.cons.injEq] at heq
        refine ⟨sent, ?_, heq.2⟩
        rw [if_pos ⟨rfl, rfl⟩]
        exact hsent
    · rw [if_neg (fun h => hc h.2), List.nil_append] at hrecv
      refine ⟨sent, ?_, ?_⟩
      · rw [if_neg hc]
        exact hsent
      · rw [hsend, hrecv] at heq
        exact heq

theorem Step.laneJobs_suffix (h : Step N s s') (p : Party) (l : Lane) :
    laneJobs l (s'.prog p) <:+ laneJobs l (s.prog p) := by
  have hset : ∀ {p' : Party} {prog : Program Port Lane Job},
      laneJobs l prog <:+ laneJobs l (s.prog p') →
      laneJobs l ((s.setProg p' prog).prog p) <:+ laneJobs l (s.prog p) := by
    intro p' prog hsuf
    by_cases hp : p = p'
    · subst hp
      simpa [State.setProg] using hsuf
    · simp [State.setProg, hp]
  cases h with
  | send hp hd hl hcap => exact hset (hp ▸ laneJobs_setWork hl _ l)
  | recv hp hd hl hq => exact hset (hp ▸ laneJobs_setWork hl _ l)
  | join hp hdone => exact hset (hp ▸ List.suffix_append _ _)

theorem Step.queue_le (h : Step N s s')
    (hs : ∀ port l, ((s.queue port l).length : ℕ∞) ≤ N.cap) (port : Port) (l : Lane) :
    ((s'.queue port l).length : ℕ∞) ≤ N.cap := by
  cases h with
  | @send p c rest l' j js hp hd hl hcap =>
    rw [State.setQueue_queue]
    split
    · rw [List.length_append, List.length_singleton]
      exact_mod_cast Order.add_one_le_of_lt hcap
    · exact hs port l
  | @recv p c rest l' j js m q hp hd hl hq =>
    change (((((s.setProg p (c.setWork l' js :: rest)).setQueue c.port l' q).queue port l).length :
      ℕ) : ℕ∞) ≤ N.cap
    rw [State.setQueue_queue]
    split
    · refine le_trans ?_ (hs c.port l')
      rw [hq]
      exact_mod_cast Nat.le_succ q.length
    · exact hs port l
  | join hp hdone => exact hs port l

theorem Tracked.length_eq {Good : Port → Job → Msg → Prop} (ht : Tracked N Good s) (port : Port)
    (l : Lane) :
    (s.queue port l).length + (todo N s .send port l).length = (todo N s .recv port l).length := by
  obtain ⟨sent, hsent, heq⟩ := ht port l
  rw [← heq, List.length_append, hsent.length_eq]

theorem tracked_of_empty (Good : Port → Job → Msg → Prop) (hq : ∀ port l, s.queue port l = [])
    (h : ∀ port l, todo N s .send port l = todo N s .recv port l) : Tracked N Good s := fun port l =>
  ⟨[], by rw [hq]; exact .nil, h port l⟩

theorem Tracked.good_head {Good : Port → Job → Msg → Prop} (ht : Tracked N Good s) (ho : Owned N s)
    {p : Party} {c : Call Port Lane Job} {rest : Program Port Lane Job} {l : Lane} {j : Job}
    {js : List Job} {m : Msg} {q : List Msg} (hp : s.prog p = c :: rest) (hd : c.dir = .recv)
    (hl : c.work l = j :: js) (hq : s.queue c.port l = m :: q) : Good c.port j m := by
  obtain ⟨sent, hsent, heq⟩ := ht c.port l
  have hrecv := todo_pop ho hp hl .recv c.port l
  rw [if_pos ⟨hd, rfl, rfl⟩, List.singleton_append] at hrecv
  rw [hq] at hsent
  cases hsent with
  | cons hj hsent =>
    rw [hrecv, List.cons_append, List.cons.injEq] at heq
    exact heq.1 ▸ hj

theorem Tracked.queue_eq_nil {Good : Port → Job → Msg → Prop} (ht : Tracked N Good s)
    (hs : s.Finished) (port : Port) (l : Lane) : s.queue port l = [] := by
  obtain ⟨sent, hsent, heq⟩ := ht port l
  rw [todo, todo, hs, hs] at heq
  have hnil : sent = [] := (List.append_eq_nil_iff.mp heq).1
  rw [hnil] at hsent
  exact List.forall₂_nil_left_iff.mp hsent

theorem Step.todo_suffix (h : Step N s s') (ho : Owned N s) (d : Dir) (port : Port) (l : Lane) :
    todo N s' d port l <:+ todo N s d port l := by
  cases h with
  | send hp hd hl hcap =>
    rw [todo_pop ho hp hl]
    exact List.suffix_append _ _
  | recv hp hd hl hq =>
    rw [todo_pop ho hp hl]
    exact List.suffix_append _ _
  | join hp hdone => rw [todo_join hp hdone]

/-! Every step does one unit of the work that is left, so every run ends. -/

theorem sum_eq_add_one {ι : Type*} [Fintype ι] [DecidableEq ι] {f g : ι → ℕ} {i : ι}
    (hi : f i = g i + 1) (hne : ∀ k, k ≠ i → f k = g k) : ∑ k, f k = ∑ k, g k + 1 := by
  have hrest : ∑ k ∈ Finset.univ.erase i, f k = ∑ k ∈ Finset.univ.erase i, g k :=
    Finset.sum_congr rfl fun k hk => hne k (Finset.ne_of_mem_erase hk)
  rw [← Finset.add_sum_erase _ f (Finset.mem_univ i), ← Finset.add_sum_erase _ g (Finset.mem_univ i),
    hrest, hi, Nat.add_right_comm]

def progSize (prog : Program Port Lane Job) : ℕ :=
  (prog.map fun c => 1 + ∑ l, (c.work l).length).sum

theorem progSize_cons (c : Call Port Lane Job) (prog : Program Port Lane Job) :
    progSize (c :: prog) = 1 + ∑ l, (c.work l).length + progSize prog := List.sum_cons

theorem progSize_setWork {c : Call Port Lane Job} {l : Lane} {j : Job} {js : List Job}
    (hl : c.work l = j :: js) (rest : Program Port Lane Job) :
    progSize (c :: rest) = progSize (c.setWork l js :: rest) + 1 := by
  have hsum : ∑ l', (c.work l').length = ∑ l', ((c.setWork l js).work l').length + 1 := by
    apply sum_eq_add_one (i := l)
    · simp [Call.setWork, hl]
    · intro l' hne
      simp [Call.setWork, hne]
  rw [progSize_cons, progSize_cons, hsum]
  omega

section

variable [Fintype Party]

def size (s : State Party Port Lane Job Msg Mem) : ℕ := ∑ p, progSize (s.prog p)

theorem size_setProg {p : Party} {prog : Program Port Lane Job}
    (h : progSize (s.prog p) = progSize prog + 1) : size s = size (s.setProg p prog) + 1 := by
  apply sum_eq_add_one (i := p)
  · simpa [State.setProg] using h
  · intro p' hne
    simp [State.setProg, hne]

theorem Step.size (h : Step N s s') : size s = size s' + 1 := by
  cases h with
  | send hp hd hl hcap => exact size_setProg (hp ▸ progSize_setWork hl _)
  | recv hp hd hl hq => exact size_setProg (hp ▸ progSize_setWork hl _)
  | @join p c rest hp hdone =>
    apply size_setProg
    rw [hp, progSize_cons]
    simp [hdone, Nat.add_comm]

/-- Every run can be continued until no party can move. -/
theorem exists_stuck (N : Net Party Port Job Msg Mem)
    (s : State Party Port Lane Job Msg Mem) :
    ∃ s', Reachable N s s' ∧ ∀ m, step N s' m = none := by
  induction hsize : size s generalizing s with
  | zero =>
    refine ⟨s, .refl, fun m => Option.eq_none_iff_forall_ne_some.mpr fun s' h => ?_⟩
    have hlt := (step_iff.mp ⟨m, h⟩).size
    omega
  | succ k ih =>
    by_cases hstuck : ∀ m, step N s m = none
    · exact ⟨s, .refl, hstuck⟩
    · obtain ⟨m, hm⟩ := not_forall.mp hstuck
      obtain ⟨s', hs'⟩ := Option.ne_none_iff_exists'.mp hm
      have hlt := (step_iff.mp ⟨m, hs'⟩).size
      obtain ⟨t, ht, hdone⟩ := ih s' (by omega)
      exact ⟨t, .head ⟨m, hs'⟩ ht, hdone⟩

theorem DeadlockFree.exists_finished (h : DeadlockFree N s₀) (hs : Reachable N s₀ s) :
    ∃ s', Reachable N s s' ∧ s'.Finished := by
  obtain ⟨s', hs', hstuck⟩ := exists_stuck N s
  refine ⟨s', hs', by_contra fun hun => ?_⟩
  obtain ⟨m, hm⟩ := h s' (hs.trans hs') hun
  simp [hstuck m] at hm

end

/-! Progress from a rank of the pending jobs: the job of least rank is never
blocked. -/

/-- What every reachable state of a well-ordered network satisfies. -/
structure Scheduled (N : Net Party Port Job Msg Mem) (rank : Dir → Port → Job → ℕ)
    (s : State Party Port Lane Job Msg Mem) : Prop where
  owned : Owned N s
  tracked : Tracked N (fun _ _ _ => True) s
  ordered : ∀ p, Ordered rank (s.prog p)
  spaced : ∀ port l, Spaced N.cap rank port (todo N s .recv port l)

theorem Scheduled.step {rank : Dir → Port → Job → ℕ} (h : Scheduled N rank s) (hs : Step N s s') :
    Scheduled N rank s' := by
  have hord : ∀ {p : Party} {prog : Program Port Lane Job}, Ordered rank prog →
      ∀ p', Ordered rank ((s.setProg p prog).prog p') := by
    intro p prog hprog p'
    by_cases hp : p' = p
    · subst hp
      simpa [State.setProg] using hprog
    · simpa [State.setProg, hp] using h.ordered p'
  refine ⟨h.owned.step hs, h.tracked.step h.owned (fun _ _ => trivial) hs, ?_,
    fun port l => (h.spaced port l).suffix (hs.todo_suffix h.owned .recv port l)⟩
  intro p'
  cases hs with
  | @send p c rest l j js hp hd hl hcap => exact hord ((hp ▸ h.ordered p).setWork hl) p'
  | @recv p c rest l j js m q hp hd hl hq => exact hord ((hp ▸ h.ordered p).setWork hl) p'
  | @join p c rest hp hdone => exact hord (hp ▸ h.ordered p).tail p'

theorem scheduled_start {rank : Dir → Port → Job → ℕ} {prog : Party → Program Port Lane Job}
    (mem : Party → Mem) (howned : ∀ p, ∀ c ∈ prog p, N.owner c.dir c.port = p)
    (hordered : ∀ p, Ordered rank (prog p))
    (hmatch : ∀ port l, pending .send port l (prog (N.owner .send port)) =
      pending .recv port l (prog (N.owner .recv port)))
    (hspaced : ∀ port l, Spaced N.cap rank port (pending .recv port l (prog (N.owner .recv port)))) :
    Scheduled N rank (State.start prog mem) :=
  ⟨howned, tracked_of_empty _ (fun _ _ => rfl) hmatch, hordered, hspaced⟩

def Least (rank : Dir → Port → Job → ℕ) (s : State Party Port Lane Job Msg Mem) (r : ℕ) : Prop :=
  ∀ p, ∀ c ∈ s.prog p, ∀ l, ∀ j ∈ c.work l, r ≤ rank c.dir c.port j

theorem canStep_of_step (h : Step N s s') : CanStep N s := by
  obtain ⟨m, hm⟩ := step_iff.mpr h
  exact ⟨m, by simp [hm]⟩

section

variable {rank : Dir → Port → Job → ℕ} {r : ℕ} {d : Dir} {port : Port} {l : Lane} {j : Job}

theorem Scheduled.least_head (h : Scheduled N rank s) (hmin : Least rank s r)
    (hj : j ∈ todo N s d port l) (hr : rank d port j ≤ r) : CanStep N s ∨
      ∃ c rest j₀ js, s.prog (N.owner d port) = c :: rest ∧ c.dir = d ∧ c.port = port ∧
        c.work l = j₀ :: js ∧ rank d port j₀ ≤ r := by
  obtain ⟨c, hc, rfl, rfl, hjc⟩ := mem_pending.mp hj
  generalize howner : N.owner c.dir c.port = p at hc ⊢
  cases hp : s.prog p with
  | nil => simp [hp] at hc
  | cons c' rest =>
    rw [hp] at hc
    rcases List.mem_cons.mp hc with rfl | hc
    · right
      cases hl : c.work l with
      | nil => simp [hl] at hjc
      | cons j₀ js =>
        refine ⟨c, rest, j₀, js, rfl, rfl, rfl, hl, ?_⟩
        have hlane := (h.ordered p).1 c (by simp [hp]) l
        rw [hl] at hlane hjc
        rcases List.mem_cons.mp hjc with rfl | hjs
        · exact hr
        · exact ((List.pairwise_cons.mp hlane).1 j hjs).trans hr
    · left
      have hbefore := (List.pairwise_cons.mp (hp ▸ h.ordered p).2).1 c hc
      have hdone : ∀ l', c'.work l' = [] := by
        intro l'
        apply List.eq_nil_iff_forall_not_mem.mpr
        intro j' hj'
        have hlt := hbefore l' l j' hj' j hjc
        have hle := hmin p c' (by simp [hp]) l' j' hj'
        omega
      exact canStep_of_step (.join hp hdone)

theorem Scheduled.canStep_recv (h : Scheduled N rank s) (hmin : Least rank s r) (hcap : 0 < N.cap)
    (hj : j ∈ todo N s .recv port l) (hr : rank .recv port j ≤ r) : CanStep N s := by
  cases hq : s.queue port l with
  | cons m q =>
    rcases h.least_head hmin hj hr with hstep | ⟨c, rest, j₀, js, hp, hd, rfl, hl, _⟩
    · exact hstep
    · exact canStep_of_step (.recv hp hd hl hq)
  | nil =>
    -- nothing is in flight, so the message is still to be sent
    obtain ⟨sent, hsent, heq⟩ := h.tracked port l
    rw [hq, List.forall₂_nil_right_iff] at hsent
    rw [hsent, List.nil_append] at heq
    have hrank := ((h.spaced port l).1 j hj).trans hr
    rcases h.least_head hmin (heq ▸ hj) hrank with hstep | ⟨c, rest, j₀, js, hp, hd, rfl, hl, _⟩
    · exact hstep
    · exact canStep_of_step (.send hp hd hl (by simpa [hq] using hcap))

theorem Scheduled.canStep_send (h : Scheduled N rank s) (hmin : Least rank s r) (hcap : 0 < N.cap)
    (hj : j ∈ todo N s .send port l) (hr : rank .send port j ≤ r) : CanStep N s := by
  rcases h.least_head hmin hj hr with hstep | ⟨c, rest, j₀, js, hp, hd, rfl, hl, hr₀⟩
  · exact hstep
  by_cases hroom : ((s.queue c.port l).length : ℕ∞) < N.cap
  · exact canStep_of_step (.send hp hd hl hroom)
  -- the lane is full, so its first message is received before this one is sent
  obtain ⟨sent, hsent, heq⟩ := h.tracked c.port l
  have hlen := hsent.length_eq
  have hfull : N.cap ≤ (sent.length : ℕ∞) := hlen ▸ not_lt.mp hroom
  cases sent with
  | nil =>
    rw [List.length_nil, Nat.cast_zero] at hfull
    exact absurd hcap (not_lt.mpr hfull)
  | cons j₁ mid =>
    have hsend : todo N s .send c.port l = j₀ :: (js ++ pending .send c.port l rest) := by
      rw [todo, hp, pending_cons, if_pos ⟨hd, rfl⟩, hl]
      rfl
    have hrecv : todo N s .recv c.port l =
        [] ++ j₁ :: (mid ++ j₀ :: (js ++ pending .send c.port l rest)) := by
      rw [← heq, hsend]
      rfl
    have hrank := (h.spaced c.port l).2 _ _ _ _ _ hrecv hfull
    refine h.canStep_recv (l := l) hmin hcap ?_ (hrank.trans hr₀)
    rw [hrecv]
    simp

theorem Scheduled.canStep (h : Scheduled N rank s) (hcap : 0 < N.cap) (hun : ¬ s.Finished) :
    CanStep N s := by
  classical
  by_cases hwork : ∃ r, ∃ p, ∃ c ∈ s.prog p, ∃ l, ∃ j ∈ c.work l, rank c.dir c.port j = r
  · obtain ⟨p, c, hc, l, j, hj, hr⟩ := Nat.find_spec hwork
    have hmin : Least rank s (Nat.find hwork) := fun p c hc l j hj =>
      Nat.find_min' hwork ⟨p, c, hc, l, j, hj, rfl⟩
    have htodo : j ∈ todo N s c.dir c.port l :=
      mem_pending.mpr ⟨c, by rwa [h.owned p c hc], rfl, rfl, hj⟩
    cases hd : c.dir with
    | send => exact h.canStep_send hmin hcap (hd ▸ htodo) (by rw [← hd, hr])
    | recv => exact h.canStep_recv hmin hcap (hd ▸ htodo) (by rw [← hd, hr])
  · obtain ⟨p, hp⟩ := not_forall.mp hun
    obtain ⟨c, rest, hp⟩ := List.exists_cons_of_ne_nil hp
    refine canStep_of_step (.join hp fun l => List.eq_nil_iff_forall_not_mem.mpr fun j hj => ?_)
    exact hwork ⟨_, p, c, by simp [hp], l, j, hj, rfl⟩

theorem Scheduled.deadlockFree (h : Scheduled N rank s₀) (hcap : 0 < N.cap) : DeadlockFree N s₀ :=
  fun _ hs hun => (hs.invariant h fun _ _ hstep hinv => hinv.step hstep).canStep hcap hun

end

end

end FifoNetwork
