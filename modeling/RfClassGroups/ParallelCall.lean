import Mathlib

/-! One `parallel_for` call by itself: what its tasks and its caller do to the
state that the call shares with them. -/

namespace RfClassGroups.ThreadPool

def u64 (n : ℕ) : ℕ := n % 2 ^ 64

structure Args where
  beginIndex : ℕ
  endIndex : ℕ
  chunkSize : ℕ

def Args.chunk (a : Args) : ℕ := if a.chunkSize = 0 then 1 else a.chunkSize

def Args.nTasks (a : Args) (workers : ℕ) : ℕ :=
  min workers (u64 (a.endIndex - a.beginIndex + a.chunk - 1) / a.chunk)

/-- Where a task stands. `running i stop` is about to test `i < stop`. -/
inductive Task (E : Type)
  | checkFlag
  | fetch
  | running (i stop : ℕ)
  | inFn (i stop : ℕ)
  | record (e : E)
  | finish
  | locked
  | counted (finished : ℕ)

inductive Caller (E : Type)
  | notIssued
  | pushed
  | waiting
  | asleep
  | leaving
  | returned (failure : Option E)
  deriving DecidableEq

/-- The variables on the caller's stack; `taken` and the lists after it are not in the
code: the number of claims, the indices `fn` was run on, the exceptions thrown and
those that reached the record, in order. -/
structure Call (E : Type) where
  caller : Caller E := .notIssued
  cursor : ℕ := 0
  doneCount : ℕ := 0
  doneMu : Bool := false
  firstException : Option E := none
  hasException : Bool := false
  taken : ℕ := 0
  ran : List ℕ := []
  thrown : List E := []
  recorded : List E := []

section

variable {E : Type} (a : Args) (n : ℕ)

/-- The end of a task: it wakes the caller if it was the last one, and gives `done_mu` back. -/
def release (finished : ℕ) (r : Call E) : Call E :=
  { r with
    doneMu := false
    caller := match r.caller with
      | .asleep => if finished = n then .waiting else .asleep
      | other => other }

/-- `none` is a task that waits for `done_mu`; the task is over after its last step. -/
def taskStep (r : Call E) : Task E → Option (Call E × Option (Task E))
  | .checkFlag => some (r, some (if r.hasException then .finish else .fetch))
  | .fetch =>
    some ({ r with cursor := u64 (r.cursor + a.chunk), taken := r.taken + 1 },
      some (if a.endIndex ≤ r.cursor then .finish
        else .running r.cursor (min (u64 (r.cursor + a.chunk)) a.endIndex)))
  | .running i stop =>
    if i < stop then some ({ r with ran := r.ran ++ [i] }, some (.inFn i stop))
    else some (r, some .checkFlag)
  | .inFn i stop => some (r, some (.running (i + 1) stop))
  | .record e =>
    if r.firstException.isNone then
      some ({ r with firstException := some e, hasException := true, recorded := r.recorded ++ [e] },
        some .finish)
    else some ({ r with recorded := r.recorded ++ [e] }, some .finish)
  | .finish => if r.doneMu then none else some ({ r with doneMu := true }, some .locked)
  | .locked => some ({ r with doneCount := r.doneCount + 1 }, some (.counted (r.doneCount + 1)))
  | .counted finished => some (release n finished r, none)

/-- The call of `fn` that `i` stands for throws. -/
def taskThrow (r : Call E) (e : E) : Task E → Option (Call E × Task E)
  | .inFn _ _ => some ({ r with thrown := r.thrown ++ [e] }, .record e)
  | _ => none

def issue (r : Call E) : Call E :=
  if a.endIndex ≤ a.beginIndex then { r with caller := .returned none }
  else { r with caller := .pushed, cursor := a.beginIndex }

/-- The number of tasks that the call pushes. -/
def pushes : ℕ := if a.endIndex ≤ a.beginIndex then 0 else n

/-- The caller after the push; `none` while it sleeps, waits for `done_mu` or is done. -/
def callerStep (r : Call E) : Option (Call E) :=
  match r.caller with
  | .pushed => some { r with caller := .waiting }
  | .waiting =>
    if r.doneMu then none
    else some { r with caller := if r.doneCount = n then .leaving else .asleep }
  | .leaving => some { r with caller := .returned (if r.hasException then r.firstException else none) }
  | _ => none

end

section

variable {E : Type} {a : Args} {n q : ℕ} {r r' : Call E} {t t' : Task E} {ts : Multiset (Task E)}

/-- The steps of a task, one constructor for each branch. -/
inductive Move (a : Args) : Call E → Task E → Call E → Task E → Prop
  | flagged {r : Call E} : r.hasException = true → Move a r .checkFlag r .finish
  | clear {r : Call E} : r.hasException = false → Move a r .checkFlag r .fetch
  | exhausted {r : Call E} : a.endIndex ≤ r.cursor →
      Move a r .fetch { r with cursor := u64 (r.cursor + a.chunk), taken := r.taken + 1 } .finish
  | claim {r : Call E} : r.cursor < a.endIndex →
      Move a r .fetch { r with cursor := u64 (r.cursor + a.chunk), taken := r.taken + 1 }
        (.running r.cursor (min (u64 (r.cursor + a.chunk)) a.endIndex))
  | call {r : Call E} {i stop : ℕ} : i < stop →
      Move a r (.running i stop) { r with ran := r.ran ++ [i] } (.inFn i stop)
  | chunkDone {r : Call E} {i stop : ℕ} : stop ≤ i → Move a r (.running i stop) r .checkFlag
  | fnReturns {r : Call E} {i stop : ℕ} : Move a r (.inFn i stop) r (.running (i + 1) stop)
  | fnThrows {r : Call E} {i stop : ℕ} {e : E} :
      Move a r (.inFn i stop) { r with thrown := r.thrown ++ [e] } (.record e)
  | recordFirst {r : Call E} {e : E} : r.firstException = none →
      Move a r (.record e)
        { r with firstException := some e, hasException := true, recorded := r.recorded ++ [e] } .finish
  | recordLater {r : Call E} {e : E} : r.firstException.isSome = true →
      Move a r (.record e) { r with recorded := r.recorded ++ [e] } .finish
  | lock {r : Call E} : r.doneMu = false → Move a r .finish { r with doneMu := true } .locked
  | count {r : Call E} :
      Move a r .locked { r with doneCount := r.doneCount + 1 } (.counted (r.doneCount + 1))

theorem taskStep_move (h : taskStep a n r t = some (r', some t')) : Move a r t r' t' := by
  cases t with
  | checkFlag =>
    cases h
    cases hflag : r.hasException with
    | true => exact .flagged hflag
    | false => exact .clear hflag
  | fetch =>
    cases h
    by_cases hend : a.endIndex ≤ r.cursor
    · rw [if_pos hend]
      exact .exhausted hend
    · rw [if_neg hend]
      exact .claim (not_le.mp hend)
  | running i stop =>
    rw [taskStep] at h
    split at h
    · next hlt =>
      cases h
      exact .call hlt
    · next hge =>
      cases h
      exact .chunkDone (not_lt.mp hge)
  | inFn i stop =>
    cases h
    exact .fnReturns
  | record e =>
    rw [taskStep] at h
    split at h
    · next hnone =>
      cases h
      exact .recordFirst (Option.isNone_iff_eq_none.mp hnone)
    · next hsome =>
      cases h
      exact .recordLater (by simpa [Option.isSome_iff_ne_none] using hsome)
  | finish =>
    rw [taskStep] at h
    split at h
    · cases h
    · next hfree =>
      cases h
      exact .lock (Bool.eq_false_iff.mpr hfree)
  | locked =>
    cases h
    exact .count
  | counted finished => cases h

theorem taskThrow_move {e : E} (h : taskThrow r e t = some (r', t')) : Move a r t r' t' := by
  cases t with
  | inFn i stop =>
    cases h
    exact .fnThrows
  | _ => cases h

theorem taskStep_over (h : taskStep a n r t = some (r', none)) :
    ∃ finished, t = .counted finished ∧ r' = release n finished r := by
  cases t with
  | counted finished =>
    cases h
    exact ⟨finished, rfl, rfl⟩
  | running i stop =>
    rw [taskStep] at h
    split at h <;> cases h
  | record e =>
    rw [taskStep] at h
    split at h <;> cases h
  | finish =>
    rw [taskStep] at h
    split at h <;> cases h
  | _ => cases h

/-- A call with the number of its tasks in the queue and those at the workers. -/
@[ext] structure View (E : Type) where
  queued : ℕ
  tasks : Multiset (Task E)
  call : Call E

def View.start : View E := ⟨0, 0, {}⟩

inductive ViewStep (a : Args) (n : ℕ) : View E → View E → Prop
  | issue {q : ℕ} {ts : Multiset (Task E)} {r : Call E} : r.caller = .notIssued →
      ViewStep a n ⟨q, ts, r⟩ ⟨q + pushes a n, ts, issue a r⟩
  | caller {q : ℕ} {ts : Multiset (Task E)} {r r' : Call E} : callerStep n r = some r' →
      ViewStep a n ⟨q, ts, r⟩ ⟨q, ts, r'⟩
  | wakeCaller {q : ℕ} {ts : Multiset (Task E)} {r : Call E} : r.caller = .asleep →
      ViewStep a n ⟨q, ts, r⟩ ⟨q, ts, { r with caller := .waiting }⟩
  | take {q : ℕ} {ts : Multiset (Task E)} {r : Call E} :
      ViewStep a n ⟨q + 1, ts, r⟩ ⟨q, .checkFlag ::ₘ ts, r⟩
  | move {q : ℕ} {ts : Multiset (Task E)} {r r' : Call E} {t t' : Task E} : Move a r t r' t' →
      ViewStep a n ⟨q, t ::ₘ ts, r⟩ ⟨q, t' ::ₘ ts, r'⟩
  | last {q : ℕ} {ts : Multiset (Task E)} {r : Call E} {finished : ℕ} :
      ViewStep a n ⟨q, .counted finished ::ₘ ts, r⟩ ⟨q, ts, release n finished r⟩

def Task.active : Task E → Bool
  | .checkFlag | .fetch | .running _ _ | .inFn _ _ => true
  | _ => false

/-- The task is out of its loop and not counted yet. -/
def Task.left : Task E → Bool
  | .record _ | .finish | .locked => true
  | _ => false

def Task.holds : Task E → Bool
  | .locked | .counted _ => true
  | _ => false

/-- The task has claimed `i` and not run it yet. -/
def Task.pending (i : ℕ) : Task E → Bool
  | .running k stop => k ≤ i ∧ i < stop
  | .inFn k stop => k < i ∧ i < stop
  | _ => false

def tally (f : Task E → Bool) (ts : Multiset (Task E)) : ℕ := ts.countP (f · = true)

@[simp] theorem tally_zero (f : Task E → Bool) : tally f 0 = 0 := Multiset.countP_zero _

@[simp] theorem tally_cons (f : Task E → Bool) (t : Task E) (ts : Multiset (Task E)) :
    tally f (t ::ₘ ts) = tally f ts + (f t).toNat := by
  rw [tally, Multiset.countP_cons, tally]
  cases f t <;> rfl

theorem tally_pos {f : Task E → Bool} {t : Task E} {ts : Multiset (Task E)} (ht : t ∈ ts) (hf : f t = true) :
    0 < tally f ts := Multiset.countP_pos.mpr ⟨t, ht, hf⟩

structure Counts (n : ℕ) (v : View E) : Prop where
  total : v.queued + tally Task.active v.tasks + tally Task.left v.tasks + v.call.doneCount = n
  lock : tally Task.holds v.tasks = v.call.doneMu.toNat
  counted : ∀ finished, .counted finished ∈ v.tasks → finished = v.call.doneCount

theorem callerStep_caller (h : callerStep n r = some r') : ∃ c, r' = { r with caller := c } := by
  unfold callerStep at h
  split at h
  · cases h
    exact ⟨_, rfl⟩
  · split at h
    · cases h
    · cases h
      exact ⟨_, rfl⟩
  · cases h
    exact ⟨_, rfl⟩
  · cases h

variable {v v' : View E}

theorem Counts.move (h : Counts n ⟨q, t ::ₘ ts, r⟩) (hmove : Move a r t r' t') :
    Counts n ⟨q, t' ::ₘ ts, r'⟩ := by
  obtain ⟨htotal, hlock, hcounted⟩ := h
  simp only [tally_cons] at htotal hlock
  have hothers : ∀ finished, .counted finished ∈ ts → finished = r.doneCount := fun finished hmem =>
    hcounted finished (Multiset.mem_cons_of_mem hmem)
  refine ⟨?_, ?_, ?_⟩
  · cases hmove
    all_goals
      simp only [tally_cons, Task.active, Task.left, Bool.toNat_true, Bool.toNat_false] at htotal ⊢
      omega
  · cases hmove
    case lock hfree =>
      simp only [tally_cons, Task.holds, hfree] at hlock ⊢
      simpa using hlock
    all_goals simpa [Task.holds] using hlock
  · intro finished hmem
    rcases Multiset.mem_cons.mp hmem with heq | hold
    · cases hmove <;> cases heq
      rfl
    · cases hmove
      case count =>
        -- the lock has one holder, so no other task is past its count
        have hpos : 0 < tally Task.holds ts := tally_pos hold rfl
        have hle := r.doneMu.toNat_le
        simp only [Task.holds, Bool.toNat_true] at hlock
        omega
      all_goals exact hothers finished hold

theorem Counts.step (h : Counts n v) (hissued : v.call.caller ≠ .notIssued) (hstep : ViewStep a n v v') :
    Counts n v' := by
  cases hstep with
  | issue hnot => exact absurd hnot hissued
  | caller hcaller =>
    obtain ⟨c, rfl⟩ := callerStep_caller hcaller
    exact ⟨h.total, h.lock, h.counted⟩
  | wakeCaller _ => exact ⟨h.total, h.lock, h.counted⟩
  | take =>
    obtain ⟨htotal, hlock, hcounted⟩ := h
    refine ⟨?_, ?_, ?_⟩
    · simp only [tally_cons, Task.active, Task.left, Bool.toNat_true, Bool.toNat_false] at htotal ⊢
      omega
    · simpa [Task.holds] using hlock
    · intro finished hmem
      rcases Multiset.mem_cons.mp hmem with heq | hmem
      · cases heq
      · exact hcounted finished hmem
  | move hmove => exact h.move hmove
  | @last q ts r finished =>
    obtain ⟨htotal, hlock, hcounted⟩ := h
    refine ⟨?_, ?_, ?_⟩
    · simpa [Task.active, Task.left, release] using htotal
    · have hle := r.doneMu.toNat_le
      simp only [tally_cons, Task.holds, Bool.toNat_true] at hlock
      simp only [release, Bool.toNat_false]
      omega
    · intro finished hmem
      exact hcounted finished (Multiset.mem_cons_of_mem hmem)

structure Failures (v : View E) : Prop where
  head : v.call.firstException = v.call.recorded.head?
  flag : v.call.hasException = v.call.firstException.isSome
  raised : ∀ e ∈ v.call.recorded, e ∈ v.call.thrown
  inFlight : ∀ e, .record e ∈ v.tasks → e ∈ v.call.thrown
  kept : v.call.thrown ≠ [] → v.call.recorded ≠ [] ∨ ∃ e, .record e ∈ v.tasks

theorem Failures.record {e : E} (h : Failures ⟨q, .record e ::ₘ ts, r⟩) :
    (∀ e' ∈ r.recorded ++ [e], e' ∈ r.thrown) ∧
      ∀ e', (.record e' : Task E) ∈ (.finish ::ₘ ts : Multiset (Task E)) → e' ∈ r.thrown := by
  constructor
  · intro e' he'
    rcases List.mem_append.mp he' with he' | he'
    · exact h.raised e' he'
    · rw [List.mem_singleton.mp he']
      exact h.inFlight e (Multiset.mem_cons_self _ _)
  · intro e' hmem
    rcases Multiset.mem_cons.mp hmem with heq | hold
    · cases heq
    · exact h.inFlight e' (Multiset.mem_cons_of_mem hold)

theorem Failures.move (h : Failures ⟨q, t ::ₘ ts, r⟩) (hmove : Move a r t r' t') :
    Failures ⟨q, t' ::ₘ ts, r'⟩ := by
  have hfailures := h
  obtain ⟨hhead, hflag, hraised, hinFlight, hkept⟩ := h
  simp only [Multiset.mem_cons] at hinFlight hkept
  cases hmove
  case fnThrows e =>
    refine ⟨hhead, hflag, fun e' he' => List.mem_append_left _ (hraised e' he'), fun e' hmem => ?_,
      fun _ => .inr ⟨e, Multiset.mem_cons_self _ _⟩⟩
    rcases Multiset.mem_cons.mp hmem with heq | hold
    · cases heq
      exact List.mem_append_right _ (List.mem_singleton_self e)
    · exact List.mem_append_left _ (hinFlight e' (.inr hold))
  case recordFirst e hnone =>
    have hempty : r.recorded = [] := List.head?_eq_none_iff.mp (hhead.symm.trans hnone)
    refine ⟨?_, rfl, hfailures.record.1, hfailures.record.2, fun _ => .inl (by simp)⟩
    simp [hempty]
  case recordLater e hsome =>
    have hne : r.recorded ≠ [] := by
      rintro hempty
      rw [hhead, hempty] at hsome
      cases hsome
    refine ⟨?_, hflag, hfailures.record.1, hfailures.record.2, fun _ => .inl (by simp)⟩
    rw [List.head?_append_of_ne_nil _ hne]
    exact hhead
  all_goals
    refine ⟨hhead, hflag, hraised, fun e hmem => hinFlight e (.inr ?_), fun hne => ?_⟩
    · simpa using hmem
    · simpa using hkept hne

/-- The bounds under which the cursor does not wrap. -/
structure Args.Fits (a : Args) (workers : ℕ) : Prop where
  nonempty : a.beginIndex < a.endIndex
  cursor : a.endIndex + a.nTasks workers * a.chunk < 2 ^ 64
  total : a.endIndex - a.beginIndex + a.chunk < 2 ^ 64

/-- The cursor without wrapping. -/
def reach (a : Args) (r : Call E) : ℕ := a.beginIndex + r.taken * a.chunk

/-- How far the claims are: each task that is out of its loop claimed at most once
past the end. -/
structure Cursor (a : Args) (v : View E) : Prop where
  cursor : v.call.cursor = u64 (reach a v.call)
  bound : reach a v.call < a.endIndex + (tally Task.left v.tasks + v.call.doneCount + 1) * a.chunk
  exhausted : v.call.thrown = [] → 0 < tally Task.left v.tasks + v.call.doneCount →
    a.endIndex ≤ reach a v.call

theorem chunk_pos (a : Args) : 0 < a.chunk := by
  unfold Args.chunk
  split <;> omega

/-- A task that is about to claim finds the cursor below the wrap. -/
theorem Cursor.cursor_eq {workers : ℕ} (hfits : a.Fits workers)
    (hcounts : Counts (a.nTasks workers) ⟨q, .fetch ::ₘ ts, r⟩) (h : Cursor a ⟨q, .fetch ::ₘ ts, r⟩) :
    r.cursor = reach a r := by
  have htotal := hcounts.total
  have hbound := h.bound
  have hlt := hfits.cursor
  simp only [tally_cons, Task.active, Task.left, Bool.toNat_true, Bool.toNat_false, Nat.add_zero]
    at htotal hbound
  have hle : (tally Task.left ts + r.doneCount + 1) * a.chunk ≤ a.nTasks workers * a.chunk :=
    Nat.mul_le_mul_right _ (by omega)
  have hreach : reach a r < 2 ^ 64 := by omega
  exact h.cursor.trans (Nat.mod_eq_of_lt hreach)

theorem Failures.thrown_of_flag {v : View E} (h : Failures v) (hflag : v.call.hasException = true) :
    v.call.thrown ≠ [] := by
  rw [h.flag, h.head] at hflag
  intro hnil
  obtain ⟨e, he⟩ := Option.isSome_iff_exists.mp hflag
  have hmem := h.raised e (List.mem_of_mem_head? he)
  rw [hnil] at hmem
  cases hmem

theorem reach_claim (a : Args) (r : Call E) (c : ℕ) :
    reach a { r with cursor := c, taken := r.taken + 1 } = reach a r + a.chunk := by
  simp only [reach, Nat.add_mul, Nat.one_mul, Nat.add_assoc]

theorem Cursor.move {workers : ℕ} (hfits : a.Fits workers)
    (hcounts : Counts (a.nTasks workers) ⟨q, t ::ₘ ts, r⟩) (hfail : Failures ⟨q, t ::ₘ ts, r⟩)
    (h : Cursor a ⟨q, t ::ₘ ts, r⟩) (hmove : Move a r t r' t') : Cursor a ⟨q, t' ::ₘ ts, r'⟩ := by
  cases hmove
  case flagged hflag =>
    obtain ⟨hcursor, hbound, -⟩ := h
    refine ⟨hcursor, ?_, fun hnil => absurd hnil (hfail.thrown_of_flag hflag)⟩
    simp only [tally_cons, Task.left, Bool.toNat_true, Bool.toNat_false, Nat.add_mul, Nat.one_mul] at hbound ⊢
    omega
  case exhausted hend =>
    have hcur := h.cursor_eq hfits hcounts
    obtain ⟨-, hbound, -⟩ := h
    simp only [tally_cons, Task.left, Bool.toNat_false] at hbound
    refine ⟨?_, ?_, fun _ _ => ?_⟩
    · rw [reach_claim, hcur]
    · rw [reach_claim]
      simp only [tally_cons, Task.left, Bool.toNat_true, Nat.add_mul, Nat.one_mul] at hbound ⊢
      omega
    · rw [reach_claim]
      omega
  case claim hlt =>
    have hcur := h.cursor_eq hfits hcounts
    obtain ⟨-, hbound, hexhausted⟩ := h
    refine ⟨?_, ?_, fun hnil hpos => ?_⟩
    · rw [reach_claim, hcur]
    · rw [reach_claim]
      simp only [tally_cons, Task.left, Bool.toNat_false, Nat.add_mul, Nat.one_mul] at hbound ⊢
      omega
    · rw [reach_claim]
      simp only [tally_cons, Task.left, Bool.toNat_false] at hpos hexhausted
      have hend := hexhausted hnil hpos
      omega
  case fnThrows i stop e =>
    obtain ⟨hcursor, hbound, -⟩ := h
    refine ⟨hcursor, ?_, fun hnil => by simp at hnil⟩
    simp only [tally_cons, Task.left, Bool.toNat_true, Bool.toNat_false, Nat.add_mul, Nat.one_mul] at hbound ⊢
    change reach a r < _
    omega
  all_goals
    obtain ⟨hcursor, hbound, hexhausted⟩ := h
    simp only [tally_cons, Task.left, Bool.toNat_true, Bool.toNat_false, Nat.add_mul, Nat.one_mul]
      at hbound hexhausted
    refine ⟨hcursor, ?_, fun hnil hpos => ?_⟩
    · simp only [tally_cons, Task.left, Bool.toNat_true, Bool.toNat_false, Nat.add_mul, Nat.one_mul]
      change reach a r < _
      omega
    · simp only [tally_cons, Task.left, Bool.toNat_true, Bool.toNat_false] at hpos
      exact hexhausted hnil (by omega)

def claimed (a : Args) (r : Call E) (i : ℕ) : Bool := a.beginIndex ≤ i ∧ i < min (reach a r) a.endIndex

/-- Every claimed index was run or is pending at one task; only a throw gives one up. -/
structure Indices (a : Args) (v : View E) : Prop where
  once : ∀ i, v.call.ran.count i + tally (Task.pending i) v.tasks ≤ (claimed a v.call i).toNat
  every : v.call.thrown = [] → ∀ i,
    (claimed a v.call i).toNat ≤ v.call.ran.count i + tally (Task.pending i) v.tasks

theorem toNat_decide (p : Prop) [Decidable p] : (decide p).toNat = if p then 1 else 0 := by
  by_cases h : p <;> simp [h]

theorem claimed_toNat (a : Args) (r : Call E) (i : ℕ) :
    (claimed a r i).toNat = if a.beginIndex ≤ i ∧ i < min (reach a r) a.endIndex then 1 else 0 :=
  toNat_decide _

theorem pending_running (i k stop : ℕ) :
    (Task.pending i (.running k stop : Task E)).toNat = if k ≤ i ∧ i < stop then 1 else 0 :=
  toNat_decide _

theorem pending_inFn (i k stop : ℕ) :
    (Task.pending i (.inFn k stop : Task E)).toNat = if k < i ∧ i < stop then 1 else 0 :=
  toNat_decide _

theorem claimed_exhausted {c : ℕ} (hend : a.endIndex ≤ reach a r) (i : ℕ) :
    claimed a { r with cursor := c, taken := r.taken + 1 } i = claimed a r i := by
  rw [claimed, claimed, reach_claim, min_eq_right hend, min_eq_right (by omega)]

/-- A claim adds the indices of its chunk. -/
theorem claimed_claim {c : ℕ} (hlt : reach a r < a.endIndex) (i : ℕ) :
    (claimed a { r with cursor := c, taken := r.taken + 1 } i).toNat =
      (claimed a r i).toNat +
        (Task.pending i (.running (reach a r) (min (reach a r + a.chunk) a.endIndex) : Task E)).toNat := by
  have hle : a.beginIndex ≤ reach a r := Nat.le_add_right _ _
  rw [claimed_toNat, claimed_toNat, reach_claim, pending_running]
  split_ifs <;> omega

/-- Running an index moves it from the pending ones to those run. -/
theorem count_call (ran : List ℕ) {k stop : ℕ} (hlt : k < stop) (i : ℕ) :
    (ran ++ [k]).count i + (Task.pending i (.inFn k stop : Task E)).toNat =
      ran.count i + (Task.pending i (.running k stop : Task E)).toNat := by
  rw [List.count_append, pending_running, pending_inFn]
  by_cases hik : k = i
  · subst hik
    simp [hlt]
  · rw [List.count_singleton, if_neg (by simpa using hik)]
    split_ifs <;> omega

/-- A step keeps the indices accounted for when what it runs and claims balances. -/
theorem Indices.balance (h : Indices a ⟨q, t ::ₘ ts, r⟩) (hthrown : r'.thrown = r.thrown)
    (hbalance : ∀ i, r'.ran.count i + (Task.pending i t').toNat + (claimed a r i).toNat =
      r.ran.count i + (Task.pending i t).toNat + (claimed a r' i).toNat) :
    Indices a ⟨q, t' ::ₘ ts, r'⟩ := by
  obtain ⟨honce, hevery⟩ := h
  simp only [tally_cons] at honce hevery
  refine ⟨fun i => ?_, fun hnil i => ?_⟩
  · have hi := honce i
    have hb := hbalance i
    simp only [tally_cons]
    omega
  · have hi := hevery (hthrown ▸ hnil) i
    have hb := hbalance i
    simp only [tally_cons]
    omega

theorem Indices.move {workers : ℕ} (hfits : a.Fits workers) (hn : 0 < a.nTasks workers)
    (hcounts : Counts (a.nTasks workers) ⟨q, t ::ₘ ts, r⟩) (hcursor : Cursor a ⟨q, t ::ₘ ts, r⟩)
    (h : Indices a ⟨q, t ::ₘ ts, r⟩) (hmove : Move a r t r' t') : Indices a ⟨q, t' ::ₘ ts, r'⟩ := by
  cases hmove
  case exhausted hend =>
    have hcur := hcursor.cursor_eq hfits hcounts
    refine h.balance rfl fun i => ?_
    rw [claimed_exhausted (hcur ▸ hend)]
    rfl
  case claim hlt =>
    have hcur := hcursor.cursor_eq hfits hcounts
    rw [hcur] at hlt
    have hchunk : u64 (reach a r + a.chunk) = reach a r + a.chunk := by
      have hfit := hfits.cursor
      have hle := Nat.mul_le_mul_right a.chunk hn
      exact Nat.mod_eq_of_lt (by omega)
    refine h.balance rfl fun i => ?_
    rw [hcur, hchunk, claimed_claim hlt]
    change r.ran.count i + _ + _ = r.ran.count i + 0 + _
    omega
  case call k stop hlt =>
    refine h.balance rfl fun i => ?_
    rw [count_call r.ran hlt i]
    rfl
  case chunkDone k stop hge =>
    refine h.balance rfl fun i => ?_
    rw [pending_running, if_neg (by omega)]
    rfl
  case fnThrows k stop e =>
    -- what is left of the chunk is given up
    have honce := h.once
    simp only [tally_cons] at honce
    refine ⟨fun i => ?_, fun hnil => by simp at hnil⟩
    rw [tally_cons]
    exact le_trans (by simp [Task.pending]) (honce i)
  all_goals exact h.balance rfl fun _ => rfl

structure Waits (n : ℕ) (v : View E) : Prop where
  issued : v.call.caller ≠ .notIssued
  asleep : v.call.caller = .asleep → v.call.doneCount ≠ n ∨ .counted n ∈ v.tasks
  quiet : v.call.caller = .leaving ∨ (∃ f, v.call.caller = .returned f) → v.queued = 0 ∧ v.tasks = 0
  result : ∀ f, v.call.caller = .returned f → f = v.call.firstException

theorem Move.caller_eq (hmove : Move a r t r' t') : r'.caller = r.caller := by
  cases hmove <;> rfl

theorem Waits.move (h : Waits n ⟨q, t ::ₘ ts, r⟩) (hmove : Move a r t r' t') :
    Waits n ⟨q, t' ::ₘ ts, r'⟩ := by
  have hcaller := hmove.caller_eq
  have hbusy : ¬ (r.caller = .leaving ∨ ∃ f, r.caller = .returned f) := fun hquiet =>
    Multiset.cons_ne_zero (h.quiet hquiet).2
  refine ⟨?_, fun hasleep => ?_, fun hquiet => ?_, fun f hf => ?_⟩
  · rw [hcaller]
    exact h.issued
  · rw [hcaller] at hasleep
    have hold := h.asleep hasleep
    simp only [Multiset.mem_cons] at hold ⊢
    cases hmove
    case count =>
      by_cases hn : r.doneCount + 1 = n
      · exact .inr (.inl (by rw [hn]))
      · exact .inl hn
    all_goals simpa using hold
  · rw [hcaller] at hquiet
    exact absurd hquiet hbusy
  · rw [hcaller] at hf
    exact absurd (.inr ⟨f, hf⟩) hbusy

/-- With `done_mu` free and all tasks counted, no task is left anywhere. -/
theorem Counts.quiet (h : Counts n ⟨q, ts, r⟩) (hfree : r.doneMu = false) (hdone : r.doneCount = n) :
    q = 0 ∧ ts = 0 := by
  obtain ⟨htotal, hlock, -⟩ := h
  simp only [hfree, Bool.toNat_false] at hlock htotal
  refine ⟨by omega, Multiset.eq_zero_of_forall_notMem fun t ht => ?_⟩
  cases t with
  | counted finished =>
    have hpos : 0 < tally Task.holds ts := tally_pos ht rfl
    omega
  | record e =>
    have hpos : 0 < tally Task.left ts := tally_pos ht rfl
    omega
  | finish =>
    have hpos : 0 < tally Task.left ts := tally_pos ht rfl
    omega
  | locked =>
    have hpos : 0 < tally Task.left ts := tally_pos ht rfl
    omega
  | _ =>
    have hpos : 0 < tally Task.active ts := tally_pos ht rfl
    omega

theorem Waits.caller (h : Waits n ⟨q, ts, r⟩) (hcounts : Counts n ⟨q, ts, r⟩)
    (hfail : Failures ⟨q, ts, r⟩) (hcaller : callerStep n r = some r') : Waits n ⟨q, ts, r'⟩ := by
  unfold callerStep at hcaller
  split at hcaller
  · cases hcaller
    exact ⟨by simp, by simp, by simp, by simp⟩
  · split at hcaller
    · cases hcaller
    next hfree =>
    cases hcaller
    by_cases hdone : r.doneCount = n
    · rw [if_pos hdone]
      exact ⟨by simp, by simp, fun _ => hcounts.quiet (by simpa using hfree) hdone, by simp⟩
    · rw [if_neg hdone]
      exact ⟨by simp, fun _ => .inl hdone, by simp, by simp⟩
  · next hleaving =>
    cases hcaller
    refine ⟨by simp, by simp, fun _ => h.quiet (.inl hleaving), fun f hf => ?_⟩
    cases hf
    have hflag : r.hasException = r.firstException.isSome := hfail.flag
    change (if r.hasException = true then r.firstException else none) = r.firstException
    rw [hflag]
    cases r.firstException <;> rfl
  · cases hcaller

theorem Waits.last {finished : ℕ} (h : Waits n ⟨q, .counted finished ::ₘ ts, r⟩) :
    Waits n ⟨q, ts, release n finished r⟩ := by
  have hbusy : ¬ (r.caller = .leaving ∨ ∃ f, r.caller = .returned f) := fun hquiet =>
    Multiset.cons_ne_zero (h.quiet hquiet).2
  have hissued : r.caller ≠ .notIssued := h.issued
  cases hcaller : r.caller with
  | asleep =>
    have hold := h.asleep hcaller
    simp only [Multiset.mem_cons, Task.counted.injEq] at hold
    by_cases hn : finished = n
    · exact ⟨by simp [release, hcaller, hn], by simp [release, hcaller, hn], by simp [release, hcaller, hn],
        by simp [release, hcaller, hn]⟩
    · refine ⟨by simp [release, hcaller, hn], fun _ => ?_, by simp [release, hcaller, hn],
        by simp [release, hcaller, hn]⟩
      rcases hold with hne | heq | hmem
      · exact .inl hne
      · exact absurd heq.symm hn
      · exact .inr hmem
  | leaving => exact absurd (.inl hcaller) hbusy
  | returned f => exact absurd (.inr ⟨f, hcaller⟩) hbusy
  | notIssued => exact absurd hcaller hissued
  | _ =>
    exact ⟨by simp [release, hcaller], by simp [release, hcaller], by simp [release, hcaller],
      by simp [release, hcaller]⟩

/-- What holds of an issued call in every state. -/
structure CallInv (a : Args) (n : ℕ) (v : View E) : Prop where
  counts : Counts n v
  failures : Failures v
  cursor : Cursor a v
  indices : Indices a v
  waits : Waits n v

def Sound (a : Args) (n : ℕ) (v : View E) : Prop := v = View.start ∨ CallInv a n v

theorem CallInv.issue (hlt : a.beginIndex < a.endIndex) (hfit : a.endIndex < 2 ^ 64) :
    CallInv a n (⟨n, 0, issue a {}⟩ : View E) := by
  have hissue : (ThreadPool.issue a {} : Call E) = { caller := .pushed, cursor := a.beginIndex } :=
    if_neg (not_le.mpr hlt)
  rw [hissue]
  have hreach : reach a ({ caller := .pushed, cursor := a.beginIndex } : Call E) = a.beginIndex := by
    simp [reach]
  refine ⟨⟨by simp, by simp, by simp⟩, ⟨rfl, rfl, by simp, by simp, by simp⟩, ⟨?_, ?_, by simp⟩,
    ⟨fun i => ?_, fun _ i => ?_⟩, ⟨by simp, by simp, by simp, by simp⟩⟩
  · rw [hreach]
    exact (Nat.mod_eq_of_lt (hlt.trans hfit)).symm
  · rw [hreach]
    exact hlt.trans_le (Nat.le_add_right _ _)
  · simp
  · rw [claimed_toNat, hreach, if_neg (by omega)]
    exact Nat.zero_le _

/-- Nothing but the caller's place changes when the caller moves. -/
theorem CallInv.caller {c : Caller E} (h : CallInv a n ⟨q, ts, r⟩)
    (hwaits : Waits n ⟨q, ts, { r with caller := c }⟩) : CallInv a n ⟨q, ts, { r with caller := c }⟩ :=
  ⟨⟨h.counts.total, h.counts.lock, h.counts.counted⟩,
    ⟨h.failures.head, h.failures.flag, h.failures.raised, h.failures.inFlight, h.failures.kept⟩,
    ⟨h.cursor.cursor, h.cursor.bound, h.cursor.exhausted⟩, ⟨h.indices.once, h.indices.every⟩, hwaits⟩

theorem CallInv.take (h : CallInv a n ⟨q + 1, ts, r⟩) : CallInv a n ⟨q, .checkFlag ::ₘ ts, r⟩ := by
  refine ⟨h.counts.step h.waits.issued (.take (a := a)), ?_, ?_, ?_, ?_⟩
  · obtain ⟨hhead, hflag, hraised, hinFlight, hkept⟩ := h.failures
    refine ⟨hhead, hflag, hraised, fun e hmem => ?_, fun hne => ?_⟩
    · exact hinFlight e (by simpa using hmem)
    · simpa using hkept hne
  · obtain ⟨hcursor, hbound, hexhausted⟩ := h.cursor
    refine ⟨hcursor, ?_, ?_⟩
    · rw [tally_cons]
      exact hbound
    · rw [tally_cons]
      exact hexhausted
  · obtain ⟨honce, hevery⟩ := h.indices
    refine ⟨fun i => ?_, fun hnil i => ?_⟩
    · rw [tally_cons]
      exact honce i
    · rw [tally_cons]
      exact hevery hnil i
  · obtain ⟨hissued, hasleep, hquiet, hresult⟩ := h.waits
    refine ⟨hissued, fun hc => ?_, fun hc => ?_, hresult⟩
    · simpa using hasleep hc
    · exact absurd (hquiet hc).1 (Nat.succ_ne_zero q)

theorem CallInv.last {finished : ℕ} (h : CallInv a n ⟨q, .counted finished ::ₘ ts, r⟩) :
    CallInv a n ⟨q, ts, release n finished r⟩ := by
  refine ⟨h.counts.step h.waits.issued (.last (a := a)), ?_, ?_, ?_, h.waits.last⟩
  · obtain ⟨hhead, hflag, hraised, hinFlight, hkept⟩ := h.failures
    refine ⟨hhead, hflag, hraised, fun e hmem => ?_, fun hne => ?_⟩
    · exact hinFlight e (Multiset.mem_cons_of_mem hmem)
    · simpa [release] using hkept hne
  · obtain ⟨hcursor, hbound, hexhausted⟩ := h.cursor
    rw [tally_cons] at hbound hexhausted
    exact ⟨hcursor, hbound, hexhausted⟩
  · obtain ⟨honce, hevery⟩ := h.indices
    simp only [tally_cons] at honce hevery
    exact ⟨honce, hevery⟩

theorem CallInv.step {workers : ℕ} (hfits : a.Fits workers) (hn : 0 < a.nTasks workers)
    (h : CallInv a (a.nTasks workers) v) (hstep : ViewStep a (a.nTasks workers) v v') :
    CallInv a (a.nTasks workers) v' := by
  cases hstep with
  | issue hnot => exact absurd hnot h.waits.issued
  | caller hcaller =>
    have hwaits := h.waits.caller h.counts h.failures hcaller
    obtain ⟨c, rfl⟩ := callerStep_caller hcaller
    exact h.caller hwaits
  | wakeCaller _ => exact h.caller ⟨by simp, by simp, by simp, by simp⟩
  | take => exact h.take
  | move hmove =>
    exact ⟨h.counts.move hmove, h.failures.move hmove, h.cursor.move hfits h.counts h.failures hmove,
      h.indices.move hfits hn h.counts h.cursor hmove, h.waits.move hmove⟩
  | last => exact h.last

theorem Sound.step {workers : ℕ} (hfits : a.Fits workers) (hn : 0 < a.nTasks workers)
    (h : Sound a (a.nTasks workers) v) (hstep : ViewStep a (a.nTasks workers) v v') :
    Sound a (a.nTasks workers) v' := by
  rcases h with rfl | h
  · right
    generalize hv : (View.start : View E) = v at hstep
    cases hstep with
    | issue hnot =>
      cases hv
      rw [Nat.zero_add, pushes, if_neg (not_le.mpr hfits.nonempty)]
      exact .issue hfits.nonempty (by have hlt := hfits.cursor; omega)
    | caller hcaller =>
      cases hv
      cases hcaller
    | wakeCaller hasleep =>
      cases hv
      cases hasleep
    | take => cases hv
    | move hmove => exact absurd (congrArg View.tasks hv).symm Multiset.cons_ne_zero
    | last => exact absurd (congrArg View.tasks hv).symm Multiset.cons_ne_zero
  · exact .inr (h.step hfits hn hstep)

theorem Sound.ran (h : Sound a n v) :
    v.call.ran.Nodup ∧ ∀ i ∈ v.call.ran, a.beginIndex ≤ i ∧ i < a.endIndex := by
  have hcount : ∀ i, v.call.ran.count i ≤ (claimed a v.call i).toNat := by
    rcases h with rfl | h
    · intro i
      simp [View.start]
    · intro i
      exact le_trans (Nat.le_add_right _ _) (h.indices.once i)
  constructor
  · rw [List.nodup_iff_count_le_one]
    exact fun i => (hcount i).trans (Bool.toNat_le _)
  · intro i hi
    have hpos := List.count_pos_iff.mpr hi
    have hle := hcount i
    rw [claimed_toNat] at hle
    split at hle
    · next hrange => omega
    · omega

/-- What a call has done when it returns. -/
theorem CallInv.returned {f : Option E} (hn : 0 < n) (h : CallInv a n v)
    (hret : v.call.caller = .returned f) : v.queued = 0 ∧ v.tasks = 0 ∧
      (v.call.thrown = [] → f = none ∧
        v.call.ran.Perm (List.range' a.beginIndex (a.endIndex - a.beginIndex))) ∧
      (v.call.thrown ≠ [] → ∃ e ∈ v.call.thrown, v.call.recorded.head? = some e ∧ f = some e) := by
  obtain ⟨hqueued, htasks⟩ := h.waits.quiet (.inr ⟨f, hret⟩)
  have hfirst := h.waits.result f hret
  refine ⟨hqueued, htasks, fun hnil => ?_, fun hne => ?_⟩
  · have hrecorded : v.call.recorded = [] := by
      refine List.eq_nil_iff_forall_not_mem.mpr fun e he => ?_
      have hmem := h.failures.raised e he
      rw [hnil] at hmem
      cases hmem
    refine ⟨by rw [hfirst, h.failures.head, hrecorded]; rfl, List.perm_iff_count.mpr fun i => ?_⟩
    have htotal := h.counts.total
    simp only [hqueued, htasks, tally_zero] at htotal
    have hend := h.cursor.exhausted hnil (by rw [htasks, tally_zero]; omega)
    have hle := h.indices.once i
    have hge := h.indices.every hnil i
    rw [htasks, tally_zero, claimed_toNat, min_eq_right hend] at hle hge
    have hcount : (List.range' a.beginIndex (a.endIndex - a.beginIndex)).count i =
        if a.beginIndex ≤ i ∧ i < a.endIndex then 1 else 0 := by
      rw [(List.nodup_range' (n := a.endIndex - a.beginIndex)).count]
      refine if_congr ?_ rfl rfl
      rw [List.mem_range'_1]
      omega
    omega
  · rcases h.failures.kept hne with hrecorded | ⟨e, he⟩
    · obtain ⟨e, es, hcons⟩ := List.exists_cons_of_ne_nil hrecorded
      have hhead : v.call.recorded.head? = some e := by rw [hcons]; rfl
      exact ⟨e, h.failures.raised e (hcons ▸ List.mem_cons_self), hhead,
        by rw [hfirst, h.failures.head, hhead]⟩
    · rw [htasks] at he
      cases Multiset.notMem_zero _ he

end

end RfClassGroups.ThreadPool
