import RfClassGroups.ThreadPool

/-! The pool comes to rest: every step of a worker or a caller lowers a measure, so
the calls that have been issued all return. -/

namespace RfClassGroups.ThreadPool

variable {W : ℕ} {C E : Type}

def Task.cost : Task E → ℕ
  | .checkFlag => 7
  | .fetch => 6
  | .running i stop => 2 * (stop - i) + 8
  | .inFn i stop => 2 * (stop - (i + 1)) + 9
  | .record _ => 6
  | .finish => 5
  | .locked => 4
  | .counted _ => 3

def Worker.cost : Worker C E → ℕ
  | .idle => 1
  | .asleep => 0
  | .busy _ t => t.cost

def Caller.cost (workers : ℕ) : Caller E → ℕ
  | .pushed => workers + 3
  | .waiting => 2
  | .asleep | .leaving => 1
  | .notIssued | .returned _ => 0

/-- An index that is not claimed yet counts for its claim and its run. -/
def Call.cost (a : Args) (workers : ℕ) (r : Call E) : ℕ :=
  r.caller.cost workers + 5 * (a.endIndex - reach a r)

/-- What every step of a worker or a caller lowers. -/
def Pool.cost [Fintype C] (args : C → Args) (s : Pool W C E) : ℕ :=
  ∑ w, (s.worker w).cost + 7 * s.queue.length + ∑ c, (s.call c).cost (args c) W

section

variable {a : Args} {n : ℕ} {r r' : Call E} {t t' : Task E}

theorem Move.cost_lt (h : Move a r t r' t') (hend : a.endIndex + a.chunk < 2 ^ 64)
    (hfetch : t = .fetch → r.cursor = reach a r) :
    t'.cost + r'.cost a W < t.cost + r.cost a W := by
  have hchunk := chunk_pos a
  cases h with
  | claim hlt =>
    rw [hfetch rfl] at hlt ⊢
    have hstop : u64 (reach a r + a.chunk) = reach a r + a.chunk := Nat.mod_eq_of_lt (by omega)
    rw [hstop]
    simp only [Task.cost, Call.cost, reach_claim]
    omega
  | exhausted _ =>
    simp only [Task.cost, Call.cost, reach_claim]
    omega
  | call hlt =>
    change 2 * _ + 9 + r.cost a W < 2 * _ + 8 + r.cost a W
    omega
  | fnReturns =>
    change 2 * _ + 8 + r.cost a W < 2 * _ + 9 + r.cost a W
    omega
  | fnThrows =>
    change 6 + r.cost a W < 2 * _ + 9 + r.cost a W
    omega
  | chunkDone hge =>
    change 7 + r.cost a W < 2 * _ + 8 + r.cost a W
    omega
  | _ => exact Nat.add_lt_add_right (by simp [Task.cost]) (r.cost a W)

theorem release_cost (a : Args) (n finished : ℕ) (r : Call E) :
    (release n finished r).cost a W ≤ r.cost a W + 1 := by
  have hreach : reach a (release n finished r) = reach a r := rfl
  simp only [Call.cost, hreach]
  cases hcaller : r.caller with
  | asleep =>
    by_cases hn : finished = n
    · simp only [release, hcaller, if_pos hn, Caller.cost]
      omega
    · simp only [release, hcaller, if_neg hn, Caller.cost]
      omega
  | _ =>
    simp only [release, hcaller]
    omega

theorem callerStep_cost (h : callerStep n r = some r') (hp : r.caller ≠ .pushed) :
    r'.cost a W < r.cost a W := by
  cases hcaller : r.caller with
  | pushed => exact absurd hcaller hp
  | waiting =>
    simp only [callerStep, hcaller] at h
    split at h
    · cases h
    · cases h
      simp only [Call.cost, hcaller]
      by_cases hdone : r.doneCount = n
      · simp [hdone, Caller.cost, reach]
      · simp [hdone, Caller.cost, reach]
  | leaving =>
    simp only [callerStep, hcaller] at h
    cases h
    simp [Call.cost, hcaller, Caller.cost, reach]
  | _ =>
    simp only [callerStep, hcaller] at h
    cases h

theorem callerStep_cost_pushed (h : callerStep n r = some r') (hp : r.caller = .pushed) :
    r'.cost a W + W < r.cost a W := by
  simp only [callerStep, hp] at h
  cases h
  simp only [Call.cost, hp, Caller.cost, reach]
  omega

end

theorem sum_update {ι α : Type} [Fintype ι] [DecidableEq ι] (f : ι → α) (g : ι → α → ℕ) (i : ι) (x : α) :
    ∑ j, g j (Function.update f i x j) + g i (f i) = ∑ j, g j (f j) + g i x := by
  rw [← Finset.add_sum_erase _ _ (Finset.mem_univ i), ← Finset.add_sum_erase _ _ (Finset.mem_univ i)]
  have hrest : ∑ j ∈ Finset.univ.erase i, g j (Function.update f i x j) =
      ∑ j ∈ Finset.univ.erase i, g j (f j) :=
    Finset.sum_congr rfl fun j hj => by rw [Function.update_of_ne (Finset.ne_of_mem_erase hj)]
  rw [Function.update_self, hrest]
  omega

theorem wake_cost (s : Pool W C E) : ∑ w, (s.worker w).wake.cost ≤ ∑ w, (s.worker w).cost + W := by
  have hone : ∀ x : Worker C E, x.wake.cost ≤ x.cost + 1 := by
    intro x
    cases x <;> simp [Worker.wake, Worker.cost]
  calc ∑ w, (s.worker w).wake.cost ≤ ∑ w, ((s.worker w).cost + 1) :=
        Finset.sum_le_sum fun w _ => hone (s.worker w)
    _ = ∑ w, (s.worker w).cost + W := by simp [Finset.sum_add_distrib]

section

variable [DecidableEq C] {args : C → Args} {s s' : Pool W C E}

def Moves (args : C → Args) (s s' : Pool W C E) : Prop :=
  ∃ ev : Event W C E, ev.Ordinary s ∧ step args s ev = some s'

theorem Moves.work (h : Moves args s s') : Work args s s' := by
  obtain ⟨ev, hordinary, hstep⟩ := h
  cases ev with
  | worker w => exact workerStep_work hstep
  | caller c => exact parallelForStep_work hordinary hstep
  | _ => cases hordinary

theorem Reachable.fetch_cursor (hW : 0 < W) (hfits : ∀ c, (args c).Fits W) (h : Reachable args s)
    {w : Fin W} {c : C} (hbusy : s.worker w = .busy c .fetch) :
    (s.call c).cursor = reach (args c) (s.call c) := by
  have hview := view_worker s w c
  rw [hbusy, own_busy, Multiset.singleton_add] at hview
  rcases h.sound hW hfits c with hstart | hinv
  · rw [hstart] at hview
    exact absurd (congrArg View.tasks hview).symm Multiset.cons_ne_zero
  · rw [hview] at hinv
    exact hinv.cursor.cursor_eq (hfits c) hinv.counts

theorem end_add_chunk_lt {a : Args} (hW : 0 < W) (hfits : a.Fits W) : a.endIndex + a.chunk < 2 ^ 64 := by
  have hlt := hfits.cursor
  have hle := Nat.mul_le_mul_right a.chunk (nTasks_pos hW hfits)
  omega

end

variable [Fintype C] {args : C → Args} {s s' : Pool W C E}

theorem place_cost (args : C → Args) (s : Pool W C E) (w : Fin W) (x : Worker C E) :
    (s.place w x).cost args + (s.worker w).cost = s.cost args + x.cost := by
  have hsum := sum_update s.worker (fun _ => Worker.cost) w x
  simp only [Pool.cost, Pool.place]
  omega

variable [DecidableEq C]

theorem put_cost (args : C → Args) (s : Pool W C E) (c : C) (r : Call E) :
    (s.put c r).cost args + (s.call c).cost (args c) W = s.cost args + r.cost (args c) W := by
  have hsum := sum_update s.call (fun c => Call.cost (args c) W) c r
  simp only [Pool.cost, Pool.put]
  omega

theorem Work.cost_lt (h : Work args s s') (hend : ∀ c, (args c).endIndex + (args c).chunk < 2 ^ 64)
    (hfetch : ∀ {w c}, s.worker w = .busy c .fetch → (s.call c).cursor = reach (args c) (s.call c)) :
    s'.cost args < s.cost args := by
  cases h with
  | @sleep w hidle _ =>
    have hplace := place_cost args s w .asleep
    rw [hidle] at hplace
    simp only [Worker.cost] at hplace
    omega
  | @pop w c rest hidle hqueue =>
    have hplace := place_cost args { s with queue := rest } w (.busy c .checkFlag)
    have hlen : s.queue.length = rest.length + 1 := by rw [hqueue, List.length_cons]
    simp only [Pool.cost, hidle, Worker.cost, Task.cost, hlen] at hplace ⊢
    omega
  | @task w c t t' r hbusy hmove =>
    have hput := put_cost args s c r
    have hplace := place_cost args (s.put c r) w (.busy c t')
    have hlt : t'.cost + r.cost (args c) W < t.cost + (s.call c).cost (args c) W :=
      hmove.cost_lt (hend c) fun ht => hfetch (ht ▸ hbusy)
    have hworker : (s.put c r).worker w = .busy c t := hbusy
    rw [hworker] at hplace
    simp only [Worker.cost] at hplace
    omega
  | @last w c finished hbusy =>
    have hput := put_cost args s c (release ((args c).nTasks W) finished (s.call c))
    have hplace := place_cost args (s.put c (release ((args c).nTasks W) finished (s.call c))) w .idle
    have hrelease := release_cost (W := W) (args c) ((args c).nTasks W) finished (s.call c)
    have hworker : (s.put c (release ((args c).nTasks W) finished (s.call c))).worker w =
        .busy c (.counted finished) := hbusy
    rw [hworker] at hplace
    simp only [Worker.cost, Task.cost] at hplace
    omega
  | @notify c r hpushed hr =>
    have hwake := wake_cost s
    have hlt := callerStep_cost_pushed (a := args c) (W := W) hr hpushed
    have hcall : (∑ c', ((s.put c r).call c').cost (args c') W) + (s.call c).cost (args c) W =
        ∑ c', (s.call c').cost (args c') W + r.cost (args c) W :=
      sum_update s.call (fun c => Call.cost (args c) W) c r
    change ∑ w, (s.worker w).wake.cost + 7 * s.queue.length + ∑ c', ((s.put c r).call c').cost (args c') W < _
    rw [Pool.cost]
    omega
  | @caller c r hnot hr =>
    have hput := put_cost args s c r
    have hlt := callerStep_cost (a := args c) (W := W) hr hnot
    omega

/-- Calls that have been issued return, however the threads are scheduled. -/
theorem Reachable.rests (hW : 0 < W) (hfits : ∀ c, (args c).Fits W) (h : Reachable args s) :
    ∃ s', Relation.ReflTransGen (Moves args) s s' ∧ ∀ c, ¬ Unfinished (s'.call c) := by
  refine Runs.exists_end (P := Reachable args) (Pool.cost args) (fun hs hunfinished => ?_)
    (fun hs hmoves => ⟨?_, hmoves.work.cost_lt (fun c => end_add_chunk_lt hW (hfits c))
      (hs.fetch_cursor hW hfits)⟩) h
  · obtain ⟨c, hc⟩ := not_forall_not.mp hunfinished
    obtain ⟨ev, s', hordinary, hstep⟩ := progress hW hfits hs hc
    exact ⟨s', ev, hordinary, hstep⟩
  · obtain ⟨ev, -, hstep⟩ := hmoves
    exact hs.step hstep

end RfClassGroups.ThreadPool
