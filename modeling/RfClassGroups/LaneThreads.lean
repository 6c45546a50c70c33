import RfClassGroups.Lanes
import RfClassGroups.Lib.FifoNetwork

/-! The lane transport with its threads: one call runs one thread an active
lane, any interleaving of the threads of both endpoints is a run. -/

open ExceptList Loops Buffer FifoNetwork

namespace RfClassGroups

def laneIndices (n lanes lane b e : ℕ) : List ℕ :=
  List.range' (max (laneBegin n lanes lane) b)
    (min (laneBegin n lanes (lane + 1)) e - max (laneBegin n lanes lane) b)

section

variable {Port : Type}

/-- `send_ct_lanes_range` or `recv_ct_lanes_range`, by direction. With one lane
the caller runs the loop itself. -/
def laneCall (env : Env) (d : Dir) (port : Port) (lanes n size b e : ℕ) :
    Except String (Call Port (Fin lanes) ℕ) := do
  let active ← rfActiveLanes env (List.replicate lanes ([] : List Unit)) n size b e
  if lanes = 1 then return ⟨d, port, fun _ => List.range' b (e - b)⟩
  else do
    let work ← (List.range lanes).mapM fun lane =>
      if lane ∈ active then do
        let range ← rfLaneRangeIntersection env n lanes lane b e
        return List.range' range.1 (range.2 - range.1)
      else return []
    return ⟨d, port, fun l => work.getD l []⟩

def chunkCalls (env : Env) (d : Dir) (port : Port) (lanes n size chunk : ℕ) :
    Except String (Program Port (Fin lanes) ℕ) :=
  (chunks n chunk).mapM fun c => laneCall env d port lanes n size c.1 c.2

def rangeCall (d : Dir) (port : Port) (n lanes b e : ℕ) : Call Port (Fin lanes) ℕ :=
  ⟨d, port, fun l => laneIndices n lanes l b e⟩

variable {env : Env} {n lanes chunk b e : ℕ}

theorem laneCall_eq (hc : LaneCount env n lanes) (d : Dir) (port : Port) {size : ℕ}
    (hsize : n ≤ size) (hbe : b ≤ e) (hen : e ≤ n) :
    laneCall env d port lanes n size b e = .ok (rangeCall d port n lanes b e) := by
  rw [laneCall, rfActiveLanes_eq hc (List.length_replicate ..) hsize hbe hen, ok_bind]
  by_cases h1 : lanes = 1
  · subst h1
    rw [if_pos rfl, rangeCall]
    have hwork : ∀ l : Fin 1, laneIndices n 1 l b e = List.range' b (e - b) := by
      intro l
      have hl : (l : ℕ) = 0 := by omega
      rw [laneIndices, hl, laneBegin_zero, Nat.zero_add, laneBegin_last Nat.one_pos,
        Nat.zero_max, min_eq_right hen]
    simp only [hwork]
    rfl
  · rw [if_neg h1]
    have hwork : ∀ lane ∈ List.range lanes, (if lane ∈ (List.range lanes).filter (fun lane =>
          max (laneBegin n lanes lane) b < min (laneBegin n lanes (lane + 1)) e) then do
          let range ← rfLaneRangeIntersection env n lanes lane b e
          return List.range' range.1 (range.2 - range.1)
        else return [] : Except String (List ℕ)) = .ok (laneIndices n lanes lane b e) := by
      intro lane hlane
      rw [rfLaneRangeIntersection_eq hc (List.mem_range.mp hlane), ok_bind]
      split
      · rfl
      · next hact =>
        rw [List.mem_filter, decide_eq_true_eq] at hact
        rw [laneIndices, Nat.sub_eq_zero_of_le (not_lt.mp fun hlt => hact ⟨hlane, hlt⟩)]
        rfl
    rw [mapM_of_forall hwork, ok_bind]
    refine congrArg (fun work => Except.ok (Call.mk d port work)) (funext fun l => ?_)
    simp

theorem mem_laneIndices {lane i : ℕ} : i ∈ laneIndices n lanes lane b e ↔
    (laneBegin n lanes lane ≤ i ∧ b ≤ i) ∧ i < laneBegin n lanes (lane + 1) ∧ i < e := by
  rw [laneIndices, List.mem_range'_1]
  omega

theorem laneIndices_sorted (n lanes lane b e : ℕ) :
    (laneIndices n lanes lane b e).Pairwise (· < ·) := List.pairwise_lt_range' 1

theorem laneIndices_append (lane : ℕ) {i : ℕ} (hib : i ≤ b) (hbe : b ≤ e) :
    laneIndices n lanes lane i b ++ laneIndices n lanes lane b e = laneIndices n lanes lane i e :=
  range'_append_of_le hib hbe

theorem flatMap_laneIndices (n lanes : ℕ) (hchunk : 0 < chunk) (lane : ℕ) :
    (chunks n chunk).flatMap (fun c => laneIndices n lanes lane c.1 c.2) =
      laneIndices n lanes lane 0 n := by
  apply flatMap_chunks_eq (g := fun e => laneIndices n lanes lane 0 e) hchunk
  · simp [laneIndices]
  · intro b e hbe hen
    exact laneIndices_append lane (Nat.zero_le b) hbe

theorem pending_chunkCalls [DecidableEq Port] (d d' : Dir) (port port' : Port) (n : ℕ)
    (hchunk : 0 < chunk) (l : Fin lanes) :
    pending d' port' l ((chunks n chunk).map fun c => rangeCall d port n lanes c.1 c.2) =
      if d = d' ∧ port = port' then laneIndices n lanes l 0 n else [] := by
  rw [pending, List.flatMap_map]
  by_cases h : d = d' ∧ port = port'
  · simp only [rangeCall, h, and_self, if_true]
    exact flatMap_laneIndices n lanes hchunk l
  · simp [rangeCall, h]

theorem chunkCalls_eq (hc : LaneCount env n lanes) (hchunk : 0 < chunk) (d : Dir) (port : Port)
    {size : ℕ} (hsize : n ≤ size) : chunkCalls env d port lanes n size chunk =
      .ok ((chunks n chunk).map fun c => rangeCall d port n lanes c.1 c.2) :=
  mapM_of_forall fun c hmem =>
    laneCall_eq hc d port hsize (chunk_le hchunk c hmem).1 (chunk_le hchunk c hmem).2

theorem ordered_chunkCalls (d : Dir) (port : Port) (n lanes : ℕ) (hchunk : 0 < chunk) :
    Ordered (fun _ _ i => i) ((chunks n chunk).map fun c => rangeCall d port n lanes c.1 c.2) := by
  constructor
  · intro c hc l
    obtain ⟨be, _, rfl⟩ := List.mem_map.mp hc
    exact (laneIndices_sorted n lanes l be.1 be.2).imp fun h => h.le
  · refine List.pairwise_map.mpr ((pairwise_chunks n hchunk).imp ?_)
    intro c c' hle l l' i hi i' hi'
    have hlt := (mem_laneIndices.mp hi).2.2
    have hge := (mem_laneIndices.mp hi').1.2
    exact hlt.trans_le (hle.trans hge)

end

/-! One transfer: the sender sends all chunks, the receiver receives all chunks,
and the two may cut the indices differently. -/

inductive Endpoint
  | sender
  | receiver
  deriving DecidableEq

instance : Fintype Endpoint := ⟨{.sender, .receiver}, fun p => by cases p <;> decide⟩

section

variable {α : Type} [Inhabited α]

def laneNet (α : Type) [Inhabited α] (cap : ℕ∞) : Net Endpoint Unit ℕ α (List α) where
  owner d _ := match d with
    | .send => .sender
    | .recv => .receiver
  cap := cap
  emit _ i values := values.getD i default
  store _ i c values := values.set i c

def laneStart {lanes : ℕ} (progS progR : Program Unit (Fin lanes) ℕ) (sent buf : List α) :
    State Endpoint Unit (Fin lanes) ℕ α (List α) where
  prog p := match p with
    | .sender => progS
    | .receiver => progR
  queue _ _ := []
  mem p := match p with
    | .sender => sent
    | .receiver => buf

/-- What holds while the lanes work: an index below `n` is either still to be
received or holds what was sent under it. -/
structure Delivering {lanes : ℕ} (cap : ℕ∞) (n : ℕ) (sent buf : List α)
    (s : State Endpoint Unit (Fin lanes) ℕ α (List α)) : Prop where
  scheduled : Scheduled (laneNet α cap) (fun _ _ i => i) s
  mem_sender : s.mem .sender = sent
  tracked : Tracked (laneNet α cap) (fun _ i c => c = sent.getD i default) s
  bound : ∀ l, ∀ i ∈ todo (laneNet α cap) s .recv () l, i < n
  length_eq : (s.mem .receiver).length = buf.length
  received : ∀ i < n, (∃ l, i ∈ todo (laneNet α cap) s .recv () l) ∨
    (s.mem .receiver).getD i default = sent.getD i default
  kept : ∀ i, n ≤ i → (s.mem .receiver).getD i default = buf.getD i default

variable {lanes n : ℕ} {cap : ℕ∞} {sent buf : List α}
  {s s' : State Endpoint Unit (Fin lanes) ℕ α (List α)}

theorem getD_set_of_lt {values : List α} {j : ℕ} (hj : j < values.length) (m : α) (i : ℕ) :
    (values.set j m).getD i default = if j = i then m else values.getD i default := by
  by_cases hij : j = i
  · subst hij
    rw [if_pos rfl, List.getD_eq_getElem _ _ (by rwa [List.length_set]), List.getElem_set_self]
  · rw [if_neg hij, List.getD_eq_getElem?_getD, List.getD_eq_getElem?_getD,
      List.getElem?_set_ne hij]

theorem Delivering.step (h : Delivering cap n sent buf s) (hbuf : n ≤ buf.length)
    (hs : Step (laneNet α cap) s s') : Delivering cap n sent buf s' := by
  have hown := h.scheduled.owned
  have hsuffix := fun l => hs.todo_suffix hown .recv () l
  have hgood : ∀ (port : Unit) (i : ℕ), (laneNet α cap).emit port i
      (s.mem ((laneNet α cap).owner .send port)) = sent.getD i default :=
    fun _ i => congrArg (fun values => List.getD values i default) h.mem_sender
  have hsched := h.scheduled.step hs
  have htracked := h.tracked.step hown hgood hs
  have hbound : ∀ l, ∀ i ∈ todo (laneNet α cap) s' .recv () l, i < n :=
    fun l i hi => h.bound l i ((hsuffix l).subset hi)
  cases hs with
  | @send p c rest l j js hp hd hl hcap =>
    refine ⟨hsched, h.mem_sender, htracked, hbound, h.length_eq, fun i hi => ?_, h.kept⟩
    rcases h.received i hi with ⟨l', hl'⟩ | hdone
    · left
      refine ⟨l', ?_⟩
      rwa [todo_pop hown hp hl, hd, if_neg (by simp), List.nil_append] at hl'
    · exact Or.inr hdone
  | @join p c rest hp hdone =>
    refine ⟨hsched, h.mem_sender, htracked, hbound, h.length_eq, fun i hi => ?_, h.kept⟩
    rcases h.received i hi with ⟨l', hl'⟩ | hdone'
    · left
      refine ⟨l', ?_⟩
      rwa [todo_join hp hdone]
    · exact Or.inr hdone'
  | @recv p c rest l j js m q hp hd hl hq =>
    have hgot := h.tracked.good_head hown hp hd hl hq
    have hp' : p = .receiver := by
      have howner := hown p c (by simp [hp])
      rw [hd] at howner
      exact howner.symm
    subst hp'
    have hjn : j < n := by
      apply h.bound l j
      rw [todo_pop hown hp hl, hd, if_pos ⟨rfl, rfl, rfl⟩]
      simp
    have hjlen : j < (s.mem .receiver).length := by
      rw [h.length_eq]
      omega
    have hnew : (((s.setProg .receiver (c.setWork l js :: rest)).setQueue c.port l q).setMem .receiver
        ((laneNet α cap).store c.port j m (s.mem .receiver))).mem .receiver =
        (s.mem .receiver).set j m := by
      simp [State.setMem, laneNet]
    refine ⟨hsched, h.mem_sender, htracked, hbound, ?_, fun i hi => ?_, fun i hi => ?_⟩
    · rw [hnew, List.length_set, h.length_eq]
    · rw [hnew, getD_set_of_lt hjlen]
      by_cases hij : j = i
      · right
        rw [if_pos hij, hgot, hij]
      · rw [if_neg hij]
        rcases h.received i hi with ⟨l', hl'⟩ | hdone
        · left
          refine ⟨l', ?_⟩
          rw [todo_pop hown hp hl] at hl'
          rcases List.mem_append.mp hl' with hj | hafter
          · split at hj
            · exact absurd (List.mem_singleton.mp hj).symm hij
            · simp at hj
          · exact hafter
        · exact Or.inr hdone
    · rw [hnew, getD_set_of_lt hjlen, if_neg (by omega)]
      exact h.kept i hi

theorem delivering_start {chunkS chunkR : ℕ} (hcS : 0 < chunkS) (hcR : 0 < chunkR)
    (cap : ℕ∞) (h0 : 0 < lanes) (sent buf : List α) :
    Delivering cap n sent buf (laneStart
      ((chunks n chunkS).map fun c => rangeCall .send () n lanes c.1 c.2)
      ((chunks n chunkR).map fun c => rangeCall .recv () n lanes c.1 c.2) sent buf) := by
  have hrecv : ∀ l : Fin lanes, pending .recv () l ((chunks n chunkR).map fun c =>
      rangeCall .recv () n lanes c.1 c.2) = laneIndices n lanes l 0 n := fun l => by
    rw [pending_chunkCalls _ _ _ _ n hcR, if_pos ⟨rfl, rfl⟩]
  have hsend : ∀ l : Fin lanes, pending .send () l ((chunks n chunkS).map fun c =>
      rangeCall .send () n lanes c.1 c.2) = laneIndices n lanes l 0 n := fun l => by
    rw [pending_chunkCalls _ _ _ _ n hcS, if_pos ⟨rfl, rfl⟩]
  have hmatch := fun (_ : Unit) l => (hsend l).trans (hrecv l).symm
  refine ⟨⟨?_, tracked_of_empty _ (fun _ _ => rfl) hmatch, ?_, ?_⟩, rfl,
    tracked_of_empty _ (fun _ _ => rfl) hmatch, ?_, rfl, ?_, fun _ _ => rfl⟩
  · intro p c hc
    cases p with
    | sender =>
      obtain ⟨be, _, rfl⟩ := List.mem_map.mp hc
      rfl
    | receiver =>
      obtain ⟨be, _, rfl⟩ := List.mem_map.mp hc
      rfl
  · intro p
    cases p with
    | sender => exact ordered_chunkCalls .send () n lanes hcS
    | receiver => exact ordered_chunkCalls .recv () n lanes hcR
  · intro port l
    apply Spaced.of_pairwise (fun _ _ => le_rfl)
    have hsorted := (laneIndices_sorted n lanes l 0 n).imp fun h => h.le
    rwa [← hrecv l] at hsorted
  · intro l i hi
    have hmem : i ∈ laneIndices n lanes l 0 n := hrecv l ▸ hi
    exact (mem_laneIndices.mp hmem).2.2
  · intro i hi
    left
    obtain ⟨lane, hl, hb, he⟩ := exists_lane h0 hi
    refine ⟨⟨lane, hl⟩, ?_⟩
    have hmem : i ∈ laneIndices n lanes lane 0 n :=
      mem_laneIndices.mpr ⟨⟨hb, Nat.zero_le i⟩, he, hi⟩
    rw [← hrecv ⟨lane, hl⟩] at hmem
    exact hmem

theorem Delivering.finished (h : Delivering cap n sent buf s) (hs : s.Finished) :
    s.mem .receiver = filled (fun i => sent.getD i default) buf 0 n := by
  refine List.ext_getElem (by rw [h.length_eq, length_filled]) fun i hi hi' => ?_
  have hib : i < buf.length := h.length_eq ▸ hi
  rw [← List.getD_eq_getElem _ default, ← List.getD_eq_getElem _ default, filled_getD _ _ _ hib]
  by_cases hin : i < n
  · rw [if_pos ⟨Nat.zero_le i, hin⟩]
    rcases h.received i hin with ⟨l, hl⟩ | hdone
    · rw [todo, hs] at hl
      simp [pending] at hl
    · exact hdone
  · rw [if_neg (fun hlt => hin hlt.2)]
    exact h.kept i (not_lt.mp hin)

theorem recv_frame {c : Call Unit (Fin lanes) ℕ} {rest : Program Unit (Fin lanes) ℕ} {b e : ℕ}
    (hr : Reachable (laneNet α cap) s s') (hp : s.prog .receiver = c :: rest)
    (hwork : ∀ l, ∀ i ∈ c.work l, b ≤ i ∧ i < e)
    (hlen : rest.length < (s'.prog .receiver).length) {i : ℕ} (hi : i < b ∨ e ≤ i) :
    (s'.mem .receiver).getD i default = (s.mem .receiver).getD i default := by
  have hinv := hr.invariant (P := fun t => (t.prog .receiver).length ≤ rest.length ∨
    ∃ c', t.prog .receiver = c' :: rest ∧ (∀ l, ∀ i ∈ c'.work l, b ≤ i ∧ i < e) ∧
      (t.mem .receiver).getD i default = (s.mem .receiver).getD i default)
    (Or.inr ⟨c, hp, hwork, rfl⟩) ?_
  · rcases hinv with hle | ⟨_, _, _, heq⟩
    · omega
    · exact heq
  rintro t t' hstep (hle | ⟨c', hc', hwork', heq⟩)
  · exact Or.inl ((hstep.length_le .receiver).trans hle)
  cases hstep with
  | @send p c₁ rest₁ l j js hp₁ hd hl hcap =>
    right
    by_cases hpr : p = .receiver
    · subst hpr
      obtain ⟨rfl, rfl⟩ := List.cons.inj (hp₁.symm.trans hc')
      refine ⟨c₁.setWork l js, by simp [State.setProg, State.setQueue], fun l' i hi => ?_, heq⟩
      exact hwork' l' i ((setWork_sublist hl l').subset hi)
    · exact ⟨c', by simpa [State.setProg, State.setQueue, Ne.symm hpr] using hc', hwork', heq⟩
  | @recv p c₁ rest₁ l j js m q hp₁ hd hl hq =>
    right
    by_cases hpr : p = .receiver
    · subst hpr
      obtain ⟨rfl, rfl⟩ := List.cons.inj (hp₁.symm.trans hc')
      refine ⟨c₁.setWork l js, by simp [State.setProg, State.setQueue, State.setMem],
        fun l' i hi => hwork' l' i ((setWork_sublist hl l').subset hi), ?_⟩
      have hj := hwork' l j (by simp [hl])
      have hne : j ≠ i := by omega
      have hset : ((t.mem .receiver).set j m).getD i default = (t.mem .receiver).getD i default := by
        rw [List.getD_eq_getElem?_getD, List.getD_eq_getElem?_getD, List.getElem?_set_ne hne]
      simpa [State.setMem, laneNet] using hset.trans heq
    · refine ⟨c', ?_, hwork', ?_⟩
      · simpa [State.setProg, State.setQueue, State.setMem, Ne.symm hpr] using hc'
      · simpa [State.setMem, State.setQueue, State.setProg, Ne.symm hpr] using heq
  | @join p c₁ rest₁ hp₁ hdone =>
    by_cases hpr : p = .receiver
    · subst hpr
      obtain ⟨rfl, rfl⟩ := List.cons.inj (hp₁.symm.trans hc')
      left
      simp [State.setProg]
    · right
      exact ⟨c', by simpa [State.setProg, Ne.symm hpr] using hc', hwork', heq⟩

/-- What a transfer from the start state `s₀` achieves under every interleaving. -/
structure LaneDelivery (cap : ℕ∞) (n : ℕ) (sent buf : List α)
    (s₀ : State Endpoint Unit (Fin lanes) ℕ α (List α)) : Prop where
  no_deadlock : DeadlockFree (laneNet α cap) s₀
  completes : ∀ s, Reachable (laneNet α cap) s₀ s →
    ∃ s', Reachable (laneNet α cap) s s' ∧ s'.Finished
  drained : ∀ s, Reachable (laneNet α cap) s₀ s → s.Finished → ∀ l, s.queue () l = []
  delivered : ∀ s, Reachable (laneNet α cap) s₀ s → s.Finished →
    s.mem .receiver = filled (fun i => sent.getD i default) buf 0 n

theorem laneDelivery {chunkS chunkR : ℕ} (hcS : 0 < chunkS) (hcR : 0 < chunkR) (hcap : 0 < cap)
    (h0 : 0 < lanes) (sent : List α) (hbuf : n ≤ buf.length) :
    LaneDelivery cap n sent buf (laneStart
      ((chunks n chunkS).map fun c => rangeCall .send () n lanes c.1 c.2)
      ((chunks n chunkR).map fun c => rangeCall .recv () n lanes c.1 c.2) sent buf) := by
  have hstart := delivering_start (n := n) hcS hcR cap h0 sent buf
  have hrun := fun s (hs : Reachable (laneNet α cap) _ s) =>
    hs.invariant hstart fun _ _ hstep hinv => Delivering.step hinv hbuf hstep
  have hfree := hstart.scheduled.deadlockFree hcap
  exact ⟨hfree, fun s hs => hfree.exists_finished hs,
    fun s hs hdone => (hrun s hs).tracked.queue_eq_nil hdone (),
    fun s hs hdone => (hrun s hs).finished hdone⟩

variable {envS envR : Env} {chunkS chunkR : ℕ}

/-- The endpoints may cut the indices into different chunks. -/
theorem laneTransport_delivers (hS : LaneCount envS n lanes) (hR : LaneCount envR n lanes)
    (hcS : 0 < chunkS) (hcR : 0 < chunkR) (hcap : 0 < cap) (hsent : n ≤ sent.length)
    (hbuf : n ≤ buf.length) :
    (∃ range, (∀ lane < lanes, rfLaneRange envS n lanes lane = .ok (range lane) ∧
      rfLaneRange envR n lanes lane = .ok (range lane)) ∧ Shards range n lanes) ∧
    (∀ lane ≤ lanes, ∀ t ∈ laneTerms n lanes lane, t < 2 ^ 64) ∧
    (∃ progS progR, chunkCalls envS .send () lanes n sent.length chunkS = .ok progS ∧
      chunkCalls envR .recv () lanes n buf.length chunkR = .ok progR ∧
      LaneDelivery cap n sent buf (laneStart progS progR sent buf)) ∧
    ∀ b e, b ≤ e → e ≤ n → ∃ c, laneCall envR .recv () lanes n buf.length b e = .ok c ∧
      ∀ (s s' : State Endpoint Unit (Fin lanes) ℕ α (List α)) rest,
        s.prog .receiver = c :: rest → Reachable (laneNet α cap) s s' →
        rest.length < (s'.prog .receiver).length → ∀ i, i < b ∨ e ≤ i →
        (s'.mem .receiver).getD i default = (s.mem .receiver).getD i default := by
  refine ⟨?_, fun lane hl => laneTerms_lt hS hl, ?_, fun b e hbe hen => ?_⟩
  · obtain ⟨range, hrange, hshards⟩ := rfLaneRange_shards hS
    refine ⟨range, fun lane hl => ⟨hrange lane hl, ?_⟩, hshards⟩
    rw [rfLaneRange_eq hR hl, ← rfLaneRange_eq hS hl]
    exact hrange lane hl
  · exact ⟨_, _, chunkCalls_eq hS hcS .send () hsent, chunkCalls_eq hR hcR .recv () hbuf,
      laneDelivery hcS hcR hcap hS.pos sent hbuf⟩
  · refine ⟨_, laneCall_eq hR .recv () hbuf hbe hen, fun s s' rest hp hr hlen i hi => ?_⟩
    refine recv_frame hr hp (fun l j hj => ?_) hlen hi
    have hmem := mem_laneIndices.mp hj
    exact ⟨hmem.1.2, hmem.2.2⟩

theorem laneTransport_delivers_two : ∃ progS progR,
    chunkCalls (fun _ => none) .send () 2 5 5 2 = .ok progS ∧
    chunkCalls (fun _ => none) .recv () 2 5 5 3 = .ok progR ∧
    LaneDelivery (α := ℕ) 1 5 [10, 11, 12, 13, 14] [0, 0, 0, 0, 0]
      (laneStart progS progR [10, 11, 12, 13, 14] [0, 0, 0, 0, 0]) :=
  have hcount : LaneCount (fun _ => none) 5 2 := ⟨by decide, by decide, by decide⟩
  (laneTransport_delivers hcount hcount (show 0 < 2 by decide) (show 0 < 3 by decide)
    (show (0 : ℕ∞) < 1 from zero_lt_one) (show 5 ≤ [10, 11, 12, 13, 14].length by decide)
    (show 5 ≤ [0, 0, 0, 0, 0].length by decide)).2.2.1

/-- Every interleaving ends where the lanes in order end. -/
theorem LaneDelivery.sequential {chunk : ℕ} (ht : Transport envS n lanes chunk)
    {s₀ : State Endpoint Unit (Fin lanes) ℕ α (List α)} (h : LaneDelivery cap n sent buf s₀)
    (hsent : n ≤ sent.length) (hbuf : n ≤ buf.length) (hs : Reachable (laneNet α cap) s₀ s)
    (hdone : s.Finished) : ∃ fds, sendCtLanes envS (lanesOf lanes fun _ => []) sent n = .ok fds ∧
      recvCtLanes envS fds buf n = .ok (lanesOf lanes fun _ => [], s.mem .receiver) := by
  refine ⟨_, sendCtLanes_append ht sent (fun _ => []) hsent fun _ _ => rfl, ?_⟩
  have hrecv := recvCtLanes_append (c := fun i => sent.getD i default) ht buf (fun _ => []) hbuf
  simp only [List.append_nil] at hrecv
  rw [h.delivered s hs hdone]
  exact hrecv

end

end RfClassGroups
