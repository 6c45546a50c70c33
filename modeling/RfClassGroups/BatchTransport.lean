import RfClassGroups.LaneThreads

/-! The batched transports as networks of lane threads: the lock-step protocol
of two parties, and the pipeline through both firewalls. What the parties
compute between their calls blocks nobody, so it stays a parameter. -/

open ExceptList Loops FifoNetwork

namespace RfClassGroups

/-- The protocols as they run from the last key transfer on: the connections by
their position between the receiver and the sender. -/
inductive Hop
  | recRrf
  | rrfSrf
  | srfSen
  deriving DecidableEq

inductive Round
  | r1
  | r2
  deriving DecidableEq

inductive Party
  | receiver
  | receiverFirewall
  | senderFirewall
  | sender
  deriving DecidableEq

instance : Fintype Party :=
  ⟨{.receiver, .receiverFirewall, .senderFirewall, .sender}, fun p => by cases p <;> decide⟩

def Hop.inner : Hop → Party
  | .recRrf => .receiver
  | .rrfSrf => .receiverFirewall
  | .srfSen => .senderFirewall

def Hop.outer : Hop → Party
  | .recRrf => .receiverFirewall
  | .rrfSrf => .senderFirewall
  | .srfSen => .sender

def pipeOwner (d : Dir) (port : Round × Hop) : Party :=
  match d, port.1 with
  | .send, .r1 | .recv, .r2 => port.2.inner
  | .recv, .r1 | .send, .r2 => port.2.outer

section

variable {Port : Type}

def chunkPairs (env : Env) (d : Dir) (port : Port) (d' : Dir) (port' : Port) (lanes n chunk : ℕ) :
    Except String (Program Port (Fin lanes) ℕ) := do
  let passes ← (chunks n chunk).mapM fun c => do
    let first ← laneCall env d port lanes n n c.1 c.2
    let second ← laneCall env d' port' lanes n n c.1 c.2
    return [first, second]
  return passes.flatten

/-- A 32-bit word on the first lane. It has the number after the last index. -/
def wordCall (d : Dir) (port : Port) (lanes n : ℕ) : Call Port (Fin lanes) ℕ :=
  ⟨d, port, fun l => if (l : ℕ) = 0 then [n] else []⟩

end

/-- `direct_ole_batch_receive`: the last word lets the sender close. -/
def directReceiveIo (env : Env) (lanes n chunk : ℕ) :
    Except String (Program Round (Fin lanes) ℕ) := do
  let passes ← chunkPairs env .send .r1 .recv .r2 lanes n chunk
  return passes ++ [wordCall .send .r1 lanes n]

def directSendIo (env : Env) (lanes n chunk : ℕ) : Except String (Program Round (Fin lanes) ℕ) := do
  let passes ← chunkPairs env .recv .r1 .send .r2 lanes n chunk
  return passes ++ [wordCall .recv .r1 lanes n]

def rfReceiveIo (env : Env) (lanes n chunk : ℕ) :
    Except String (Program (Round × Hop) (Fin lanes) ℕ) := do
  let r1 ← chunkCalls env .send (.r1, .recRrf) lanes n n chunk
  let r2 ← chunkCalls env .recv (.r2, .recRrf) lanes n n chunk
  return r1 ++ r2

/-- A firewall finishes round 1 before it starts round 2. -/
def firewallIo (env : Env) (inner outer : Hop) (lanes n chunk : ℕ) :
    Except String (Program (Round × Hop) (Fin lanes) ℕ) := do
  let r1 ← chunkPairs env .recv (.r1, inner) .send (.r1, outer) lanes n chunk
  let r2 ← chunkPairs env .recv (.r2, outer) .send (.r2, inner) lanes n chunk
  return r1 ++ r2

def rfSendIo (env : Env) (lanes n chunk : ℕ) :
    Except String (Program (Round × Hop) (Fin lanes) ℕ) := do
  let r1 ← chunkCalls env .recv (.r1, .srfSen) lanes n n chunk
  let r2 ← chunkCalls env .send (.r2, .srfSen) lanes n n chunk
  return r1 ++ r2

def directIo (env : Env) (lanes n chunk : ℕ) : Endpoint →
    Except String (Program Round (Fin lanes) ℕ)
  | .receiver => directReceiveIo env lanes n chunk
  | .sender => directSendIo env lanes n chunk

def pipeIo (env : Env) (lanes n chunk : ℕ) : Party →
    Except String (Program (Round × Hop) (Fin lanes) ℕ)
  | .receiver => rfReceiveIo env lanes n chunk
  | .receiverFirewall => firewallIo env .recRrf .rrfSrf lanes n chunk
  | .senderFirewall => firewallIo env .rrfSrf .srfSen lanes n chunk
  | .sender => rfSendIo env lanes n chunk

section

variable {Msg Mem : Type}

def directOwner (d : Dir) (port : Round) : Endpoint :=
  match d, port with
  | .send, .r1 | .recv, .r2 => .receiver
  | .recv, .r1 | .send, .r2 => .sender

/-- `emit` and `store` are what the parties compute around their calls. -/
def directNet (K : ℕ) (emit : Round → ℕ → Mem → Msg) (store : Round → ℕ → Msg → Mem → Mem) :
    Net Endpoint Round ℕ Msg Mem := ⟨directOwner, K, emit, store⟩

def pipeNet (K : ℕ) (emit : Round × Hop → ℕ → Mem → Msg)
    (store : Round × Hop → ℕ → Msg → Mem → Mem) : Net Party (Round × Hop) ℕ Msg Mem :=
  ⟨pipeOwner, K, emit, store⟩

end

section

variable {Port : Type} {env : Env} {n lanes chunk : ℕ}

theorem chunkPairs_eq (hc : LaneCount env n lanes) (hchunk : 0 < chunk) (d : Dir) (port : Port)
    (d' : Dir) (port' : Port) : chunkPairs env d port d' port' lanes n chunk =
      .ok ((chunks n chunk).flatMap fun c =>
        [rangeCall d port n lanes c.1 c.2, rangeCall d' port' n lanes c.1 c.2]) := by
  have hpass : ∀ c ∈ chunks n chunk, (do
      let first ← laneCall env d port lanes n n c.1 c.2
      let second ← laneCall env d' port' lanes n n c.1 c.2
      return [first, second] : Except String (Program Port (Fin lanes) ℕ)) =
        .ok [rangeCall d port n lanes c.1 c.2, rangeCall d' port' n lanes c.1 c.2] := by
    intro c hmem
    obtain ⟨hbe, hen⟩ := chunk_le hchunk c hmem
    rw [laneCall_eq hc d port le_rfl hbe hen, ok_bind, laneCall_eq hc d' port' le_rfl hbe hen]
    rfl
  rw [chunkPairs, mapM_of_forall hpass, ok_bind, ← List.flatMap_def]
  rfl

theorem mem_rangeCall {d : Dir} {port : Port} {q : ℕ} {l : Fin lanes} {i : ℕ} (hchunk : 0 < chunk)
    (hi : i ∈ (rangeCall d port n lanes (q * chunk) (min n (q * chunk + chunk))).work l) :
    i < n ∧ i / chunk = q := by
  have hmem := mem_laneIndices.mp hi
  refine ⟨by omega, ?_⟩
  rw [Nat.div_eq_iff hchunk]
  omega

section

variable {r : Port → ℕ → ℕ} (base width : ℕ)

theorem ordered_passes {calls : ℕ × ℕ → Program Port (Fin lanes) ℕ}
    (hpass : ∀ q, Ordered (fun _ => r) (calls (q * chunk, min n (q * chunk + chunk))))
    (hrank : ∀ q, ∀ c ∈ calls (q * chunk, min n (q * chunk + chunk)), ∀ l, ∀ i ∈ c.work l,
      base + width * q ≤ r c.port i ∧ r c.port i < base + width * (q + 1)) :
    Ordered (fun _ => r) ((chunks n chunk).flatMap calls) := by
  constructor
  · intro c hc
    obtain ⟨be, hbe, hc⟩ := List.mem_flatMap.mp hc
    obtain ⟨q, rfl⟩ := mem_chunks hbe
    exact (hpass q).1 c hc
  · refine List.pairwise_flatMap.mpr ⟨fun be hbe => ?_, ?_⟩
    · obtain ⟨q, rfl⟩ := mem_chunks hbe
      exact (hpass q).2
    · rw [chunks, strided, List.map_map]
      refine List.pairwise_map.mpr (List.pairwise_lt_range.imp fun {q q'} hq => ?_)
      intro c hc c' hc' l l' i hi i' hi'
      have hlt := (hrank q c hc l i hi).2
      have hle := (hrank q' c' hc' l' i' hi').1
      have hmul : width * (q + 1) ≤ width * q' := Nat.mul_le_mul_left width hq
      exact hlt.trans_le ((Nat.add_le_add_left hmul base).trans hle)

def PassRank (r : Port → ℕ → ℕ) (n chunk base width : ℕ) (port : Port) (off : ℕ) : Prop :=
  off < width ∧ ∀ i < n, r port i = base + off + width * (i / chunk)

variable {base width} {port port' : Port} {off off' : ℕ}

theorem PassRank.eq_of_mem (h : PassRank r n chunk base width port off) (hchunk : 0 < chunk) {d : Dir}
    {q : ℕ} {l : Fin lanes} {i : ℕ}
    (hi : i ∈ (rangeCall d port n lanes (q * chunk) (min n (q * chunk + chunk))).work l) :
    r port i = base + off + width * q := by
  obtain ⟨hin, hq⟩ := mem_rangeCall hchunk hi
  rw [h.2 i hin, hq]

theorem PassRank.pass (h : PassRank r n chunk base width port off) (hchunk : 0 < chunk) {d : Dir}
    {q : ℕ} {l : Fin lanes} {i : ℕ}
    (hi : i ∈ (rangeCall d port n lanes (q * chunk) (min n (q * chunk + chunk))).work l) :
    base + width * q ≤ r port i ∧ r port i < base + width * (q + 1) := by
  have hoff := h.1
  rw [h.eq_of_mem hchunk hi, Nat.mul_succ]
  omega

theorem PassRank.sorted (h : PassRank r n chunk base width port off) (hchunk : 0 < chunk) (d : Dir)
    (q : ℕ) (l : Fin lanes) :
    ((rangeCall d port n lanes (q * chunk) (min n (q * chunk + chunk))).work l).Pairwise
      fun i i' => r port i ≤ r port i' := by
  refine List.pairwise_of_forall_mem_list fun i hi i' hi' => ?_
  rw [h.eq_of_mem hchunk hi, h.eq_of_mem hchunk hi']

theorem ordered_chunkCalls_pass (lanes : ℕ) (h : PassRank r n chunk base width port off) (hchunk : 0 < chunk)
    (d : Dir) : Ordered (fun _ => r) ((chunks n chunk).map fun c =>
      rangeCall d port n lanes c.1 c.2) := by
  rw [List.map_eq_flatMap]
  apply ordered_passes base width
  · intro q
    refine ⟨fun c hc l => ?_, List.pairwise_singleton _ _⟩
    rw [List.mem_singleton] at hc
    subst hc
    exact h.sorted hchunk d q l
  · intro q c hc l i hi
    rw [List.mem_singleton] at hc
    subst hc
    exact h.pass hchunk hi

theorem ordered_chunkPairs (lanes : ℕ) (h : PassRank r n chunk base width port off)
    (h' : PassRank r n chunk base width port' off') (hoff : off < off') (hchunk : 0 < chunk)
    (d d' : Dir) : Ordered (fun _ => r) ((chunks n chunk).flatMap fun c =>
      [rangeCall d port n lanes c.1 c.2, rangeCall d' port' n lanes c.1 c.2]) := by
  apply ordered_passes base width
  · intro q
    constructor
    · intro c hc l
      rcases List.mem_pair.mp hc with rfl | rfl
      · exact h.sorted hchunk d q l
      · exact h'.sorted hchunk d' q l
    · refine List.pairwise_pair.mpr fun l l' i hi i' hi' => ?_
      have hr := h.eq_of_mem hchunk hi
      have hr' := h'.eq_of_mem hchunk hi'
      change r port i < r port' i'
      omega
  · intro q c hc l i hi
    rcases List.mem_pair.mp hc with rfl | rfl
    · exact h.pass hchunk hi
    · exact h'.pass hchunk hi

end

section

variable [DecidableEq Port]

theorem pending_chunkPairs (hchunk : 0 < chunk) {d₁ d₂ : Dir} {port₁ port₂ : Port}
    (hne : ¬ (d₁ = d₂ ∧ port₁ = port₂)) (d : Dir) (port : Port) (n : ℕ) (l : Fin lanes) :
    pending d port l ((chunks n chunk).flatMap fun c =>
      [rangeCall d₁ port₁ n lanes c.1 c.2, rangeCall d₂ port₂ n lanes c.1 c.2]) =
      if d₁ = d ∧ port₁ = port ∨ d₂ = d ∧ port₂ = port then laneIndices n lanes l 0 n else [] := by
  rw [pending, List.flatMap_assoc, ← flatMap_laneIndices n lanes hchunk l]
  by_cases h₁ : d₁ = d ∧ port₁ = port
  · have h₂ : ¬ (d₂ = d ∧ port₂ = port) := fun h₂ => hne ⟨h₁.1.trans h₂.1.symm, h₁.2.trans h₂.2.symm⟩
    simp [rangeCall, h₁, h₂]
  · by_cases h₂ : d₂ = d ∧ port₂ = port
    · simp [rangeCall, h₁, h₂]
    · simp [rangeCall, h₁, h₂]

theorem pending_wordCall (d d' : Dir) (port port' : Port) (n : ℕ) (l : Fin lanes) :
    pending d' port' l [wordCall d port lanes n] =
      if d = d' ∧ port = port' ∧ (l : ℕ) = 0 then [n] else [] := by
  rw [pending_cons]
  by_cases h : d = d' ∧ port = port'
  · by_cases hl : (l : ℕ) = 0
    · simp [pending, wordCall, h, hl]
    · simp [pending, wordCall, hl]
  · have h' : ¬ (d = d' ∧ port = port' ∧ (l : ℕ) = 0) := fun hh => h ⟨hh.1, hh.2.1⟩
    simp [pending, wordCall, h, h']

end

end

theorem spaced_of_monotone {Port : Type} {r : Port → ℕ → ℕ} {port : Port} (hr : Monotone (r port))
    (cap : ℕ∞) {jobs : List ℕ} (hs : jobs.Pairwise (· < ·)) :
    Spaced cap (fun _ => r) port jobs :=
  Spaced.of_pairwise (fun _ _ => le_rfl) (hs.imp fun h => hr h.le)

/-! The lock-step protocol: the rank of an index is the half pass that moves it. -/

section

variable {env : Env} {n lanes chunk : ℕ}

def directProg (n lanes chunk : ℕ) : Endpoint → Program Round (Fin lanes) ℕ
  | .receiver => ((chunks n chunk).flatMap fun c =>
      [rangeCall .send .r1 n lanes c.1 c.2, rangeCall .recv .r2 n lanes c.1 c.2]) ++
      [wordCall .send .r1 lanes n]
  | .sender => ((chunks n chunk).flatMap fun c =>
      [rangeCall .recv .r1 n lanes c.1 c.2, rangeCall .send .r2 n lanes c.1 c.2]) ++
      [wordCall .recv .r1 lanes n]

theorem directIo_eq (hc : LaneCount env n lanes) (hchunk : 0 < chunk) (p : Endpoint) :
    directIo env lanes n chunk p = .ok (directProg n lanes chunk p) := by
  cases p with
  | receiver =>
    rw [directIo, directReceiveIo, chunkPairs_eq hc hchunk]
    rfl
  | sender =>
    rw [directIo, directSendIo, chunkPairs_eq hc hchunk]
    rfl

def directRank (n chunk : ℕ) : Round → ℕ → ℕ
  | .r1, i => if i < n then 2 * (i / chunk) else 2 * n
  | .r2, i => 2 * (i / chunk) + 1

theorem directRank_monotone (n chunk : ℕ) (round : Round) : Monotone (directRank n chunk round) := by
  intro i i' hii
  have hdiv : i / chunk ≤ i' / chunk := Nat.div_le_div_right hii
  have hle : i / chunk ≤ i := Nat.div_le_self i chunk
  cases round with
  | r1 =>
    simp only [directRank]
    split
    · split
      · omega
      · omega
    · rw [if_neg (by omega)]
  | r2 =>
    simp only [directRank]
    omega

theorem directRank_r1 (n chunk : ℕ) : PassRank (directRank n chunk) n chunk 0 2 .r1 0 :=
  ⟨by decide, fun i hi => by simp [directRank, hi]⟩

theorem directRank_r2 (n chunk : ℕ) : PassRank (directRank n chunk) n chunk 0 2 .r2 1 :=
  ⟨by decide, fun i _ => by simp [directRank, Nat.add_comm]⟩

theorem ordered_wordCall {Port : Type} (r : Port → ℕ → ℕ) (d : Dir) (port : Port) (lanes n : ℕ) :
    Ordered (fun _ => r) [wordCall d port lanes n] := by
  refine ⟨fun c hc l => ?_, List.pairwise_singleton _ _⟩
  rw [List.mem_singleton] at hc
  subst hc
  simp only [wordCall]
  split
  · exact List.pairwise_singleton _ _
  · exact List.Pairwise.nil

theorem ordered_directProg (hchunk : 0 < chunk) (p : Endpoint) :
    Ordered (fun _ => directRank n chunk) (directProg n lanes chunk p) := by
  have hword : ∀ d, ∀ c ∈ [wordCall d Round.r1 lanes n], ∀ l, ∀ i ∈ c.work l,
      2 * n ≤ directRank n chunk c.port i := by
    intro d c hc l i hi
    rw [List.mem_singleton] at hc
    subst hc
    simp only [wordCall] at hi
    split at hi
    · rw [List.mem_singleton] at hi
      simp [wordCall, directRank, hi]
    · simp at hi
  have hpass : ∀ (d d' : Dir), ∀ c ∈ (chunks n chunk).flatMap fun c =>
      [rangeCall d Round.r1 n lanes c.1 c.2, rangeCall d' Round.r2 n lanes c.1 c.2],
      ∀ l, ∀ i ∈ c.work l, directRank n chunk c.port i < 2 * n := by
    intro d d' c hc l i hi
    obtain ⟨be, hbe, hc⟩ := List.mem_flatMap.mp hc
    rcases List.mem_pair.mp hc with rfl | rfl
    · have hlt := (mem_laneIndices.mp hi).2.2.trans_le (chunk_le hchunk be hbe).2
      have hdiv : i / chunk ≤ i := Nat.div_le_self i chunk
      simp only [rangeCall, directRank, if_pos hlt]
      omega
    · have hlt := (mem_laneIndices.mp hi).2.2.trans_le (chunk_le hchunk be hbe).2
      have hdiv : i / chunk ≤ i := Nat.div_le_self i chunk
      simp only [rangeCall, directRank]
      omega
  have hpairs := fun d d' => ordered_chunkPairs lanes (directRank_r1 n chunk)
    (directRank_r2 n chunk) Nat.zero_lt_one hchunk d d'
  cases p with
  | receiver => exact (hpairs _ _).append (ordered_wordCall _ _ _ _ _) _ (hpass _ _) (hword _)
  | sender => exact (hpairs _ _).append (ordered_wordCall _ _ _ _ _) _ (hpass _ _) (hword _)

variable {Msg Mem : Type}

theorem pending_directProg (hchunk : 0 < chunk) (d : Dir) (port : Round) (l : Fin lanes) :
    pending d port l (directProg n lanes chunk (directOwner d port)) =
      laneIndices n lanes l 0 n ++ if port = .r1 ∧ (l : ℕ) = 0 then [n] else [] := by
  cases d <;> cases port <;>
    simp [directOwner, directProg, pending_append, pending_chunkPairs hchunk, pending_wordCall]

theorem laneIndices_word_sorted (n lanes lane : ℕ) (p : Prop) [Decidable p] :
    (laneIndices n lanes lane 0 n ++ if p then [n] else []).Pairwise (· < ·) := by
  refine List.pairwise_append.mpr ⟨laneIndices_sorted n lanes lane 0 n, ?_, fun i hi i' hi' => ?_⟩
  · split
    · exact List.pairwise_singleton _ _
    · exact List.Pairwise.nil
  · have hlt := (mem_laneIndices.mp hi).2.2
    split at hi'
    · rw [List.mem_singleton] at hi'
      omega
    · simp at hi'

theorem directProg_owned (p : Endpoint) :
    ∀ c ∈ directProg n lanes chunk p, directOwner c.dir c.port = p := by
  intro c hc
  cases p with
  | receiver =>
    rcases List.mem_append.mp hc with hc | hc
    · obtain ⟨be, _, hc⟩ := List.mem_flatMap.mp hc
      rcases List.mem_pair.mp hc with rfl | rfl <;> rfl
    · rw [List.mem_singleton] at hc
      subst hc
      rfl
  | sender =>
    rcases List.mem_append.mp hc with hc | hc
    · obtain ⟨be, _, hc⟩ := List.mem_flatMap.mp hc
      rcases List.mem_pair.mp hc with rfl | rfl <;> rfl
    · rw [List.mem_singleton] at hc
      subst hc
      rfl

theorem direct_scheduled (hchunk : 0 < chunk) (K : ℕ) (emit : Round → ℕ → Mem → Msg)
    (store : Round → ℕ → Msg → Mem → Mem) (mem : Endpoint → Mem) :
    Scheduled (directNet K emit store) (fun _ => directRank n chunk)
      (State.start (directProg n lanes chunk) mem) := by
  apply scheduled_start
  · exact directProg_owned
  · exact ordered_directProg hchunk
  · intro port l
    exact (pending_directProg hchunk .send port l).trans (pending_directProg hchunk .recv port l).symm
  · intro port l
    apply spaced_of_monotone (directRank_monotone n chunk port)
    change (pending .recv port l (directProg n lanes chunk (directOwner .recv port))).Pairwise _
    rw [pending_directProg hchunk]
    exact laneIndices_word_sorted n lanes l _

end

/-! The pipeline: all of round 1 comes before all of round 2. -/

section

variable {env : Env} {n lanes chunk : ℕ}

def pipeProg (n lanes chunk : ℕ) : Party → Program (Round × Hop) (Fin lanes) ℕ
  | .receiver => ((chunks n chunk).map fun c => rangeCall .send (.r1, .recRrf) n lanes c.1 c.2) ++
      (chunks n chunk).map fun c => rangeCall .recv (.r2, .recRrf) n lanes c.1 c.2
  | .receiverFirewall => ((chunks n chunk).flatMap fun c =>
      [rangeCall .recv (.r1, .recRrf) n lanes c.1 c.2,
        rangeCall .send (.r1, .rrfSrf) n lanes c.1 c.2]) ++ (chunks n chunk).flatMap fun c =>
      [rangeCall .recv (.r2, .rrfSrf) n lanes c.1 c.2,
        rangeCall .send (.r2, .recRrf) n lanes c.1 c.2]
  | .senderFirewall => ((chunks n chunk).flatMap fun c =>
      [rangeCall .recv (.r1, .rrfSrf) n lanes c.1 c.2,
        rangeCall .send (.r1, .srfSen) n lanes c.1 c.2]) ++ (chunks n chunk).flatMap fun c =>
      [rangeCall .recv (.r2, .srfSen) n lanes c.1 c.2,
        rangeCall .send (.r2, .rrfSrf) n lanes c.1 c.2]
  | .sender => ((chunks n chunk).map fun c => rangeCall .recv (.r1, .srfSen) n lanes c.1 c.2) ++
      (chunks n chunk).map fun c => rangeCall .send (.r2, .srfSen) n lanes c.1 c.2

theorem pipeIo_eq (hc : LaneCount env n lanes) (hchunk : 0 < chunk) (p : Party) :
    pipeIo env lanes n chunk p = .ok (pipeProg n lanes chunk p) := by
  cases p with
  | receiver =>
    rw [pipeIo, rfReceiveIo, chunkCalls_eq hc hchunk _ _ le_rfl, ok_bind,
      chunkCalls_eq hc hchunk _ _ le_rfl]
    rfl
  | receiverFirewall =>
    rw [pipeIo, firewallIo, chunkPairs_eq hc hchunk, ok_bind, chunkPairs_eq hc hchunk]
    rfl
  | senderFirewall =>
    rw [pipeIo, firewallIo, chunkPairs_eq hc hchunk, ok_bind, chunkPairs_eq hc hchunk]
    rfl
  | sender =>
    rw [pipeIo, rfSendIo, chunkCalls_eq hc hchunk _ _ le_rfl, ok_bind,
      chunkCalls_eq hc hchunk _ _ le_rfl]
    rfl

def hopOffset : Round × Hop → ℕ
  | (.r1, .recRrf) | (.r2, .srfSen) => 0
  | (_, .rrfSrf) => 1
  | (.r1, .srfSen) | (.r2, .recRrf) => 2

def roundBase (n : ℕ) : Round → ℕ
  | .r1 => 0
  | .r2 => 3 * n

def pipeRank (n chunk : ℕ) (port : Round × Hop) (i : ℕ) : ℕ :=
  roundBase n port.1 + hopOffset port + 3 * (i / chunk)

theorem pipeRank_monotone (n chunk : ℕ) (port : Round × Hop) : Monotone (pipeRank n chunk port) :=
  fun _ _ hii => Nat.add_le_add_left (Nat.mul_le_mul_left 3 (Nat.div_le_div_right hii)) _

theorem pipeRank_r1 (n chunk : ℕ) (hop : Hop) :
    PassRank (pipeRank n chunk) n chunk 0 3 (.r1, hop) (hopOffset (.r1, hop)) :=
  ⟨by cases hop <;> decide, fun _ _ => rfl⟩

theorem pipeRank_r2 (n chunk : ℕ) (hop : Hop) :
    PassRank (pipeRank n chunk) n chunk (3 * n) 3 (.r2, hop) (hopOffset (.r2, hop)) :=
  ⟨by cases hop <;> decide, fun _ _ => rfl⟩

def InRound (round : Round) (n : ℕ) (prog : Program (Round × Hop) (Fin lanes) ℕ) : Prop :=
  ∀ c ∈ prog, c.port.1 = round ∧ ∀ l, ∀ i ∈ c.work l, i < n

theorem inRound_chunkCalls (hchunk : 0 < chunk) (d : Dir) (round : Round) (hop : Hop) :
    InRound round n ((chunks n chunk).map fun c =>
      rangeCall d (round, hop) n lanes c.1 c.2) := by
  intro c hc
  obtain ⟨be, hbe, rfl⟩ := List.mem_map.mp hc
  exact ⟨rfl, fun l i hi => (mem_laneIndices.mp hi).2.2.trans_le (chunk_le hchunk be hbe).2⟩

theorem inRound_chunkPairs (hchunk : 0 < chunk) (d d' : Dir) (round : Round) (hop hop' : Hop) :
    InRound round n ((chunks n chunk).flatMap fun c =>
      [rangeCall d (round, hop) n lanes c.1 c.2, rangeCall d' (round, hop') n lanes c.1 c.2]) := by
  intro c hc
  obtain ⟨be, hbe, hc⟩ := List.mem_flatMap.mp hc
  have hle := (chunk_le hchunk be hbe).2
  rcases List.mem_pair.mp hc with rfl | rfl
  · exact ⟨rfl, fun l i hi => (mem_laneIndices.mp hi).2.2.trans_le hle⟩
  · exact ⟨rfl, fun l i hi => (mem_laneIndices.mp hi).2.2.trans_le hle⟩

theorem ordered_rounds {prog prog' : Program (Round × Hop) (Fin lanes) ℕ}
    (h : Ordered (fun _ => pipeRank n chunk) prog) (h' : Ordered (fun _ => pipeRank n chunk) prog')
    (hr1 : InRound .r1 n prog) (hr2 : InRound .r2 n prog') :
    Ordered (fun _ => pipeRank n chunk) (prog ++ prog') := by
  refine h.append h' (3 * n) (fun c hc l i hi => ?_) fun c hc l i hi => ?_
  · obtain ⟨hround, hlt⟩ := hr1 c hc
    have hoff := (pipeRank_r1 n chunk c.port.2).1
    rw [← hround, Prod.mk.eta] at hoff
    have hin := hlt l i hi
    have hdiv : i / chunk ≤ i := Nat.div_le_self i chunk
    simp only [pipeRank, hround, roundBase]
    omega
  · obtain ⟨hround, _⟩ := hr2 c hc
    simp only [pipeRank, hround, roundBase]
    omega

theorem ordered_pipeProg (hchunk : 0 < chunk) (p : Party) :
    Ordered (fun _ => pipeRank n chunk) (pipeProg n lanes chunk p) := by
  have h1 := fun hop => pipeRank_r1 n chunk hop
  have h2 := fun hop => pipeRank_r2 n chunk hop
  cases p with
  | receiver =>
    exact ordered_rounds (ordered_chunkCalls_pass lanes (h1 _) hchunk _)
      (ordered_chunkCalls_pass lanes (h2 _) hchunk _) (inRound_chunkCalls hchunk _ _ _)
      (inRound_chunkCalls hchunk _ _ _)
  | receiverFirewall =>
    exact ordered_rounds (ordered_chunkPairs lanes (h1 _) (h1 _) (by decide) hchunk _ _)
      (ordered_chunkPairs lanes (h2 _) (h2 _) (by decide) hchunk _ _)
      (inRound_chunkPairs hchunk _ _ _ _ _) (inRound_chunkPairs hchunk _ _ _ _ _)
  | senderFirewall =>
    exact ordered_rounds (ordered_chunkPairs lanes (h1 _) (h1 _) (by decide) hchunk _ _)
      (ordered_chunkPairs lanes (h2 _) (h2 _) (by decide) hchunk _ _)
      (inRound_chunkPairs hchunk _ _ _ _ _) (inRound_chunkPairs hchunk _ _ _ _ _)
  | sender =>
    exact ordered_rounds (ordered_chunkCalls_pass lanes (h1 _) hchunk _)
      (ordered_chunkCalls_pass lanes (h2 _) hchunk _) (inRound_chunkCalls hchunk _ _ _)
      (inRound_chunkCalls hchunk _ _ _)

theorem pending_pipeProg (hchunk : 0 < chunk) (d : Dir) (port : Round × Hop) (l : Fin lanes) :
    pending d port l (pipeProg n lanes chunk (pipeOwner d port)) = laneIndices n lanes l 0 n := by
  obtain ⟨round, hop⟩ := port
  cases d <;> cases round <;> cases hop <;>
    simp [pipeOwner, Hop.inner, Hop.outer, pipeProg, pending_append, pending_chunkPairs hchunk,
      pending_chunkCalls _ _ _ _ n hchunk]

theorem pipeProg_owned (p : Party) :
    ∀ c ∈ pipeProg n lanes chunk p, pipeOwner c.dir c.port = p := by
  intro c hc
  cases p with
  | receiver =>
    rcases List.mem_append.mp hc with hc | hc <;> obtain ⟨be, _, rfl⟩ := List.mem_map.mp hc <;> rfl
  | sender =>
    rcases List.mem_append.mp hc with hc | hc <;> obtain ⟨be, _, rfl⟩ := List.mem_map.mp hc <;> rfl
  | receiverFirewall =>
    rcases List.mem_append.mp hc with hc | hc <;> obtain ⟨be, _, hc⟩ := List.mem_flatMap.mp hc <;>
      rcases List.mem_pair.mp hc with rfl | rfl <;> rfl
  | senderFirewall =>
    rcases List.mem_append.mp hc with hc | hc <;> obtain ⟨be, _, hc⟩ := List.mem_flatMap.mp hc <;>
      rcases List.mem_pair.mp hc with rfl | rfl <;> rfl

variable {Msg Mem : Type}

theorem pipe_scheduled (hchunk : 0 < chunk) (K : ℕ) (emit : Round × Hop → ℕ → Mem → Msg)
    (store : Round × Hop → ℕ → Msg → Mem → Mem) (mem : Party → Mem) :
    Scheduled (pipeNet K emit store) (fun _ => pipeRank n chunk)
      (State.start (pipeProg n lanes chunk) mem) := by
  apply scheduled_start
  · exact pipeProg_owned
  · exact ordered_pipeProg hchunk
  · intro port l
    exact (pending_pipeProg hchunk .send port l).trans (pending_pipeProg hchunk .recv port l).symm
  · intro port l
    apply spaced_of_monotone (pipeRank_monotone n chunk port)
    change (pending .recv port l (pipeProg n lanes chunk (pipeOwner .recv port))).Pairwise _
    rw [pending_pipeProg hchunk]
    exact laneIndices_sorted n lanes l 0 n

end

section

variable {n lanes chunk K : ℕ} {Msg Mem : Type}

/-- Neither transport can deadlock, whatever the buffer size, and whatever the
parties compute. -/
theorem batchTransports_deadlockFree {directEnv : Endpoint → Env} {pipeEnv : Party → Env}
    (hdirect : ∀ p, LaneCount (directEnv p) n lanes) (hpipe : ∀ p, LaneCount (pipeEnv p) n lanes)
    (hchunk : 0 < chunk) (hK : 0 < K) :
    (∃ prog, (∀ p, directIo (directEnv p) lanes n chunk p = .ok (prog p)) ∧
      ∀ (emit : Round → ℕ → Mem → Msg) store mem,
        DeadlockFree (directNet K emit store) (State.start prog mem)) ∧
    ∃ prog, (∀ p, pipeIo (pipeEnv p) lanes n chunk p = .ok (prog p)) ∧
      ∀ (emit : Round × Hop → ℕ → Mem → Msg) store mem,
        DeadlockFree (pipeNet K emit store) (State.start prog mem) := by
  have hcap : (0 : ℕ∞) < (K : ℕ∞) := by exact_mod_cast hK
  constructor
  · refine ⟨directProg n lanes chunk, fun p => directIo_eq (hdirect p) hchunk p, ?_⟩
    intro emit store mem
    exact (direct_scheduled hchunk K emit store mem).deadlockFree hcap
  · refine ⟨pipeProg n lanes chunk, fun p => pipeIo_eq (hpipe p) hchunk p, ?_⟩
    intro emit store mem
    exact (pipe_scheduled hchunk K emit store mem).deadlockFree hcap

theorem batchTransports_deadlockFree_five :
    ∃ prog, (∀ p, pipeIo (fun _ => none) 2 5 2 p = .ok (prog p)) ∧
      ∀ (emit : Round × Hop → ℕ → Unit → ℕ) store mem,
        DeadlockFree (pipeNet 1 emit store) (State.start prog mem) :=
  have hcount : LaneCount (fun _ => none) 5 2 := ⟨by decide, by decide, by decide⟩
  (batchTransports_deadlockFree (fun _ => hcount) (fun _ => hcount) (show 0 < 2 by decide)
    (show 0 < 1 by decide)).2

end

end RfClassGroups
