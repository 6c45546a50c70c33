import RfClassGroups.BatchTransport

/-! The pipeline of the four standalone processes. Its sender answers every
ciphertext at once, while the firewalls finish round 1 before round 2. -/

open FifoNetwork

namespace RfClassGroups

abbrev Op := Dir × (Round × Hop) × ℕ

/-- Number `n` is the verdict that follows the ciphertexts. -/
def cgReceiver (n : ℕ) : List Op :=
  ((List.range n).map fun i => (.send, (.r1, .recRrf), i)) ++
    ((List.range n).map fun i => (.recv, (.r2, .recRrf), i)) ++ [(.send, (.r1, .recRrf), n)]

def cgFirewall (inner outer : Hop) (n : ℕ) : List Op :=
  ((List.range n).flatMap fun i => [(.recv, (.r1, inner), i), (.send, (.r1, outer), i)]) ++
    (((List.range n).flatMap fun i => [(.recv, (.r2, outer), i), (.send, (.r2, inner), i)]) ++
      [(.recv, (.r1, inner), n), (.send, (.r1, outer), n)])

def cgSender (n : ℕ) : List Op :=
  ((List.range n).flatMap fun i => [(.recv, (.r1, .srfSen), i), (.send, (.r2, .srfSen), i)]) ++
    [(.recv, (.r1, .srfSen), n)]

def standaloneOps (n : ℕ) : Party → List Op
  | .receiver => cgReceiver n
  | .receiverFirewall => cgFirewall .recRrf .rrfSrf n
  | .senderFirewall => cgFirewall .rrfSrf .srfSen n
  | .sender => cgSender n

def opCall (op : Op) : Call (Round × Hop) Unit ℕ := ⟨op.1, op.2.1, fun _ => [op.2.2]⟩

def standaloneProg (n : ℕ) (p : Party) : Program (Round × Hop) Unit ℕ :=
  (standaloneOps n p).map opCall

theorem laneJobs_ops (ops : List Op) : laneJobs () (ops.map opCall) = ops := by
  induction ops with
  | nil => rfl
  | cons op ops ih =>
    rw [List.map_cons, laneJobs_cons, ih]
    rfl

theorem pending_ops (d : Dir) (port : Round × Hop) (ops : List Op) :
    pending d port () (ops.map opCall) =
      ops.flatMap fun op => if op.1 = d ∧ op.2.1 = port then [op.2.2] else [] := by
  rw [pending, List.flatMap_map]
  rfl

theorem pending_standalone (n : ℕ) (d : Dir) (port : Round × Hop) :
    pending d port () (standaloneProg n (pipeOwner d port)) =
      List.range n ++ if port.1 = .r1 then [n] else [] := by
  obtain ⟨round, hop⟩ := port
  rw [standaloneProg, pending_ops]
  cases d <;> cases round <;> cases hop <;>
    simp [pipeOwner, Hop.inner, Hop.outer, standaloneOps, cgReceiver, cgFirewall, cgSender,
      List.flatMap_map, List.flatMap_assoc]

theorem standalone_owned (n : ℕ) (p : Party) :
    ∀ c ∈ standaloneProg n p, pipeOwner c.dir c.port = p := by
  intro c hc
  obtain ⟨op, hop, rfl⟩ := List.mem_map.mp hc
  cases p with
  | receiver =>
    simp only [standaloneOps, cgReceiver, List.mem_append, List.mem_map, List.mem_singleton] at hop
    rcases hop with (⟨i, _, rfl⟩ | ⟨i, _, rfl⟩) | rfl <;> rfl
  | receiverFirewall =>
    simp only [standaloneOps, cgFirewall, List.mem_append, List.mem_flatMap, List.mem_pair] at hop
    rcases hop with ⟨i, _, rfl | rfl⟩ | ⟨i, _, rfl | rfl⟩ | rfl | rfl <;> rfl
  | senderFirewall =>
    simp only [standaloneOps, cgFirewall, List.mem_append, List.mem_flatMap, List.mem_pair] at hop
    rcases hop with ⟨i, _, rfl | rfl⟩ | ⟨i, _, rfl | rfl⟩ | rfl | rfl <;> rfl
  | sender =>
    simp only [standaloneOps, cgSender, List.mem_append, List.mem_flatMap, List.mem_pair,
      List.mem_singleton] at hop
    rcases hop with ⟨i, _, rfl | rfl⟩ | rfl <;> rfl

/-! Up to `2 * K + 1` ciphertexts the answers of the sender find room until the
last ciphertext of round 1 has passed the firewall before it. -/

/-- When an operation happens: round 1 before `4 * n`, then round 2, then the
verdict. The sender takes its first `K + 1` ciphertexts during round 1, and the
others as its answers are taken. -/
def standaloneRank (n K : ℕ) : Dir → Round × Hop → ℕ → ℕ
  | d, (.r1, hop), i =>
    if i = n then 8 * n + hopOffset (.r1, hop)
    else match d, hop with
      | .recv, .srfSen => if i ≤ K then 4 * i + 2 else 4 * n + 4 * (i - K) - 1
      | _, _ => 4 * i + hopOffset (.r1, hop)
  | .send, (.r2, .srfSen), i => if i < K then 4 * i + 3 else 4 * n + 4 * (i - K)
  | _, (.r2, hop), i => 4 * n + 4 * i + hopOffset (.r2, hop)

section

variable {n K : ℕ}

theorem pairwise_loop {β : Type} {x y : ℕ → β} {t : β → ℕ} (lo : ℕ → ℕ)
    (hmono : ∀ i i', i ≤ i' → i' < n → lo i ≤ lo i')
    (h : ∀ i < n, lo i ≤ t (x i) ∧ t (x i) < t (y i) ∧ t (y i) < lo (i + 1)) :
    ((List.range n).flatMap fun i => [x i, y i]).Pairwise fun a b => t a < t b := by
  refine List.pairwise_flatMap.mpr ⟨fun i hi => ?_, ?_⟩
  · exact List.pairwise_pair.mpr (h i (List.mem_range.mp hi)).2.1
  · refine List.pairwise_lt_range.imp_of_mem fun {i i'} hi hi' hlt a ha b hb => ?_
    have hle := hmono (i + 1) i' hlt (List.mem_range.mp hi')
    have hi := h i (List.mem_range.mp hi)
    have hi' := h i' (List.mem_range.mp hi')
    rcases List.mem_pair.mp ha with rfl | rfl <;> rcases List.mem_pair.mp hb with rfl | rfl <;> omega

theorem ordered_ops {rank : Dir → Round × Hop → ℕ → ℕ} {ops : List Op}
    (h : ops.Pairwise fun x y => rank x.1 x.2.1 x.2.2 < rank y.1 y.2.1 y.2.2) :
    Ordered rank (ops.map opCall) := by
  constructor
  · intro c hc l
    obtain ⟨op, _, rfl⟩ := List.mem_map.mp hc
    exact List.pairwise_singleton _ _
  · refine List.pairwise_map.mpr (h.imp fun {x y} hlt l l' j hj j' hj' => ?_)
    rw [opCall, List.mem_singleton] at hj hj'
    rw [hj, hj']
    exact hlt

def opTime (n K : ℕ) (op : Op) : ℕ := standaloneRank n K op.1 op.2.1 op.2.2

theorem opTime_r1 {d : Dir} {hop : Hop} (h : d = .recv → hop ≠ .srfSen) {i : ℕ} (hi : i < n) :
    opTime n K (d, (.r1, hop), i) = 4 * i + hopOffset (.r1, hop) := by
  cases d <;> cases hop <;> simp_all [opTime, standaloneRank, hi.ne]

theorem opTime_r2 {d : Dir} {hop : Hop} (h : d = .send → hop ≠ .srfSen) (i : ℕ) :
    opTime n K (d, (.r2, hop), i) = 4 * n + 4 * i + hopOffset (.r2, hop) := by
  cases d <;> cases hop <;> simp_all [opTime, standaloneRank]

theorem opTime_verdict (d : Dir) (hop : Hop) :
    opTime n K (d, (.r1, hop), n) = 8 * n + hopOffset (.r1, hop) := by
  simp [opTime, standaloneRank]

theorem hopOffset_le (port : Round × Hop) : hopOffset port ≤ 2 := by
  obtain ⟨round, hop⟩ := port
  cases round <;> cases hop <;> decide

theorem firewall_pairwise {inner outer : Hop} (hin : inner ≠ .srfSen)
    (h1 : hopOffset (.r1, inner) < hopOffset (.r1, outer))
    (h2 : hopOffset (.r2, outer) < hopOffset (.r2, inner)) :
    (cgFirewall inner outer n).Pairwise fun x y => opTime n K x < opTime n K y := by
  have hr1 : ∀ i < n, opTime n K (.recv, (.r1, inner), i) = 4 * i + hopOffset (.r1, inner) :=
    fun i hi => opTime_r1 (fun _ => hin) hi
  have hs1 : ∀ i < n, opTime n K (.send, (.r1, outer), i) = 4 * i + hopOffset (.r1, outer) :=
    fun i hi => opTime_r1 (by simp) hi
  have hr2 : ∀ i, opTime n K (.recv, (.r2, outer), i) = 4 * n + 4 * i + hopOffset (.r2, outer) :=
    fun i => opTime_r2 (by simp) i
  have hs2 : ∀ i, opTime n K (.send, (.r2, inner), i) = 4 * n + 4 * i + hopOffset (.r2, inner) :=
    fun i => opTime_r2 (fun _ => hin) i
  have hb1 := hopOffset_le (.r1, outer)
  have hb2 := hopOffset_le (.r2, inner)
  refine List.pairwise_append.mpr ⟨?_, List.pairwise_append.mpr ⟨?_, ?_, ?_⟩, ?_⟩
  · refine pairwise_loop (fun i => 4 * i) (fun i i' hle _ => by omega) fun i hi => ?_
    rw [hr1 i hi, hs1 i hi]
    omega
  · refine pairwise_loop (fun i => 4 * n + 4 * i) (fun i i' hle _ => by omega)
      fun i hi => ?_
    rw [hr2 i, hs2 i]
    omega
  · refine List.pairwise_pair.mpr ?_
    rw [opTime_verdict, opTime_verdict]
    omega
  · intro x hx y hy
    obtain ⟨i, hi, hx⟩ := List.mem_flatMap.mp hx
    have hin := List.mem_range.mp hi
    have hv := fun d hop => opTime_verdict (n := n) (K := K) d hop
    rcases List.mem_pair.mp hx with rfl | rfl <;> rcases List.mem_pair.mp hy with rfl | rfl <;>
      simp only [hr2, hs2, hv] <;> omega
  · intro x hx y hy
    obtain ⟨i, hi, hx⟩ := List.mem_flatMap.mp hx
    have hin := List.mem_range.mp hi
    have hxt : opTime n K x < 4 * n := by
      rcases List.mem_pair.mp hx with rfl | rfl
      · rw [hr1 i hin]
        omega
      · rw [hs1 i hin]
        omega
    have hyt : 4 * n ≤ opTime n K y := by
      rcases List.mem_append.mp hy with hy | hy
      · obtain ⟨i', _, hy⟩ := List.mem_flatMap.mp hy
        rcases List.mem_pair.mp hy with rfl | rfl
        · rw [hr2]
          omega
        · rw [hs2]
          omega
      · rcases List.mem_pair.mp hy with rfl | rfl <;> rw [opTime_verdict] <;> omega
    exact hxt.trans_le hyt

theorem receiver_pairwise : (cgReceiver n).Pairwise fun x y => opTime n K x < opTime n K y := by
  have hs : ∀ i < n, opTime n K (.send, (.r1, .recRrf), i) = 4 * i :=
    fun i hi => opTime_r1 (by simp) hi
  have hr : ∀ i, opTime n K (.recv, (.r2, .recRrf), i) = 4 * n + 4 * i + 2 :=
    fun i => opTime_r2 (by simp) i
  have hv : opTime n K (.send, (.r1, .recRrf), n) = 8 * n := opTime_verdict _ _
  refine List.pairwise_append.mpr ⟨List.pairwise_append.mpr ⟨?_, ?_, ?_⟩,
    List.pairwise_singleton _ _, ?_⟩
  · refine List.pairwise_map.mpr (List.pairwise_lt_range.imp_of_mem fun {i i'} hi hi' hlt => ?_)
    rw [hs i (List.mem_range.mp hi), hs i' (List.mem_range.mp hi')]
    omega
  · refine List.pairwise_map.mpr (List.pairwise_lt_range.imp fun {i i'} hlt => ?_)
    rw [hr, hr]
    omega
  · intro x hx y hy
    obtain ⟨i, hi, rfl⟩ := List.mem_map.mp hx
    obtain ⟨i', _, rfl⟩ := List.mem_map.mp hy
    have hin := List.mem_range.mp hi
    rw [hs i hin, hr]
    omega
  · intro x hx y hy
    rw [List.mem_singleton] at hy
    subst hy
    rw [hv]
    rcases List.mem_append.mp hx with hx | hx
    · obtain ⟨i, hi, rfl⟩ := List.mem_map.mp hx
      have hin := List.mem_range.mp hi
      rw [hs i hin]
      omega
    · obtain ⟨i, hi, rfl⟩ := List.mem_map.mp hx
      have hin := List.mem_range.mp hi
      rw [hr]
      omega

theorem sender_pairwise (hn : n ≤ 2 * K + 1) :
    (cgSender n).Pairwise fun x y => opTime n K x < opTime n K y := by
  have hr : ∀ i < n, opTime n K (.recv, (.r1, .srfSen), i) =
      if i ≤ K then 4 * i + 2 else 4 * n + 4 * (i - K) - 1 :=
    fun i hi => by simp [opTime, standaloneRank, hi.ne]
  have hs : ∀ i, opTime n K (.send, (.r2, .srfSen), i) =
      if i < K then 4 * i + 3 else 4 * n + 4 * (i - K) := fun i => rfl
  have hv : opTime n K (.recv, (.r1, .srfSen), n) = 8 * n + 2 := opTime_verdict _ _
  refine List.pairwise_append.mpr ⟨?_, List.pairwise_singleton _ _, ?_⟩
  · -- pass `i` starts in round 1 up to pass `K`
    apply pairwise_loop fun i => if i ≤ K then 4 * i + 2 else 4 * n + 4 * (i - K) - 1
    · intro i i' hle hi'
      split <;> split <;> omega
    · intro i hi
      rw [hr i hi, hs i]
      split <;> split <;> split <;> omega
  · intro x hx y hy
    rw [List.mem_singleton] at hy
    subst hy
    rw [hv]
    obtain ⟨i, hi, hx⟩ := List.mem_flatMap.mp hx
    have hin := List.mem_range.mp hi
    rcases List.mem_pair.mp hx with rfl | rfl
    · rw [hr i hin]
      split <;> omega
    · rw [hs i]
      split <;> omega

theorem range_split {m : ℕ} {pre mid post : List ℕ} {j j' : ℕ}
    (h : List.range m = pre ++ j :: (mid ++ j' :: post)) : j' = j + (mid.length + 1) ∧ j' < m := by
  have hj : (List.range m)[pre.length]? = some j := by simp [h]
  have hj' : (List.range m)[pre.length + (mid.length + 1)]? = some j' := by
    rw [h, List.getElem?_append_right (by omega)]
    simp
  rw [List.getElem?_eq_some_iff] at hj hj'
  obtain ⟨hlt, hj⟩ := hj
  obtain ⟨hlt', hj'⟩ := hj'
  rw [List.getElem_range] at hj hj'
  rw [List.length_range] at hlt'
  omega

theorem standalone_spaced (hn : n ≤ 2 * K + 1) (port : Round × Hop) :
    Spaced (K : ℕ∞) (standaloneRank n K) port (List.range n ++ if port.1 = .r1 then [n] else []) := by
  obtain ⟨round, hop⟩ := port
  have hlist : (List.range n ++ if round = .r1 then [n] else []) =
      List.range (if round = .r1 then n + 1 else n) := by
    cases round
    · exact List.range_succ.symm
    · simp
  rw [hlist]
  constructor
  · intro j hj
    rw [List.mem_range] at hj
    cases round with
    | r1 =>
      rw [if_pos rfl] at hj
      cases hop <;> simp only [standaloneRank, hopOffset] <;> (try split_ifs) <;> omega
    | r2 =>
      rw [if_neg (by decide)] at hj
      cases hop <;> simp only [standaloneRank, hopOffset] <;> (try split_ifs) <;> omega
  · intro pre j mid j' post hsplit hcap
    obtain ⟨hjj, hlt⟩ := range_split hsplit
    have hK : K ≤ mid.length + 1 := by exact_mod_cast hcap
    cases round with
    | r1 =>
      rw [if_pos rfl] at hlt
      cases hop <;> simp only [standaloneRank, hopOffset] <;> (try split_ifs) <;> omega
    | r2 =>
      rw [if_neg (by decide)] at hlt
      cases hop <;> simp only [standaloneRank, hopOffset] <;> (try split_ifs) <;> omega

variable {Msg Mem : Type}

theorem standalone_scheduled (hn : n ≤ 2 * K + 1) (emit : Round × Hop → ℕ → Mem → Msg)
    (store : Round × Hop → ℕ → Msg → Mem → Mem) (mem : Party → Mem) :
    Scheduled (pipeNet K emit store) (standaloneRank n K)
      (State.start (standaloneProg n) mem) := by
  apply scheduled_start
  · exact standalone_owned n
  · intro p
    apply ordered_ops
    cases p with
    | receiver => exact receiver_pairwise
    | receiverFirewall => exact firewall_pairwise (by decide) (by decide) (by decide)
    | senderFirewall => exact firewall_pairwise (by decide) (by decide) (by decide)
    | sender => exact sender_pairwise hn
  · intro port l
    exact (pending_standalone n .send port).trans (pending_standalone n .recv port).symm
  · intro port l
    change Spaced _ _ port (pending .recv port () (standaloneProg n (pipeOwner .recv port)))
    rw [pending_standalone]
    exact standalone_spaced hn port

/-! With more ciphertexts the answers and the last ciphertexts of round 1 wait
for each other. -/

def uses (d : Dir) (port : Round × Hop) (ops : List Op) : ℕ :=
  ops.countP fun x => decide (x.1 = d ∧ x.2.1 = port)

theorem uses_le {ops ops' : List Op} (h : ops <:+ ops') (d : Dir) (port : Round × Hop) :
    uses d port ops ≤ uses d port ops' := h.sublist.countP_le

theorem uses_cons (d : Dir) (port : Round × Hop) (op : Op) (ops : List Op) :
    uses d port (op :: ops) = uses d port ops + if op.1 = d ∧ op.2.1 = port then 1 else 0 := by
  rw [uses, List.countP_cons]
  simp [uses]

theorem uses_append (d : Dir) (port : Round × Hop) (ops ops' : List Op) :
    uses d port (ops ++ ops') = uses d port ops + uses d port ops' := List.countP_append

theorem uses_loop (d d₁ d₂ : Dir) (port port₁ port₂ : Round × Hop) (n : ℕ) :
    uses d port ((List.range n).flatMap fun i => [(d₁, port₁, i), (d₂, port₂, i)]) =
      n * ((if d₁ = d ∧ port₁ = port then 1 else 0) +
        if d₂ = d ∧ port₂ = port then 1 else 0) := by
  induction n with
  | zero => simp [uses]
  | succ n ih =>
    rw [List.range_succ, List.flatMap_append, uses_append, ih, List.flatMap_singleton, uses_cons,
      uses_cons, Nat.succ_mul]
    simp only [uses, List.countP_nil]
    omega

/-- The sender has a ciphertext to receive for every answer it has to send. -/
theorem uses_sender {ops : List Op} (h : ops <:+ cgSender n) :
    uses .send (.r2, .srfSen) ops ≤ uses .recv (.r1, .srfSen) ops := by
  have hgen : ∀ is : List ℕ, ∀ all, all = (is.flatMap fun i =>
        [(Dir.recv, (Round.r1, Hop.srfSen), i), (Dir.send, (Round.r2, Hop.srfSen), i)]) ++
          [(Dir.recv, (Round.r1, Hop.srfSen), n)] →
      uses .send (.r2, .srfSen) all + 1 = uses .recv (.r1, .srfSen) all ∧
        ∀ ops, ops <:+ all → uses .send (.r2, .srfSen) ops ≤ uses .recv (.r1, .srfSen) ops := by
    intro is
    induction is with
    | nil =>
      rintro all rfl
      refine ⟨rfl, fun ops hops => ?_⟩
      rcases List.suffix_cons_iff.mp hops with rfl | hops
      · exact Nat.zero_le 1
      · rw [List.suffix_nil.mp hops]
        exact le_rfl
    | cons i is ih =>
      rintro all rfl
      obtain ⟨hfull, hsuf⟩ := ih _ rfl
      simp only [List.flatMap_cons, List.cons_append, List.nil_append]
      constructor
      · simp [uses_cons]
        omega
      · intro ops hops
        rcases List.suffix_cons_iff.mp hops with rfl | hops
        · simp [uses_cons]
          omega
        rcases List.suffix_cons_iff.mp hops with rfl | hops
        · simp [uses_cons]
          omega
        · exact hsuf ops hops
  exact (hgen (List.range n) _ rfl).2 ops h

/-- A firewall that has to send two more messages of round 1 is still in round 1. -/
theorem uses_firewall {ops : List Op} (h : ops <:+ cgFirewall .rrfSrf .srfSen n)
    (hsend : 2 ≤ uses .send (.r1, .srfSen) ops) : n ≤ uses .recv (.r2, .srfSen) ops := by
  rcases List.suffix_or_suffix_of_suffix h (List.suffix_append _ _) with hs | hs
  · have hle := uses_le hs .send (.r1, .srfSen)
    rw [uses_append, uses_loop, uses_cons, uses_cons] at hle
    simp [uses] at hle hsend
    omega
  · refine le_trans ?_ (uses_le hs .recv (.r2, .srfSen))
    rw [uses_append, uses_loop]
    simp

structure StillFirst (n K : ℕ) (emit : Round × Hop → ℕ → Mem → Msg)
    (store : Round × Hop → ℕ → Msg → Mem → Mem)
    (s : State Party (Round × Hop) Unit ℕ Msg Mem) : Prop where
  owned : Owned (pipeNet K emit store) s
  tracked : Tracked (pipeNet K emit store) (fun _ _ _ => True) s
  room : ∀ port l, ((s.queue port l).length : ℕ∞) ≤ K
  suffix : ∀ p, laneJobs () (s.prog p) <:+ standaloneOps n p
  first : (todo (pipeNet K emit store) s .recv (.r2, .srfSen) ()).length = n

variable {emit : Round × Hop → ℕ → Mem → Msg} {store : Round × Hop → ℕ → Msg → Mem → Mem}
  {s s' : State Party (Round × Hop) Unit ℕ Msg Mem}

theorem length_todo (s : State Party (Round × Hop) Unit ℕ Msg Mem) (d : Dir) (port : Round × Hop) :
    (todo (pipeNet K emit store) s d port ()).length =
      uses d port (laneJobs () (s.prog (pipeOwner d port))) := length_pending d port () _

/-- The sender cannot run ahead of its answers, nor the firewall ahead of the sender. -/
theorem StillFirst.send_le (h : StillFirst n K emit store s) :
    n ≤ (todo (pipeNet K emit store) s .send (.r1, .srfSen) ()).length + 2 * K := by
  have hK : ∀ port, (s.queue port ()).length ≤ K := fun port => by exact_mod_cast h.room port ()
  have h2 := h.tracked.length_eq (.r2, .srfSen) ()
  have h1 := h.tracked.length_eq (.r1, .srfSen) ()
  have hsender := uses_sender (h.suffix .sender)
  have hs : (todo (pipeNet K emit store) s .send (.r2, .srfSen) ()).length ≤
      (todo (pipeNet K emit store) s .recv (.r1, .srfSen) ()).length := by
    rw [length_todo, length_todo]
    exact hsender
  have hq1 := hK (.r1, .srfSen)
  have hq2 := hK (.r2, .srfSen)
  have hfirst := h.first
  omega

theorem StillFirst.pop (hn : 2 * K + 2 ≤ n) (h : StillFirst n K emit store s) {p : Party}
    {c : Call (Round × Hop) Unit ℕ} {rest : Program (Round × Hop) Unit ℕ} {l : Unit} {j : ℕ}
    {js : List ℕ} (hp : s.prog p = c :: rest) (hl : c.work l = j :: js)
    (hsuf : laneJobs () ((s.setProg p (c.setWork l js :: rest)).prog .senderFirewall) <:+
      standaloneOps n .senderFirewall) :
    (todo (pipeNet K emit store) (s.setProg p (c.setWork l js :: rest)) .recv (.r2, .srfSen)
      ()).length = n := by
  have hrecv := congrArg List.length (todo_pop h.owned hp hl .recv (.r2, .srfSen) ())
  have hsend := congrArg List.length (todo_pop h.owned hp hl .send (.r1, .srfSen) ())
  rw [h.first] at hrecv
  by_cases hc : c.dir = .recv ∧ c.port = (.r2, .srfSen)
  · -- the firewall would leave round 1 with two of its messages unsent
    rw [if_neg (by simp [hc])] at hsend
    rw [if_pos ⟨hc.1, hc.2, rfl⟩] at hrecv
    have hle := h.send_le
    rw [hsend, List.nil_append, length_todo] at hle
    have hfirewall := uses_firewall hsuf (by
      change n ≤ uses .send (.r1, .srfSen) (laneJobs () ((s.setProg p
        (c.setWork l js :: rest)).prog .senderFirewall)) + 2 * K at hle
      omega)
    rw [List.length_append, List.length_singleton, length_todo] at hrecv
    change n = 1 + uses .recv (.r2, .srfSen) (laneJobs () ((s.setProg p
      (c.setWork l js :: rest)).prog .senderFirewall)) at hrecv
    omega
  · rw [if_neg fun hmatch => hc ⟨hmatch.1, hmatch.2.1⟩, List.nil_append] at hrecv
    exact hrecv.symm

theorem StillFirst.step (hn : 2 * K + 2 ≤ n) (h : StillFirst n K emit store s)
    (hs : Step (pipeNet K emit store) s s') : StillFirst n K emit store s' := by
  have hsuf := fun p => (hs.laneJobs_suffix p ()).trans (h.suffix p)
  refine ⟨h.owned.step hs, h.tracked.step h.owned (fun _ _ => trivial) hs, hs.queue_le h.room, hsuf,
    ?_⟩
  cases hs with
  | send hp hd hl hcap => exact h.pop hn hp hl (hsuf _)
  | recv hp hd hl hq => exact h.pop hn hp hl (hsuf _)
  | join hp hdone =>
    rw [todo_join hp hdone]
    exact h.first

theorem stillFirst_start (n : ℕ) (mem : Party → Mem) :
    StillFirst n K emit store (State.start (standaloneProg n) mem) := by
  refine ⟨standalone_owned n, tracked_of_empty _ (fun _ _ => rfl) fun port l => ?_,
    fun _ _ => by simp [State.start], fun p => ?_, ?_⟩
  · exact (pending_standalone n .send port).trans (pending_standalone n .recv port).symm
  · change laneJobs () (standaloneProg n p) <:+ standaloneOps n p
    rw [standaloneProg, laneJobs_ops]
  · exact (congrArg List.length (pending_standalone n .recv (.r2, .srfSen))).trans (by simp)

theorem standalone_deadlocks (hn : 2 * K + 2 ≤ n) (emit : Round × Hop → ℕ → Mem → Msg)
    (store : Round × Hop → ℕ → Msg → Mem → Mem) (mem : Party → Mem) :
    ∃ s, Reachable (pipeNet K emit store) (State.start (standaloneProg n) mem) s ∧
      ¬ s.Finished ∧ ¬ CanStep (pipeNet K emit store) s := by
  obtain ⟨s, hs, hstuck⟩ := exists_stuck (pipeNet K emit store) (State.start (standaloneProg n) mem)
  have hfirst := hs.invariant (stillFirst_start n mem) fun _ _ hstep hinv => hinv.step hn hstep
  refine ⟨s, hs, fun hdone => ?_, ?_⟩
  · have hzero := hfirst.first
    rw [todo, hdone] at hzero
    simp [pending] at hzero
    omega
  · rintro ⟨m, hm⟩
    simp [hstuck m] at hm

/-- The four processes finish from every state of every run exactly when at most
`2 * K + 1` ciphertexts pass through buffers of `K` messages. -/
theorem standalone_deadlockFree_iff (n : ℕ) (hK : 0 < K) (emit : Round × Hop → ℕ → Mem → Msg)
    (store : Round × Hop → ℕ → Msg → Mem → Mem) (mem : Party → Mem) :
    DeadlockFree (pipeNet K emit store) (State.start (standaloneProg n) mem) ↔ n ≤ 2 * K + 1 := by
  constructor
  · intro hfree
    by_contra hn
    have hlt : 2 * K + 2 ≤ n := by omega
    obtain ⟨s, hs, hun, hstuck⟩ := standalone_deadlocks hlt emit store mem
    exact hstuck (hfree s hs hun)
  · intro hn
    have hcap : (0 : ℕ∞) < (K : ℕ∞) := by exact_mod_cast hK
    exact (standalone_scheduled hn emit store mem).deadlockFree hcap

theorem standalone_deadlockFree_iff_one :
    DeadlockFree (pipeNet 1 (fun _ i _ => i) fun _ _ _ (m : Unit) => m)
      (State.start (standaloneProg 3) fun _ => ()) ↔ 3 ≤ 2 * 1 + 1 :=
  standalone_deadlockFree_iff 3 (by decide) _ _ _

theorem standalone_deadlocks_four : ¬ ∀ n K : ℕ, 1 ≤ n → 1 ≤ K →
    DeadlockFree (pipeNet K (fun _ i _ => i) fun _ _ _ (m : Unit) => m)
      (State.start (standaloneProg n) fun _ => ()) := by
  intro h
  obtain ⟨s, hs, hun, hstuck⟩ := standalone_deadlocks (show 2 * 1 + 2 ≤ 4 by decide)
    (fun _ i _ => i) (fun _ _ _ (m : Unit) => m) fun _ => ()
  exact hstuck (h 4 1 (by decide) le_rfl s hs hun)

end

end RfClassGroups
