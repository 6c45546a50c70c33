import RfClassGroups.Lanes
import RfClassGroups.Maul

/-! Batched oblivious linear evaluation: the four parties of the
reverse-firewalled pipeline and the two parties of the direct protocol. A
connection is a bundle of lanes in each direction; a party reads what its peer
has written, so the run goes through the phases in the order of the data. -/

open ExceptList Loops Buffer

namespace RfClassGroups

variable {GK GD : Type} [CommGroup GK] [CommGroup GD]

instance : Inhabited (EncZero GK GD) := ⟨⟨.unset, .unset⟩⟩

def requiredEnvSize (env : Env) (name : String) : Except String ℕ :=
  cgParseSize env (env name) name false 0

/-- `rf_ole_batch_receive` up to the last round-1 ciphertext. -/
def rfOleReceiveR1 (env : Env) (cs : CLHSMqk GK GD) (pk : PublicKey GK GD) (xVals : List Mpz)
    (coins : ℕ → Mpz) : Except String (Lanes (CipherText GK GD)) := do
  let N := xVals.length
  let lanes ← rfTransportLanes env
  let chunk ← rfChunkSize env
  let fds ← openLanes (CipherText GK GD) env lanes N
  let r ← (chunks N chunk).foldlM (fun st be => do
    let preEncX ← parallelFor be.1 be.2 st.2 fun i => encryptPlain cs pk (xVals.getD i 0) (coins i)
    let fds ← sendCtLanesRange env st.1 preEncX N be.1 be.2
    return (fds, preEncX)) (fds, List.replicate N default)
  return r.1

/-- `rf_ole_batch_receive` from the first round-2 ciphertext. -/
def rfOleReceiveR2 (env : Env) (cs : CLHSMqk GK GD) (sk : cs.SecretKey) (N : ℕ)
    (fds : Lanes (CipherText GK GD)) : Except String (List Mpz) := do
  let chunk ← rfChunkSize env
  let r ← (chunks N chunk).foldlM (fun st be => do
    let (fds, yCts, yVals) := st
    let (fds, yCts) ← recvCtLanesRange env fds yCts N be.1 be.2
    let yVals ← parallelFor be.1 be.2 yVals fun i => cs.decrypt sk (yCts.getD i default)
    return (fds, yCts, yVals)) (fds, List.replicate N default, List.replicate N (0 : Mpz))
  return r.2.2

/-- The buffers of a firewall. Both rounds use one pair of them. -/
structure FirewallBuffers (GK GD : Type) where
  inBuf : List (CipherText GK GD)
  outBuf : List (CipherText GK GD)

/-- One forwarding round of a firewall: `step` is the key-changing operation and
`key` the public key of the outgoing side. -/
def firewallRound (env : Env) (cs : CLHSMqk GK GD)
    (step : CipherText GK GD → Mpz → EncZero GK GD → Except String (CipherText GK GD)) (n : ℕ)
    (rMaul : Mpz) (key : PublicKey GK GD) (coins : ℕ → Mpz)
    (inFds outFds : Lanes (CipherText GK GD)) (bufs : FirewallBuffers GK GD) :
    Except String (Lanes (CipherText GK GD) × Lanes (CipherText GK GD) ×
      FirewallBuffers GK GD) := do
  let chunk ← rfChunkSize env
  let r ← (chunks n chunk).foldlM (fun st be => do
    let (inFds, outFds, pre, inBuf, outBuf) := st
    let pre ← parallelFor be.1 be.2 pre fun i => makeEncZeroPair cs key (coins i)
    let (inFds, inBuf) ← recvCtLanesRange env inFds inBuf n be.1 be.2
    let outBuf ← parallelFor be.1 be.2 outBuf fun i =>
      step (inBuf.getD i default) rMaul (pre.getD i default)
    let outFds ← sendCtLanesRange env outFds outBuf n be.1 be.2
    return (inFds, outFds, pre, inBuf, outBuf))
    (inFds, outFds, List.replicate n default, bufs.inBuf, bufs.outBuf)
  return (r.1, r.2.1, ⟨r.2.2.2.1, r.2.2.2.2⟩)

/-- The scalars that a firewall draws: the maul scalar and one rerandomisation
scalar a ciphertext and round. -/
structure FirewallCoins where
  maul : Mpz
  r1 : ℕ → Mpz
  r2 : ℕ → Mpz

/-- A firewall after round 1: its keys, its buffers and the lanes it has filled. -/
structure FirewallState (GK GD : Type) where
  inKey : PublicKey GK GD
  outKey : PublicKey GK GD
  out : Lanes (CipherText GK GD)
  bufs : FirewallBuffers GK GD

def firewallR1 (env : Env) (cs : CLHSMqk GK GD) (coins : FirewallCoins) (pk : PublicKey GK GD)
    (inFds : Lanes (CipherText GK GD)) : Except String (FirewallState GK GD) := do
  let n ← requiredEnvSize env "CG_RF_EXPECTED_N"
  let lanes ← rfTransportLanes env
  let outFds ← openLanes (CipherText GK GD) env lanes n
  let inKey ← cs.publicKey pk.elt
  let outKey ← maulPk cs inKey coins.maul
  let r ← firewallRound env cs (maulFwdRerand cs) n coins.maul outKey coins.r1 inFds outFds
    ⟨List.replicate n default, List.replicate n default⟩
  return ⟨inKey, outKey, r.2.1, r.2.2⟩

def firewallR2 (env : Env) (cs : CLHSMqk GK GD) (coins : FirewallCoins)
    (st : FirewallState GK GD) (inFds : Lanes (CipherText GK GD)) :
    Except String (Lanes (CipherText GK GD)) := do
  let n ← requiredEnvSize env "CG_RF_EXPECTED_N"
  let lanes ← rfTransportLanes env
  let outFds ← openLanes (CipherText GK GD) env lanes n
  let r ← firewallRound env cs (maulInvRerand cs) n coins.maul st.inKey coins.r2 inFds outFds st.bufs
  return r.2.1

def rfOleBatchSend (env : Env) (cs : CLHSMqk GK GD) (pk : PublicKey GK GD) (aVals bVals : List Mpz)
    (coins : ℕ → Mpz) (inFds : Lanes (CipherText GK GD)) :
    Except String (Lanes (CipherText GK GD)) := do
  if aVals.length ≠ bVals.length then throw "RF-OLE sender vector size mismatch"
  let N := aVals.length
  let lanes ← rfTransportLanes env
  let chunk ← rfChunkSize env
  let outFds ← openLanes (CipherText GK GD) env lanes N
  let fpk ← cs.publicKey pk.elt
  let preEncB ← parallelFor 0 N (List.replicate N default) fun i =>
    encryptPlain cs fpk (bVals.getD i 0) (coins i)
  let r ← (chunks N chunk).foldlM
    (fun st be => recvCtLanesRange env st.1 st.2 N be.1 be.2) (inFds, List.replicate N default)
  let ctX := r.2
  let yVals ← parallelFor 0 N (List.replicate N default) fun i => do
    let t ← cgCmult cs (ctX.getD i default) (aVals.getD i 0)
    cgAdd cs t (preEncB.getD i default)
  (chunks N chunk).foldlM (fun fds be => sendCtLanesRange env fds yVals N be.1 be.2) outFds

structure RfEnvs where
  receiver : Env
  receiverFirewall : Env
  senderFirewall : Env
  sender : Env

structure RfCoins {GK GD : Type} [CommGroup GK] [CommGroup GD] (cs : CLHSMqk GK GD) where
  sk : cs.SecretKey
  encX : ℕ → Mpz
  encB : ℕ → Mpz
  receiverFirewall : FirewallCoins
  senderFirewall : FirewallCoins

/-- The pipeline: receiver, receiver firewall, sender firewall, sender, and back. -/
def rfOleRun (envs : RfEnvs) (cs : CLHSMqk GK GD) (coins : RfCoins cs)
    (xVals aVals bVals : List Mpz) : Except String (List Mpz) := do
  let pk ← cs.keygenPk coins.sk
  let r1 ← rfOleReceiveR1 envs.receiver cs pk xVals coins.encX
  let rrf ← firewallR1 envs.receiverFirewall cs coins.receiverFirewall pk r1
  let srf ← firewallR1 envs.senderFirewall cs coins.senderFirewall rrf.outKey rrf.out
  let y ← rfOleBatchSend envs.sender cs srf.outKey aVals bVals coins.encB srf.out
  let y ← firewallR2 envs.senderFirewall cs coins.senderFirewall srf y
  let y ← firewallR2 envs.receiverFirewall cs coins.receiverFirewall rrf y
  rfOleReceiveR2 envs.receiver cs coins.sk xVals.length y

/-- `direct_ole_batch_receive` and `direct_ole_batch_send`. The loops of the two
parties have equal bounds and alternate, so one pass is a pass of both: the
receiver sends a chunk, the sender answers it, the receiver decrypts it. -/
def directOleRun (envR envS : Env) (cs : CLHSMqk GK GD) (sk : cs.SecretKey) (encX encB : ℕ → Mpz)
    (xVals aVals bVals : List Mpz) : Except String (List Mpz) := do
  if aVals.length ≠ bVals.length then throw "direct OLE sender vector size mismatch"
  let N := xVals.length
  let NS := aVals.length
  let lanesR ← rfTransportLanes envR
  let lanesS ← rfTransportLanes envS
  let chunk ← rfChunkSize envR
  let pk ← cs.keygenPk sk
  let toS ← openLanes (CipherText GK GD) envR lanesR N
  let toR ← openLanes (CipherText GK GD) envS lanesS NS
  let pkS ← cs.publicKey pk.elt
  let r ← (chunks N chunk).foldlM (fun st be => do
    let (toS, toR, cts, ctX, ctY, encY, yVals) := st
    let cts ← parallelFor be.1 be.2 cts fun i => encryptPlain cs pk (xVals.getD i 0) (encX i)
    let toS ← sendCtLanesRange envR toS cts N be.1 be.2
    let (toS, ctX) ← recvCtLanesRange envS toS ctX NS be.1 be.2
    let ctY ← parallelFor be.1 be.2 ctY fun i => do
      let ctB ← encryptPlain cs pkS (bVals.getD i 0) (encB i)
      let ax ← cgCmult cs (ctX.getD i default) (aVals.getD i 0)
      cgAdd cs ax ctB
    let toR ← sendCtLanesRange envS toR ctY NS be.1 be.2
    let (toR, encY) ← recvCtLanesRange envR toR encY N be.1 be.2
    let yVals ← parallelFor be.1 be.2 yVals fun i => cs.decrypt sk (encY.getD i default)
    return (toS, toR, cts, ctX, ctY, encY, yVals))
    (toS, toR, List.replicate N default, List.replicate NS default, List.replicate NS default,
      List.replicate N default, List.replicate N (0 : Mpz))
  return r.2.2.2.2.2.2

section

variable {env : Env} {n lanes chunk : ℕ} {cs : CLHSMqk GK GD}

theorem firewallRound_append (ht : Transport env n lanes chunk)
    {step : CipherText GK GD → Mpz → EncZero GK GD → Except String (CipherText GK GD)}
    {c c' : ℕ → CipherText GK GD} {pre : ℕ → EncZero GK GD} {rMaul : Mpz}
    {key : PublicKey GK GD} {coins : ℕ → Mpz} (bufs : FirewallBuffers GK GD)
    (inQ outQ : ℕ → List (CipherText GK GD))
    (hkey : ∀ i, makeEncZeroPair cs key (coins i) = .ok (pre i))
    (hstep : ∀ i < n, step (c i) rMaul (pre i) = .ok (c' i)) (hin : bufs.inBuf.length = n)
    (hout : bufs.outBuf.length = n) :
    firewallRound env cs step n rMaul key coins
      (lanesOf lanes fun lane => laneQueue c n lanes 0 n lane ++ inQ lane) (lanesOf lanes outQ)
      bufs =
      .ok (lanesOf lanes inQ, lanesOf lanes fun lane => outQ lane ++ laneQueue c' n lanes 0 n lane,
        ⟨filled c bufs.inBuf 0 n, filled c' bufs.outBuf 0 n⟩) := by
  rw [firewallRound, ht.chunk_eq, ok_bind]
  have hnil : ∀ (d : ℕ → CipherText GK GD) (i lane : ℕ), laneQueue d n lanes i i lane = [] :=
    fun d i lane => laneQueue_eq_nil d n lanes (by omega)
  have hloop := foldlM_chunks_eq (ε := String) (n := n) ht.chunk_pos
    (g := fun k => (lanesOf lanes fun lane => laneQueue c n lanes k n lane ++ inQ lane,
      lanesOf lanes fun lane => outQ lane ++ laneQueue c' n lanes 0 k lane,
      filled pre (List.replicate n default) 0 k, filled c bufs.inBuf 0 k,
      filled c' bufs.outBuf 0 k))
    (f := fun st be => do
      let (inFds, outFds, pre, inBuf, outBuf) := st
      let pre ← parallelFor be.1 be.2 pre fun i => makeEncZeroPair cs key (coins i)
      let (inFds, inBuf) ← recvCtLanesRange env inFds inBuf n be.1 be.2
      let outBuf ← parallelFor be.1 be.2 outBuf fun i =>
        step (inBuf.getD i default) rMaul (pre.getD i default)
      let outFds ← sendCtLanesRange env outFds outBuf n be.1 be.2
      return (inFds, outFds, pre, inBuf, outBuf)) fun b e hbe hen => ?_
  · simp only [filled_self, hnil, List.append_nil, List.nil_append] at hloop
    rw [hloop]
    rfl
  dsimp only
  have hout' : ∀ i, b ≤ i → i < e → step ((filled c bufs.inBuf 0 e).getD i default) rMaul
      ((filled pre (List.replicate n default) 0 e).getD i default) = .ok (c' i) := fun i _ hi => by
    rw [filled_getD_of_lt c hi (by omega), filled_getD_of_lt pre hi (by simpa using hen),
      hstep i (by omega)]
  rw [parallelFor_filled hbe fun i _ _ => hkey i, ok_bind,
    recvCtLanesRange_rest ht inQ hbe hen hin.ge, ok_bind]
  dsimp only
  rw [parallelFor_filled hbe hout', ok_bind, sendCtLanesRange_rest ht outQ hbe hen hout.ge]
  rfl

theorem firewallRound_eq (ht : Transport env n lanes chunk)
    {step : CipherText GK GD → Mpz → EncZero GK GD → Except String (CipherText GK GD)}
    {c c' : ℕ → CipherText GK GD} {pre : ℕ → EncZero GK GD} {rMaul : Mpz}
    {key : PublicKey GK GD} {coins : ℕ → Mpz} (bufs : FirewallBuffers GK GD)
    (hkey : ∀ i, makeEncZeroPair cs key (coins i) = .ok (pre i))
    (hstep : ∀ i < n, step (c i) rMaul (pre i) = .ok (c' i)) (hin : bufs.inBuf.length = n)
    (hout : bufs.outBuf.length = n) :
    firewallRound env cs step n rMaul key coins (inFlight c n lanes 0 n) (inFlight c' n lanes 0 0)
      bufs = .ok (lanesOf lanes fun _ => [], inFlight c' n lanes 0 n,
        ⟨filled c bufs.inBuf 0 n, filled c' bufs.outBuf 0 n⟩) := by
  have hround := firewallRound_append ht bufs (fun _ => []) (fun _ => []) hkey hstep hin hout
  simp only [List.append_nil, List.nil_append] at hround
  have hopen : inFlight c' n lanes 0 0 = lanesOf lanes fun _ => [] :=
    congrArg (lanesOf lanes) (funext fun lane => laneQueue_eq_nil c' n lanes (by omega))
  rw [hopen]
  exact hround

variable (hc : cs.compactVariant = false)
include hc

theorem rfOleReceiveR1_eq {xVals : List Mpz} (ht : Transport env xVals.length lanes chunk)
    (hx : ∀ x ∈ xVals, 0 ≤ x ∧ x < cs.cleartextBound) (K : GD) (coins : ℕ → Mpz) :
    rfOleReceiveR1 env cs ⟨.delta K⟩ xVals coins =
      .ok (inFlight (fun i => cs.cipher K (xVals.getD i 0) (coins i)) xVals.length lanes 0
        xVals.length) := by
  set c := fun i => cs.cipher K (xVals.getD i 0) (coins i) with hcdef
  rw [rfOleReceiveR1, ht.lanes_eq, ok_bind, ht.chunk_eq, ok_bind, openLanes_eq c _ _ ht, ok_bind]
  have hloop := foldlM_chunks_eq (ε := String) (n := xVals.length) ht.chunk_pos
    (g := fun k => (inFlight c xVals.length lanes 0 k,
      filled c (List.replicate xVals.length default) 0 k))
    (f := fun st be => do
      let preEncX ← parallelFor be.1 be.2 st.2 fun i =>
        encryptPlain cs ⟨.delta K⟩ (xVals.getD i 0) (coins i)
      let fds ← sendCtLanesRange env st.1 preEncX xVals.length be.1 be.2
      return (fds, preEncX)) fun b e hbe hen => ?_
  · simp only [filled_self] at hloop
    rw [hloop]
    rfl
  have henc : ∀ i, b ≤ i → i < e →
      encryptPlain cs ⟨.delta K⟩ (xVals.getD i 0) (coins i) = .ok (c i) := fun i _ hi => by
    refine encryptPlain_eq hc K ?_ (coins i)
    rw [List.getD_eq_getElem _ _ (hi.trans_le hen)]
    exact hx _ (List.getElem_mem _)
  dsimp only
  rw [parallelFor_filled hbe henc, ok_bind, sendCtLanesRange_eq ht (Nat.zero_le b) hbe hen (by simp
    [length_filled]) fun j _ hj => filled_getD_of_lt c hj (by simpa using hen)]
  rfl

theorem rfOleReceiveR2_eq (ht : Transport env n lanes chunk) (sk : cs.SecretKey) (m r : ℕ → ℤ) :
    rfOleReceiveR2 env cs sk n
      (inFlight (fun i => cs.cipher (cs.base ^ sk.1) (m i) (r i)) n lanes 0 n) =
      .ok ((List.range n).map fun i => m i % cs.q) := by
  set c := fun i => cs.cipher (cs.base ^ sk.1) (m i) (r i) with hcdef
  rw [rfOleReceiveR2, ht.chunk_eq, ok_bind]
  have hloop := foldlM_chunks_eq (ε := String) (n := n) ht.chunk_pos
    (g := fun k => (inFlight c n lanes k n, filled c (List.replicate n default) 0 k,
      filled (fun i => m i % cs.q) (List.replicate n (0 : Mpz)) 0 k))
    (f := fun st be => do
      let (fds, yCts, yVals) := st
      let (fds, yCts) ← recvCtLanesRange env fds yCts n be.1 be.2
      let yVals ← parallelFor be.1 be.2 yVals fun i => cs.decrypt sk (yCts.getD i default)
      return (fds, yCts, yVals)) fun b e hbe hen => ?_
  · simp only [filled_self] at hloop
    rw [hloop, ok_bind]
    exact congrArg Except.ok (filled_all _ _)
  have hdec : ∀ i, b ≤ i → i < e →
      cs.decrypt sk ((filled c (List.replicate n default) 0 e).getD i default) =
        .ok (m i % cs.q) := fun i _ hi => by
    rw [filled_getD_of_lt c hi (by simpa using hen), CLHSMqk.decrypt_eq hc]
  dsimp only
  rw [recvCtLanesRange_eq ht hbe hen hen (by simp [length_filled]), ok_bind]
  simp only [filled_append c _ (Nat.zero_le b) hbe]
  rw [parallelFor_filled hbe hdec]
  rfl

/-- Round 1 of a firewall: the messages stay, the key is mauled, the fresh
scalars are added to the randomness. -/
theorem firewallR1_eq (ht : Transport env n lanes chunk)
    (hn : requiredEnvSize env "CG_RF_EXPECTED_N" = .ok n) (coins : FirewallCoins) (K : GD)
    (m r : ℕ → ℤ) :
    ∃ bufs, bufs.inBuf.length = n ∧ bufs.outBuf.length = n ∧
      firewallR1 env cs coins ⟨.delta K⟩ (inFlight (fun i => cs.cipher K (m i) (r i)) n lanes 0 n) =
        .ok ⟨⟨.delta K⟩, ⟨.delta (K * cs.base ^ coins.maul)⟩,
          inFlight (fun i => cs.cipher (K * cs.base ^ coins.maul) (m i) (r i + coins.r1 i)) n lanes
            0 n, bufs⟩ := by
  have hround := firewallRound_eq ht (c := fun i => cs.cipher K (m i) (r i))
    ⟨List.replicate n default, List.replicate n default⟩
    (makeEncZeroPair_eq hc (K * cs.base ^ coins.maul) <| coins.r1 ·)
    (fun i _ => maulFwdRerand_eq hc K (m i) (r i) coins.maul (coins.r1 i)) (by simp) (by simp)
  refine ⟨⟨filled (fun i => cs.cipher K (m i) (r i)) (List.replicate n default) 0 n,
    filled (fun i => cs.cipher (K * cs.base ^ coins.maul) (m i) (r i + coins.r1 i))
      (List.replicate n default) 0 n⟩, by simp [length_filled], by simp [length_filled], ?_⟩
  rw [firewallR1, hn, ok_bind, ht.lanes_eq, ok_bind, openLanes_eq _ _ _ ht, ok_bind,
    CLHSMqk.publicKey_eq hc, ok_bind, maulPk_eq hc, ok_bind, hround]
  rfl

theorem firewallR2_eq (ht : Transport env n lanes chunk)
    (hn : requiredEnvSize env "CG_RF_EXPECTED_N" = .ok n) (coins : FirewallCoins) (K : GD)
    (m r : ℕ → ℤ) {st : FirewallState GK GD} (hkey : st.inKey = ⟨.delta K⟩)
    (hin : st.bufs.inBuf.length = n) (hout : st.bufs.outBuf.length = n) :
    firewallR2 env cs coins st
      (inFlight (fun i => cs.cipher (K * cs.base ^ coins.maul) (m i) (r i)) n lanes 0 n) =
      .ok (inFlight (fun i => cs.cipher K (m i) (r i + coins.r2 i)) n lanes 0 n) := by
  have hround := firewallRound_eq ht
    (c := fun i => cs.cipher (K * cs.base ^ coins.maul) (m i) (r i)) st.bufs
    (makeEncZeroPair_eq hc K <| coins.r2 ·)
    (fun i _ => maulInvRerand_eq hc K (m i) (r i) coins.maul (coins.r2 i)) hin hout
  rw [firewallR2, hn, ok_bind, ht.lanes_eq, ok_bind, openLanes_eq _ _ _ ht, ok_bind, hkey, hround]
  rfl

theorem rfOleBatchSend_eq {aVals bVals : List Mpz} (ht : Transport env aVals.length lanes chunk)
    (hab : aVals.length = bVals.length) (hb : ∀ b ∈ bVals, 0 ≤ b ∧ b < cs.cleartextBound) (K : GD)
    (coins : ℕ → Mpz) (m r : ℕ → ℤ) :
    rfOleBatchSend env cs ⟨.delta K⟩ aVals bVals coins
      (inFlight (fun i => cs.cipher K (m i) (r i)) aVals.length lanes 0 aVals.length) =
      .ok (inFlight (fun i => cs.cipher K (m i * aVals.getD i 0 + bVals.getD i 0)
        (r i * aVals.getD i 0 + coins i)) aVals.length lanes 0 aVals.length) := by
  set n := aVals.length with hn
  set c := fun i => cs.cipher K (m i) (r i) with hcdef
  set d := fun i => cs.cipher K (bVals.getD i 0) (coins i) with hddef
  set c' := fun i => cs.cipher K (m i * aVals.getD i 0 + bVals.getD i 0)
    (r i * aVals.getD i 0 + coins i) with hc'def
  have hencB : ∀ i, 0 ≤ i → i < n →
      encryptPlain cs ⟨.delta K⟩ (bVals.getD i 0) (coins i) = .ok (d i) := fun i _ hi => by
    refine encryptPlain_eq hc K ?_ (coins i)
    rw [List.getD_eq_getElem _ _ (by omega)]
    exact hb _ (List.getElem_mem _)
  have hrecv := foldlM_chunks_eq (ε := String) (n := n) ht.chunk_pos
    (g := fun k => (inFlight c n lanes k n, filled c (List.replicate n default) 0 k))
    (f := fun st be => recvCtLanesRange env st.1 st.2 n be.1 be.2) fun b e hbe hen => by
      dsimp only
      rw [recvCtLanesRange_eq ht hbe hen hen (by simp [length_filled]),
        filled_append c _ (Nat.zero_le b) hbe]
  have hresp : ∀ i, 0 ≤ i → i < n → (do
      let t ← cgCmult cs ((filled c (List.replicate n default) 0 n).getD i default) (aVals.getD i 0)
      cgAdd cs t ((filled d (List.replicate n default) 0 n).getD i default)) = .ok (c' i) :=
    fun i _ hi => by
      rw [filled_getD_of_lt c hi (by simp), filled_getD_of_lt d hi (by simp), cgCmult_eq hc,
        ok_bind, cgAdd_eq hc]
  have hsend := foldlM_chunks_eq (ε := String) (n := n) ht.chunk_pos
    (g := fun k => inFlight c' n lanes 0 k)
    (f := fun fds be => sendCtLanesRange env fds (filled c' (List.replicate n default) 0 n) n be.1
      be.2) fun b e hbe hen => by
      dsimp only
      exact sendCtLanesRange_eq ht (Nat.zero_le b) hbe hen (by simp [length_filled])
        fun j _ hj => filled_getD_of_lt c' (hj.trans_le hen) (by simp)
  simp only [filled_self] at hrecv
  rw [rfOleBatchSend, if_neg (by simpa [hn] using hab)]
  simp only [← hn]
  rw [ht.lanes_eq, ok_bind, ht.chunk_eq, ok_bind, openLanes_eq c' _ _ ht, ok_bind,
    CLHSMqk.publicKey_eq hc, ok_bind, parallelFor_eq _ (Nat.zero_le n) hencB, ok_bind, hrecv, ok_bind,
    parallelFor_eq _ (Nat.zero_le n) hresp, ok_bind, hsend]

theorem directOleRun_eq {envR envS : Env} (htR : Transport envR n lanes chunk)
    (htS : Transport envS n lanes chunk) (sk : cs.SecretKey) (encX encB : ℕ → Mpz)
    {xVals aVals bVals : List Mpz} (hxn : xVals.length = n) (han : aVals.length = n)
    (hbn : bVals.length = n) (hx : ∀ x ∈ xVals, 0 ≤ x ∧ x < cs.cleartextBound)
    (hb : ∀ b ∈ bVals, 0 ≤ b ∧ b < cs.cleartextBound) :
    directOleRun envR envS cs sk encX encB xVals aVals bVals =
      .ok ((List.range n).map fun i =>
        (xVals.getD i 0 * aVals.getD i 0 + bVals.getD i 0) % cs.q) := by
  set K := cs.base ^ sk.1 with hK
  set c := fun i => cs.cipher K (xVals.getD i 0) (encX i) with hcdef
  set m := fun i : ℕ => xVals.getD i 0 * aVals.getD i 0 + bVals.getD i 0 with hm
  set c' := fun i => cs.cipher K (m i) (encX i * aVals.getD i 0 + encB i) with hc'def
  have hencX : ∀ i, i < n →
      encryptPlain cs ⟨.delta K⟩ (xVals.getD i 0) (encX i) = .ok (c i) := fun i hi => by
    refine encryptPlain_eq hc K ?_ (encX i)
    rw [List.getD_eq_getElem _ _ (by omega)]
    exact hx _ (List.getElem_mem _)
  have hencB : ∀ i, i < n → encryptPlain cs ⟨.delta K⟩ (bVals.getD i 0) (encB i) =
      .ok (cs.cipher K (bVals.getD i 0) (encB i)) := fun i hi => by
    refine encryptPlain_eq hc K ?_ (encB i)
    rw [List.getD_eq_getElem _ _ (by omega)]
    exact hb _ (List.getElem_mem _)
  have hloop := foldlM_chunks_eq (ε := String) (n := n) htR.chunk_pos
    (g := fun k => (inFlight c n lanes k k, inFlight c' n lanes k k,
      filled c (List.replicate n default) 0 k, filled c (List.replicate n default) 0 k,
      filled c' (List.replicate n default) 0 k, filled c' (List.replicate n default) 0 k,
      filled (fun i => m i % cs.q) (List.replicate n (0 : Mpz)) 0 k))
    (f := fun st be => do
      let (toS, toR, cts, ctX, ctY, encY, yVals) := st
      let cts ← parallelFor be.1 be.2 cts fun i =>
        encryptPlain cs ⟨.delta K⟩ (xVals.getD i 0) (encX i)
      let toS ← sendCtLanesRange envR toS cts n be.1 be.2
      let (toS, ctX) ← recvCtLanesRange envS toS ctX n be.1 be.2
      let ctY ← parallelFor be.1 be.2 ctY fun i => do
        let ctB ← encryptPlain cs ⟨.delta K⟩ (bVals.getD i 0) (encB i)
        let ax ← cgCmult cs (ctX.getD i default) (aVals.getD i 0)
        cgAdd cs ax ctB
      let toR ← sendCtLanesRange envS toR ctY n be.1 be.2
      let (toR, encY) ← recvCtLanesRange envR toR encY n be.1 be.2
      let yVals ← parallelFor be.1 be.2 yVals fun i => cs.decrypt sk (encY.getD i default)
      return (toS, toR, cts, ctX, ctY, encY, yVals)) fun b e hbe hen => ?_
  · simp only [filled_self] at hloop
    rw [directOleRun, if_neg (by omega)]
    simp only [hxn, han]
    rw [htR.lanes_eq, ok_bind, htS.lanes_eq, ok_bind, htR.chunk_eq, ok_bind,
      CLHSMqk.keygenPk_eq hc, ok_bind, openLanes_eq c _ _ htR, ok_bind, openLanes_eq c' _ _ htS,
      ok_bind, CLHSMqk.publicKey_eq hc, ok_bind, hloop, ok_bind]
    exact congrArg Except.ok (filled_all _ _)
  have hlen : e ≤ (List.replicate n (default : CipherText GK GD)).length := by simpa using hen
  have hresp : ∀ i, b ≤ i → i < e → (do
      let ctB ← encryptPlain cs ⟨.delta K⟩ (bVals.getD i 0) (encB i)
      let ax ← cgCmult cs ((filled c (List.replicate n default) 0 e).getD i default)
        (aVals.getD i 0)
      cgAdd cs ax ctB) = .ok (c' i) := fun i _ hi => by
    rw [hencB i (by omega), ok_bind, filled_getD_of_lt c hi hlen, cgCmult_eq hc, ok_bind,
      cgAdd_eq hc]
  have hdec : ∀ i, b ≤ i → i < e → cs.decrypt sk
      ((filled c' (List.replicate n default) 0 e).getD i default) = .ok (m i % cs.q) :=
    fun i _ hi => by rw [filled_getD_of_lt c' hi hlen, CLHSMqk.decrypt_eq hc]
  have hsize : ∀ d : ℕ → CipherText GK GD,
      n ≤ (filled d (List.replicate n default) 0 e).length := fun d => by simp [length_filled]
  have hsize' : ∀ d : ℕ → CipherText GK GD,
      n ≤ (filled d (List.replicate n default) 0 b).length := fun d => by simp [length_filled]
  dsimp only
  rw [parallelFor_filled hbe fun i _ hi => hencX i (hi.trans_le hen), ok_bind,
    sendCtLanesRange_eq htR le_rfl hbe hen (hsize c) fun j _ hj => filled_getD_of_lt c hj hlen,
    ok_bind, recvCtLanesRange_eq htS hbe le_rfl hen (hsize' c), ok_bind]
  simp only [filled_append c _ (Nat.zero_le b) hbe]
  rw [parallelFor_filled hbe hresp, ok_bind,
    sendCtLanesRange_eq htS le_rfl hbe hen (hsize c') fun j _ hj => filled_getD_of_lt c' hj hlen,
    ok_bind, recvCtLanesRange_eq htR hbe le_rfl hen (hsize' c'), ok_bind]
  simp only [filled_append c' _ (Nat.zero_le b) hbe]
  rw [parallelFor_filled hbe hdec]
  rfl

structure RfTransport (envs : RfEnvs) (n lanes chunk : ℕ) : Prop where
  receiver : Transport envs.receiver n lanes chunk
  receiverFirewall : Transport envs.receiverFirewall n lanes chunk
  senderFirewall : Transport envs.senderFirewall n lanes chunk
  sender : Transport envs.sender n lanes chunk
  receiverFirewall_n : requiredEnvSize envs.receiverFirewall "CG_RF_EXPECTED_N" = .ok n
  senderFirewall_n : requiredEnvSize envs.senderFirewall "CG_RF_EXPECTED_N" = .ok n

/-- The batched evaluation is correct through both firewalls, whatever they
draw, and returns what the direct protocol returns. -/
theorem rfOleRun_correct {envs : RfEnvs} (ht : RfTransport envs n lanes chunk) (coins : RfCoins cs)
    {xVals aVals bVals : List Mpz} (hxn : xVals.length = n) (han : aVals.length = n)
    (hbn : bVals.length = n) (hx : ∀ x ∈ xVals, 0 ≤ x ∧ x < cs.cleartextBound)
    (hb : ∀ b ∈ bVals, 0 ≤ b ∧ b < cs.cleartextBound) :
    rfOleRun envs cs coins xVals aVals bVals = .ok ((List.range n).map fun i =>
      (aVals.getD i 0 * xVals.getD i 0 + bVals.getD i 0) % cs.q) ∧
    ∀ (envR envS : Env) (lanes' chunk' : ℕ) (sk : cs.SecretKey) (encX encB : ℕ → Mpz),
      Transport envR n lanes' chunk' → Transport envS n lanes' chunk' →
        directOleRun envR envS cs sk encX encB xVals aVals bVals =
          rfOleRun envs cs coins xVals aVals bVals := by
  have hrun : rfOleRun envs cs coins xVals aVals bVals = .ok ((List.range n).map fun i =>
      (xVals.getD i 0 * aVals.getD i 0 + bVals.getD i 0) % cs.q) := by
    subst hxn
    set n := xVals.length with hn
    set K := cs.base ^ coins.sk.1 with hK
    set K' := K * cs.base ^ coins.receiverFirewall.maul with hK'
    have hr1 := rfOleReceiveR1_eq hc ht.receiver hx K coins.encX
    obtain ⟨bufs, hin, hout, hrrf⟩ := firewallR1_eq hc ht.receiverFirewall ht.receiverFirewall_n
      coins.receiverFirewall K (fun i => xVals.getD i 0) coins.encX
    obtain ⟨bufs', hin', hout', hsrf⟩ := firewallR1_eq hc ht.senderFirewall ht.senderFirewall_n
      coins.senderFirewall K' (fun i => xVals.getD i 0)
      (fun i => coins.encX i + coins.receiverFirewall.r1 i)
    have hsend := rfOleBatchSend_eq hc (han.symm ▸ ht.sender) (han.trans hbn.symm)
      hb (K' * cs.base ^ coins.senderFirewall.maul) coins.encB (fun i => xVals.getD i 0)
      (fun i => coins.encX i + coins.receiverFirewall.r1 i + coins.senderFirewall.r1 i)
    rw [han] at hsend
    rw [rfOleRun, CLHSMqk.keygenPk_eq hc, ok_bind, hr1, ok_bind, hrrf, ok_bind]
    dsimp only
    rw [hsrf, ok_bind]
    dsimp only
    rw [hsend, ok_bind, firewallR2_eq hc ht.senderFirewall ht.senderFirewall_n _ K' _ _ rfl hin'
      hout', ok_bind, firewallR2_eq hc ht.receiverFirewall ht.receiverFirewall_n _ K _ _ rfl hin
      hout, ok_bind, rfOleReceiveR2_eq hc ht.receiver]
  have hcomm : (fun i => (xVals.getD i 0 * aVals.getD i 0 + bVals.getD i 0) % (cs.q : Mpz)) =
      fun i => (aVals.getD i 0 * xVals.getD i 0 + bVals.getD i 0) % (cs.q : Mpz) := by
    funext i
    rw [mul_comm]
  refine ⟨hcomm ▸ hrun, fun envR envS lanes' chunk' sk encX encB htR htS => ?_⟩
  rw [hrun]
  exact directOleRun_eq hc htR htS sk encX encB hxn han hbn hx hb

end

def smallScheme : CLHSMqk Unit (Multiplicative (ZMod 5 × ZMod 3)) where
  q := 5
  prime_q := by decide
  compactVariant := false
  h := .delta (.ofAdd (0, 1))
  discriminant_h := rfl
  f := .ofAdd (1, 0)
  orderOf_f := by
    have : Fact (Nat.Prime 5) := ⟨by decide⟩
    exact orderOf_eq_prime (by decide) (by decide)
  dlog x := (x.toAdd.1.val : ℤ)
  dlog_pow := by decide
  lift := 1
  secretkeyBound := 12

def smallEnv (n : String) : Env := fun name =>
  if name = "CG_RF_LANES" then some "3"
  else if name = "CG_RF_CHUNK_SIZE" then some "2"
  else if name = "CG_RF_EXPECTED_N" then some n
  else none

theorem smallEnv_transport : Transport (smallEnv "5") 5 3 2 :=
  ⟨by decide, by decide, by decide⟩

def smallEnvs : RfEnvs := ⟨smallEnv "5", smallEnv "5", smallEnv "5", smallEnv "5"⟩

theorem smallEnvs_transport : RfTransport smallEnvs 5 3 2 :=
  ⟨smallEnv_transport, smallEnv_transport, smallEnv_transport, smallEnv_transport, by decide,
    by decide⟩

theorem rfOleRun_correct_small :
    rfOleRun smallEnvs smallScheme
      ⟨⟨7, by decide⟩, fun i => 3 * i + 1, fun i => i * i, ⟨11, fun i => i, fun i => 5 * i⟩,
        ⟨4, fun i => 2 * i + 3, fun _ => 9⟩⟩
      [0, 1, 2, 3, 4] [4, 3, 2, 1, 0] [1, 1, 1, 2, 2] = .ok [1, 4, 0, 0, 2] :=
  (rfOleRun_correct (show smallScheme.compactVariant = false from rfl) smallEnvs_transport _ rfl rfl
    rfl (by decide) (by decide)).1

end RfClassGroups
