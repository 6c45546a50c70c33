import RfClassGroups.Psi
import RfClassGroups.RfOle

/-! The reveal-back phase of two-way PSI: party B sends its intersection in a fixed
number of slots, padded with zero, and party A keeps what lies in its own set. In
the direct version the slots are clear, in the reverse-firewalled version they
are encrypted under a key that both firewalls have mauled. -/

open CoeffList ExceptList Loops Buffer

namespace RfClassGroups

/-- What a sending routine has put on the wire, and the exception if it threw. -/
structure SendOutcome (σ : Type) where
  sent : σ
  result : Except String Unit

def psi2RevealSend (mA mB : ℕ) (intersection : List Mpz) : SendOutcome (List Mpz) :=
  let revealBound := min mA mB
  if revealBound < intersection.length then
    ⟨[], .error "psi2_receiver: intersection larger than public reveal bound"⟩
  else
    ⟨(List.range revealBound).foldl (fun fd i =>
      fd ++ [if i < intersection.length then intersection.getD i 0 else 0]) [], .ok ()⟩

def revealStep (ownValues : List String) (st : List String × List Mpz) (value : Mpz) :
    List String × List Mpz :=
  let key := value.repr
  if key ∈ ownValues ∧ key ∉ st.1 then (key :: st.1, st.2 ++ [value]) else st

/-- The reveal loop of `cg_psi2_sender`, reading from the socket slot by slot. -/
def psi2RevealReceive (mA mB : ℕ) (setA queue : List Mpz) : Except String (List Mpz) := do
  let revealBound := min mA mB
  let ownValues := setA.map Int.repr
  let r ← (List.range revealBound).foldlM (fun st _ =>
    match st.1 with
    | [] => throw "read: end of stream"
    | value :: queue => return (queue, revealStep ownValues st.2 value)) (queue, [], [])
  return r.2.2

def psi2DirectReveal (mA mB : ℕ) (intersection setA : List Mpz) : Except String (List Mpz) := do
  let r := psi2RevealSend mA mB intersection
  r.result
  psi2RevealReceive mA mB setA r.sent

section

variable {GK GD : Type} [CommGroup GK] [CommGroup GD]

def revealInput (env : Env) (q : Mpz) (values : List Mpz) : Except String (List Mpz) := do
  let intersection ← values.foldlM (fun (intersection : List Mpz) x => do
    if x < 0 ∨ q ≤ x then throw "psi2_reveal_receiver: input value outside plaintext field"
    cgValidateCount env (intersection.length + 1) false
    return intersection ++ [x]) []
  if intersection ≠ [] then validatePsiSet env intersection q "psi2_reveal_receiver"
  return intersection

def revealSlots (env : Env) (cs : CLHSMqk GK GD) (values : List Mpz) (pk : PublicKey GK GD)
    (coins : ℕ → Mpz) : Except String (Lanes (CipherText GK GD) × List (CipherText GK GD)) := do
  let revealBound ← requiredEnvSize env "CG_PSI2_REVEAL_BOUND"
  let intersection ← revealInput env cs.cleartextBound values
  let lanes ← rfTransportLanes env
  let fds ← openLanes (CipherText GK GD) env lanes revealBound
  let pkDouble ← cs.publicKey pk.elt
  if revealBound < intersection.length then
    throw "psi2_reveal_receiver: intersection larger than CG_PSI2_REVEAL_BOUND"
  let encValues ← parallelFor 0 revealBound (List.replicate revealBound default) fun i =>
    encryptPlain cs pkDouble (if i < intersection.length then intersection.getD i 0 else 0) (coins i)
  return (fds, encValues)

def revealReceiver (env : Env) (cs : CLHSMqk GK GD) (values : List Mpz) (pk : PublicKey GK GD)
    (coins : ℕ → Mpz) : SendOutcome (Lanes (CipherText GK GD)) :=
  match revealSlots env cs values pk coins with
  | .error e => ⟨[], .error e⟩
  | .ok (fds, encValues) =>
    match sendCtLanes env fds encValues encValues.length with
    | .error e => ⟨[], .error e⟩
    | .ok fds => ⟨fds, .ok ()⟩

structure RevealFirewallCoins where
  maul : Mpz
  slot : ℕ → Mpz

def revealFirewallKey (cs : CLHSMqk GK GD) (coins : RevealFirewallCoins) (pk : PublicKey GK GD) :
    Except String (PublicKey GK GD × PublicKey GK GD) := do
  let pk ← cs.publicKey pk.elt
  let pkPrime ← maulPk cs pk coins.maul
  return (pk, pkPrime)

def revealFirewallForward (env : Env) (cs : CLHSMqk GK GD) (coins : RevealFirewallCoins)
    (pk : PublicKey GK GD) (inFds : Lanes (CipherText GK GD)) :
    Except String (Lanes (CipherText GK GD)) := do
  let count ← requiredEnvSize env "CG_PSI2_REVEAL_BOUND"
  let lanes ← rfTransportLanes env
  let chunk ← rfChunkSize env
  let outFds ← openLanes (CipherText GK GD) env lanes count
  let r ← (chunks count chunk).foldlM (fun st be => do
    let (inFds, outFds, inBuf, outBuf) := st
    let (inFds, inBuf) ← recvCtLanesRange env inFds inBuf count be.1 be.2
    let outBuf ← parallelFor be.1 be.2 outBuf fun i => do
      let pre ← makeEncZeroPair cs pk (coins.slot i)
      maulInvRerand cs (inBuf.getD i default) coins.maul pre
    let outFds ← sendCtLanesRange env outFds outBuf count be.1 be.2
    return (inFds, outFds, inBuf, outBuf))
    (inFds, outFds, List.replicate count default, List.replicate count default)
  return r.2.1

def revealSender (env : Env) (cs : CLHSMqk GK GD) (sk : cs.SecretKey) (setA : List Mpz)
    (fds : Lanes (CipherText GK GD)) : Except String (List Mpz) := do
  let revealBound ← requiredEnvSize env "CG_PSI2_REVEAL_BOUND"
  let ownValues := setA.map Int.repr
  let (_, encValues) ← recvCtLanes env fds (List.replicate revealBound default) revealBound
  let values ← parallelFor 0 revealBound (List.replicate revealBound (0 : Mpz)) fun i =>
    cs.decrypt sk (encValues.getD i default)
  return ((List.range revealBound).foldl (fun st i =>
    revealStep ownValues st (values.getD i 0)) ([], [])).2

/-- Every random choice of a reveal-back run. -/
structure RevealCoins {GK GD : Type} [CommGroup GK] [CommGroup GD] (cs : CLHSMqk GK GD) where
  sk : cs.SecretKey
  enc : ℕ → Mpz
  senderFirewall : RevealFirewallCoins
  receiverFirewall : RevealFirewallCoins

/-- The key goes from party A through both firewalls to party B, the slots come back. -/
def psi2RfReveal (envs : RfEnvs) (cs : CLHSMqk GK GD) (coins : RevealCoins cs)
    (intersection setA : List Mpz) : Except String (List Mpz) := do
  let pk ← cs.keygenPk coins.sk
  let srf ← revealFirewallKey cs coins.senderFirewall pk
  let rrf ← revealFirewallKey cs coins.receiverFirewall srf.2
  let r := revealReceiver envs.receiver cs intersection rrf.2 coins.enc
  r.result
  let fds ← revealFirewallForward envs.receiverFirewall cs coins.receiverFirewall rrf.1 r.sent
  let fds ← revealFirewallForward envs.senderFirewall cs coins.senderFirewall srf.1 fds
  revealSender envs.sender cs coins.sk setA fds

end

def slots (intersection : List Mpz) (revealBound : ℕ) : List Mpz :=
  intersection ++ List.replicate (revealBound - intersection.length) 0

/-- What party A keeps of the slots. -/
def revealed (intersection setA : List Mpz) (revealBound : ℕ) : List Mpz :=
  intersection.filter (· ∈ setA) ++
    if intersection.length < revealBound ∧ 0 ∈ setA ∧ (0 : Mpz) ∉ intersection then [0] else []

theorem length_slots {intersection : List Mpz} {R : ℕ} (h : intersection.length ≤ R) :
    (slots intersection R).length = R := by
  simp only [slots, List.length_append, List.length_replicate]
  omega

theorem slots_getD (intersection : List Mpz) {R i : ℕ} (hi : i < R) :
    (slots intersection R).getD i 0 =
      if i < intersection.length then intersection.getD i 0 else 0 := by
  by_cases h : i < intersection.length
  · rw [if_pos h, slots, List.getD_append _ _ _ _ h]
  · rw [if_neg h, slots, List.getD_append_right _ _ _ _ (not_lt.mp h), List.getD_replicate]
    omega

section

variable {setA : List Mpz}

def SeenKeys (st : List String × List Mpz) : Prop := ∀ v : Mpz, v.repr ∈ st.1 ↔ v ∈ st.2

theorem repr_mem_map (v : Mpz) : v.repr ∈ setA.map Int.repr ↔ v ∈ setA :=
  List.mem_map_of_injective fun _ _ h => Int.repr_injective h

theorem revealStep_snd {st : List String × List Mpz} (hst : SeenKeys st) (v : Mpz) :
    (revealStep (setA.map Int.repr) st v).2 =
      if v ∈ setA ∧ v ∉ st.2 then st.2 ++ [v] else st.2 := by
  by_cases h : v ∈ setA ∧ v ∉ st.2
  · rw [if_pos h, revealStep, if_pos ⟨(repr_mem_map v).mpr h.1, fun hs => h.2 ((hst v).mp hs)⟩]
  · rw [if_neg h, revealStep, if_neg]
    rintro ⟨hown, hseen⟩
    exact h ⟨(repr_mem_map v).mp hown, fun hs => hseen ((hst v).mpr hs)⟩

theorem SeenKeys.step {st : List String × List Mpz} (hst : SeenKeys st) (v : Mpz) :
    SeenKeys (revealStep (setA.map Int.repr) st v) := by
  unfold revealStep
  dsimp only
  split
  · intro w
    rw [List.mem_cons, List.mem_append, List.mem_singleton, hst w, or_comm]
    constructor
    · rintro (h | h)
      · exact .inl h
      · exact .inr (Int.repr_injective h)
    · rintro (h | rfl)
      · exact .inl h
      · exact .inr rfl
  · exact hst

theorem foldl_revealStep_nodup {l : List Mpz} (hl : l.Nodup) {st : List String × List Mpz}
    (hst : SeenKeys st) (hnew : ∀ v ∈ l, v ∉ st.2) :
    SeenKeys (l.foldl (revealStep (setA.map Int.repr)) st) ∧
      (l.foldl (revealStep (setA.map Int.repr)) st).2 = st.2 ++ l.filter (· ∈ setA) := by
  induction l generalizing st with
  | nil => exact ⟨hst, (List.append_nil _).symm⟩
  | cons v l ih =>
    obtain ⟨hv, hl⟩ := List.nodup_cons.mp hl
    have hsnd : (revealStep (setA.map Int.repr) st v).2 =
        if v ∈ setA ∧ v ∉ st.2 then st.2 ++ [v] else st.2 := revealStep_snd hst v
    have hnewv : v ∉ st.2 := hnew v List.mem_cons_self
    by_cases hmem : v ∈ setA
    · rw [if_pos ⟨hmem, hnewv⟩] at hsnd
      obtain ⟨hseen, hout⟩ := ih hl (hst.step v) fun w hw => by
        rw [hsnd, List.mem_append, List.mem_singleton]
        rintro (h | rfl)
        · exact hnew w (List.mem_cons_of_mem _ hw) h
        · exact hv hw
      refine ⟨hseen, hout.trans ?_⟩
      rw [hsnd, List.filter_cons_of_pos (by simpa using hmem), List.append_assoc]
      rfl
    · rw [if_neg fun h => hmem h.1] at hsnd
      obtain ⟨hseen, hout⟩ := ih hl (hst.step v) fun w hw => by
        rw [hsnd]
        exact hnew w (List.mem_cons_of_mem _ hw)
      refine ⟨hseen, hout.trans ?_⟩
      rw [hsnd, List.filter_cons_of_neg (by simpa using hmem)]

theorem foldl_revealStep_replicate (k : ℕ) (v : Mpz) {st : List String × List Mpz}
    (hst : SeenKeys st) :
    ((List.replicate k v).foldl (revealStep (setA.map Int.repr)) st).2 =
      st.2 ++ if 0 < k ∧ v ∈ setA ∧ v ∉ st.2 then [v] else [] := by
  induction k generalizing st with
  | zero => simp
  | succ k ih =>
    rw [List.replicate_succ, List.foldl_cons, ih (hst.step v), revealStep_snd hst]
    by_cases h : v ∈ setA ∧ v ∉ st.2
    · simp [h]
    · rw [if_neg h, if_neg fun hk => h hk.2, if_neg fun hk => h hk.2]

theorem foldl_slots {intersection : List Mpz} (hnodup : intersection.Nodup) (R : ℕ) :
    ((slots intersection R).foldl (revealStep (setA.map Int.repr)) ([], [])).2 =
      revealed intersection setA R := by
  have hempty : SeenKeys ([], []) := fun v => by simp
  obtain ⟨hseen, hout⟩ : SeenKeys (intersection.foldl (revealStep (setA.map Int.repr)) ([], [])) ∧
      (intersection.foldl (revealStep (setA.map Int.repr)) ([], [])).2 =
        [] ++ intersection.filter (· ∈ setA) :=
    foldl_revealStep_nodup hnodup hempty fun v _ => List.not_mem_nil
  rw [slots, List.foldl_append, foldl_revealStep_replicate _ _ hseen, hout, revealed,
    List.nil_append]
  congr 1
  apply if_congr _ rfl rfl
  rw [Nat.sub_pos_iff_lt]
  constructor
  · rintro ⟨hlt, hmem, hnot⟩
    exact ⟨hlt, hmem, fun h => hnot (List.mem_filter.mpr ⟨h, by simpa using hmem⟩)⟩
  · rintro ⟨hlt, hmem, hnot⟩
    exact ⟨hlt, hmem, fun h => hnot (List.mem_filter.mp h).1⟩

end

theorem mem_revealed {intersection setA : List Mpz} {R : ℕ} (v : Mpz) :
    v ∈ revealed intersection setA R ↔
      v ∈ intersection ∧ v ∈ setA ∨ v = 0 ∧ 0 ∈ setA ∧ intersection.length < R := by
  rw [revealed, List.mem_append, List.mem_filter, decide_eq_true_iff]
  constructor
  · rintro (h | h)
    · exact .inl h
    · split at h
      · next hc => exact .inr ⟨List.mem_singleton.mp h, hc.2.1, hc.1⟩
      · cases h
  · rintro (h | ⟨rfl, hmem, hlt⟩)
    · exact .inl h
    · by_cases h0 : (0 : Mpz) ∈ intersection
      · exact .inl ⟨h0, hmem⟩
      · exact .inr (by rw [if_pos ⟨hlt, hmem, h0⟩]; exact List.mem_cons_self)

theorem nodup_revealed {intersection setA : List Mpz} (h : intersection.Nodup) (R : ℕ) :
    (revealed intersection setA R).Nodup := by
  rw [revealed, List.nodup_append]
  refine ⟨h.filter _, ?_, ?_⟩
  · split
    · exact List.nodup_singleton 0
    · exact List.nodup_nil
  · intro a ha b hb hab
    subst hab
    split at hb
    · next hc => exact hc.2.2 (List.mem_singleton.mp hb ▸ (List.mem_filter.mp ha).1)
    · cases hb

theorem filter_revealed (intersection setA : List Mpz) (R : ℕ) :
    (revealed intersection setA R).filter (· ∈ intersection) =
      intersection.filter (· ∈ setA) := by
  rw [revealed, List.filter_append, List.filter_filter]
  have htail : (if intersection.length < R ∧ 0 ∈ setA ∧ (0 : Mpz) ∉ intersection then [0]
      else ([] : List Mpz)).filter (· ∈ intersection) = [] := by
    rw [List.filter_eq_nil_iff]
    intro v hv
    split at hv
    · next hc => simpa [List.mem_singleton.mp hv] using hc.2.2
    · cases hv
  rw [htail, List.append_nil]
  apply List.filter_congr
  intro v hv
  simp [hv]

theorem psi2RevealSend_eq {mA mB : ℕ} {intersection : List Mpz}
    (h : intersection.length ≤ min mA mB) :
    psi2RevealSend mA mB intersection = ⟨slots intersection (min mA mB), .ok ()⟩ := by
  have hfold : ∀ k ≤ min mA mB, (List.range k).foldl (fun fd i =>
      fd ++ [if i < intersection.length then intersection.getD i 0 else 0]) [] =
      (slots intersection (min mA mB)).take k := by
    intro k hk
    induction k with
    | zero => rfl
    | succ k ih =>
      have hlen : k < (slots intersection (min mA mB)).length := by
        rw [length_slots h]
        exact hk
      rw [List.range_succ, List.foldl_append, ih (by omega), List.foldl_cons, List.foldl_nil,
        List.take_succ_eq_append_getElem hlen, ← slots_getD intersection hk,
        List.getD_eq_getElem _ _ hlen]
  rw [psi2RevealSend, if_neg (not_lt.mpr h), hfold _ le_rfl]
  have hlen := length_slots h
  rw [List.take_of_length_le hlen.le]

theorem psi2RevealReceive_eq {mA mB : ℕ} {setA queue : List Mpz} (h : queue.length = min mA mB) :
    psi2RevealReceive mA mB setA queue =
      .ok (queue.foldl (revealStep (setA.map Int.repr)) ([], [])).2 := by
  have hloop := foldlM_range_eq (ε := String) (n := min mA mB)
    (g := fun k => (queue.drop k, (queue.take k).foldl (revealStep (setA.map Int.repr)) ([], [])))
    (f := fun st _ =>
      match st.1 with
      | [] => throw "read: end of stream"
      | value :: queue => return (queue, revealStep (setA.map Int.repr) st.2 value)) fun k hk => ?_
  · rw [List.drop_zero, List.take_zero, List.foldl_nil] at hloop
    rw [psi2RevealReceive, hloop, ok_bind, List.take_of_length_le h.le]
    rfl
  · have hk' : k < queue.length := h.symm ▸ hk
    rw [List.drop_eq_getElem_cons hk', List.take_succ_eq_append_getElem hk', List.foldl_append]
    rfl

theorem psi2DirectReveal_eq {mA mB : ℕ} {intersection : List Mpz} (hnodup : intersection.Nodup)
    (h : intersection.length ≤ min mA mB) (setA : List Mpz) :
    psi2DirectReveal mA mB intersection setA = .ok (revealed intersection setA (min mA mB)) := by
  rw [psi2DirectReveal, psi2RevealSend_eq h, ok_bind, psi2RevealReceive_eq (length_slots h), foldl_slots hnodup]

section

variable {GK GD : Type} [CommGroup GK] [CommGroup GD] {env : Env} {cs : CLHSMqk GK GD}
  {R lanes chunk : ℕ}

theorem revealInput_loop {q : Mpz} (values : List Mpz) (pre : List Mpz) (hred : Reduced q values)
    (hcount : ∀ k ≤ pre.length + values.length, 0 < k → cgValidateCount env k false = .ok ()) :
    values.foldlM (fun (intersection : List Mpz) x => do
      if x < 0 ∨ q ≤ x then throw "psi2_reveal_receiver: input value outside plaintext field"
      cgValidateCount env (intersection.length + 1) false
      return intersection ++ [x]) pre = .ok (pre ++ values) := by
  induction values generalizing pre with
  | nil =>
    rw [List.append_nil]
    rfl
  | cons x values ih =>
    have hx := hred x List.mem_cons_self
    have htail := ih (pre ++ [x]) (fun y hy => hred y (List.mem_cons_of_mem _ hy)) fun k hk =>
      hcount k (by simp only [List.length_append, List.length_cons, List.length_nil] at hk ⊢; omega)
    rw [List.foldlM_cons, if_neg (not_or.mpr ⟨not_lt.mpr hx.1, not_le.mpr hx.2⟩),
      hcount (pre.length + 1) (by simp only [List.length_cons]; omega) (Nat.succ_pos _)]
    simp only [pure_eq_ok, ok_bind]
    simp only [List.append_assoc, List.singleton_append] at htail
    exact htail

theorem revealInput_length {q : Mpz} {values r : List Mpz} (h : revealInput env q values = .ok r) :
    r.length = values.length := by
  have hloop : ∀ (values pre r : List Mpz), values.foldlM (fun (intersection : List Mpz) x => do
      if x < 0 ∨ q ≤ x then throw "psi2_reveal_receiver: input value outside plaintext field"
      cgValidateCount env (intersection.length + 1) false
      return intersection ++ [x]) pre = .ok r → r.length = pre.length + values.length := by
    intro values
    induction values with
    | nil =>
      intro pre r h
      cases h
      rfl
    | cons x values ih =>
      intro pre r h
      rw [List.foldlM_cons] at h
      obtain ⟨pre', hpre, h⟩ := bind_eq_ok.mp h
      rw [ih pre' r h]
      dsimp only at hpre
      split at hpre
      · cases hpre
      · obtain ⟨_, _, hpre⟩ := bind_eq_ok.mp hpre
        cases hpre
        simp only [List.length_append, List.length_cons, List.length_nil]
        omega
  obtain ⟨intersection, hi, h⟩ := bind_eq_ok.mp h
  have hlen := hloop values [] intersection hi
  dsimp only at h
  split at h
  · obtain ⟨_, _, h⟩ := bind_eq_ok.mp h
    cases h
    simpa using hlen
  · cases h
    simpa using hlen

theorem revealInput_eq {q : Mpz} {values : List Mpz} (hred : Reduced q values)
    (hnodup : values.Nodup) (hcount : ∀ k ≤ values.length, 0 < k →
      cgValidateCount env k false = .ok ()) : revealInput env q values = .ok values := by
  have hloop := revealInput_loop values [] hred (by simpa using hcount)
  rw [List.nil_append] at hloop
  rw [revealInput, hloop, ok_bind]
  by_cases hne : values = []
  · rw [if_neg (not_not.mpr hne)]
    rfl
  · have hpos := List.length_pos_iff.mpr hne
    rw [if_pos hne, validatePsiSet_ok.mpr ⟨hcount _ le_rfl hpos, hred, hnodup⟩]
    rfl

/-- The processes of a reveal-back run share the lane settings and the public bound. -/
structure RevealTransport (envs : RfEnvs) (R lanes chunk : ℕ) : Prop where
  receiver : Transport envs.receiver R lanes chunk
  receiverFirewall : Transport envs.receiverFirewall R lanes chunk
  senderFirewall : Transport envs.senderFirewall R lanes chunk
  sender : Transport envs.sender R lanes chunk
  receiver_bound : requiredEnvSize envs.receiver "CG_PSI2_REVEAL_BOUND" = .ok R
  receiverFirewall_bound : requiredEnvSize envs.receiverFirewall "CG_PSI2_REVEAL_BOUND" = .ok R
  senderFirewall_bound : requiredEnvSize envs.senderFirewall "CG_PSI2_REVEAL_BOUND" = .ok R
  sender_bound : requiredEnvSize envs.sender "CG_PSI2_REVEAL_BOUND" = .ok R

theorem revealReceiver_error {intersection : List Mpz} (pk : PublicKey GK GD) (coins : ℕ → Mpz)
    (hR : requiredEnvSize env "CG_PSI2_REVEAL_BOUND" = .ok R) (hlt : R < intersection.length) :
    ∃ e, revealReceiver env cs intersection pk coins = ⟨[], .error e⟩ := by
  cases hslots : revealSlots env cs intersection pk coins with
  | error e => exact ⟨e, by rw [revealReceiver, hslots]⟩
  | ok r =>
    rw [revealSlots, hR, ok_bind] at hslots
    obtain ⟨input, hinput, h⟩ := bind_eq_ok.mp hslots
    obtain ⟨lanes, _, h⟩ := bind_eq_ok.mp h
    obtain ⟨fds, _, h⟩ := bind_eq_ok.mp h
    obtain ⟨key, _, h⟩ := bind_eq_ok.mp h
    rw [if_pos (by rwa [revealInput_length hinput])] at h
    cases h

variable (hc : cs.compactVariant = false)
include hc

theorem revealReceiver_eq (ht : Transport env R lanes chunk)
    (hR : requiredEnvSize env "CG_PSI2_REVEAL_BOUND" = .ok R) {intersection : List Mpz}
    (hred : Reduced cs.q intersection) (hnodup : intersection.Nodup)
    (hle : intersection.length ≤ R) (K : GD) (coins : ℕ → Mpz) :
    revealReceiver env cs intersection ⟨.delta K⟩ coins =
      ⟨inFlight (fun i => cs.cipher K ((slots intersection R).getD i 0) (coins i)) R lanes 0 R,
        .ok ()⟩ := by
  set c := fun i => cs.cipher K ((slots intersection R).getD i 0) (coins i) with hcdef
  obtain ⟨_, limit, hlimit, hn⟩ := cgValidateCount_ok.mp ht.count
  have hinput : revealInput env cs.cleartextBound intersection = .ok intersection :=
    revealInput_eq hred hnodup fun k hk hpos =>
      cgValidateCount_ok.mpr ⟨hpos, limit, hlimit, by omega⟩
  have hq : (0 : ℤ) < cs.q := by exact_mod_cast cs.prime_q.pos
  have henc : ∀ i, 0 ≤ i → i < R → encryptPlain cs ⟨.delta K⟩
      (if i < intersection.length then intersection.getD i 0 else 0) (coins i) = .ok (c i) := by
    intro i _ hi
    rw [← slots_getD intersection hi]
    apply encryptPlain_eq hc
    rw [slots_getD intersection hi]
    split
    · next h =>
      rw [List.getD_eq_getElem _ _ h]
      exact hred _ (List.getElem_mem h)
    · exact ⟨le_rfl, hq⟩
  have hsend := sendCtLanes_append (c := c) ht (filled c (List.replicate R default) 0 R) (fun _ => [])
    (by simp [length_filled]) fun i hi => filled_getD_of_lt c hi (by simp)
  have hslots : revealSlots env cs intersection ⟨.delta K⟩ coins =
      .ok (lanesOf lanes fun _ => [], filled c (List.replicate R default) 0 R) := by
    rw [revealSlots, hR, ok_bind, hinput, ok_bind, ht.lanes_eq, ok_bind, openLanes_nil ht, ok_bind,
      CLHSMqk.publicKey_eq hc, ok_bind, if_neg (not_lt.mpr hle),
      parallelFor_eq _ (Nat.zero_le R) henc]
    rfl
  rw [revealReceiver, hslots]
  dsimp only
  rw [length_filled, List.length_replicate, hsend]
  rfl

theorem revealFirewallKey_eq (coins : RevealFirewallCoins) (K : GD) :
    revealFirewallKey cs coins ⟨.delta K⟩ =
      .ok (⟨.delta K⟩, ⟨.delta (K * cs.base ^ coins.maul)⟩) := by
  rw [revealFirewallKey, CLHSMqk.publicKey_eq hc, ok_bind, maulPk_eq hc]
  rfl

theorem revealFirewallForward_eq (ht : Transport env R lanes chunk)
    (hR : requiredEnvSize env "CG_PSI2_REVEAL_BOUND" = .ok R) (coins : RevealFirewallCoins) (K : GD)
    (m r : ℕ → ℤ) :
    revealFirewallForward env cs coins ⟨.delta K⟩
      (inFlight (fun i => cs.cipher (K * cs.base ^ coins.maul) (m i) (r i)) R lanes 0 R) =
      .ok (inFlight (fun i => cs.cipher K (m i) (r i + coins.slot i)) R lanes 0 R) := by
  set c := fun i => cs.cipher (K * cs.base ^ coins.maul) (m i) (r i) with hcdef
  set c' := fun i => cs.cipher K (m i) (r i + coins.slot i) with hc'def
  have hloop := foldlM_chunks_eq (ε := String) (n := R) ht.chunk_pos
    (g := fun k => (inFlight c R lanes k R, inFlight c' R lanes 0 k,
      filled c (List.replicate R default) 0 k, filled c' (List.replicate R default) 0 k))
    (f := fun st be => do
      let (inFds, outFds, inBuf, outBuf) := st
      let (inFds, inBuf) ← recvCtLanesRange env inFds inBuf R be.1 be.2
      let outBuf ← parallelFor be.1 be.2 outBuf fun i => do
        let pre ← makeEncZeroPair cs ⟨.delta K⟩ (coins.slot i)
        maulInvRerand cs (inBuf.getD i default) coins.maul pre
      let outFds ← sendCtLanesRange env outFds outBuf R be.1 be.2
      return (inFds, outFds, inBuf, outBuf)) fun b e hbe hen => ?_
  · simp only [filled_self] at hloop
    rw [revealFirewallForward, hR, ok_bind, ht.lanes_eq, ok_bind, ht.chunk_eq, ok_bind,
      openLanes_eq c' R lanes ht, ok_bind, hloop]
    rfl
  have hlen : e ≤ (List.replicate R (default : CipherText GK GD)).length := by simpa using hen
  have hstep : ∀ i, b ≤ i → i < e → (do
      let pre ← makeEncZeroPair cs ⟨.delta K⟩ (coins.slot i)
      maulInvRerand cs ((filled c (List.replicate R default) 0 e).getD i default) coins.maul pre) =
        .ok (c' i) := by
    intro i _ hi
    rw [makeEncZeroPair_eq hc, ok_bind, filled_getD_of_lt c hi hlen, maulInvRerand_eq hc]
  dsimp only
  rw [recvCtLanesRange_eq ht hbe hen hen (by simp [length_filled]), ok_bind]
  simp only [filled_append c _ (Nat.zero_le b) hbe]
  rw [parallelFor_filled hbe hstep, ok_bind, sendCtLanesRange_eq ht (Nat.zero_le b) hbe hen
    (by simp [length_filled]) fun j _ hj => filled_getD_of_lt c' hj hlen]
  rfl

theorem revealSender_eq (ht : Transport env R lanes chunk)
    (hR : requiredEnvSize env "CG_PSI2_REVEAL_BOUND" = .ok R) (sk : cs.SecretKey)
    (setA : List Mpz) (m : List Mpz) (hm : Reduced cs.q m) (hlen : m.length = R) (r : ℕ → ℤ) :
    revealSender env cs sk setA
      (inFlight (fun i => cs.cipher (cs.base ^ sk.1) (m.getD i 0) (r i)) R lanes 0 R) =
      .ok (m.foldl (revealStep (setA.map Int.repr)) ([], [])).2 := by
  set c := fun i => cs.cipher (cs.base ^ sk.1) (m.getD i 0) (r i) with hcdef
  have hrecv := recvCtLanes_append (c := c) ht (List.replicate R default) (fun _ => []) (by simp)
  have hdec := parallelFor_eq (List.replicate R (0 : Mpz)) (Nat.zero_le R)
    (c := fun i => m.getD i 0) (f := fun i =>
      cs.decrypt sk ((filled c (List.replicate R default) 0 R).getD i default)) fun i _ hi => by
      have hi' : i < m.length := hlen.symm ▸ hi
      have hred := hm _ (List.getElem_mem hi')
      rw [filled_getD_of_lt c hi (by simp), CLHSMqk.decrypt_eq hc, List.getD_eq_getElem _ _ hi',
        Int.emod_eq_of_lt hred.1 hred.2]
  have hmap : (List.range R).map (fun i => m.getD i 0) = m :=
    List.ext_getElem (by simp [hlen]) fun i h h' => by
      rw [List.getElem_map, List.getElem_range, List.getD_eq_getElem _ _ h']
  rw [filled_all (fun i => m.getD i 0) 0, hmap] at hdec
  simp only [List.append_nil] at hrecv
  rw [revealSender, hR, ok_bind, inFlight, hrecv, ok_bind]
  dsimp only
  rw [hdec, ok_bind]
  have hfold : (List.range R).foldl (fun st i => revealStep (setA.map Int.repr) st (m.getD i 0))
      ([], []) = m.foldl (revealStep (setA.map Int.repr)) ([], []) :=
    List.foldl_map.symm.trans (congrArg (List.foldl _ _) hmap)
  rw [hfold]
  rfl

theorem psi2RfReveal_eq {envs : RfEnvs} (ht : RevealTransport envs R lanes chunk)
    (coins : RevealCoins cs) {intersection : List Mpz} (hred : Reduced cs.q intersection)
    (hnodup : intersection.Nodup) (hle : intersection.length ≤ R) (setA : List Mpz) :
    psi2RfReveal envs cs coins intersection setA = .ok (revealed intersection setA R) := by
  have hslots : Reduced cs.q (slots intersection R) := by
    intro v hv
    rcases List.mem_append.mp hv with h | h
    · exact hred v h
    · rw [(List.mem_replicate.mp h).2]
      exact ⟨le_rfl, by exact_mod_cast cs.prime_q.pos⟩
  rw [psi2RfReveal, CLHSMqk.keygenPk_eq hc, ok_bind, revealFirewallKey_eq hc, ok_bind,
    revealFirewallKey_eq hc, ok_bind, revealReceiver_eq hc ht.receiver ht.receiver_bound hred hnodup
    hle]
  dsimp only
  rw [ok_bind, revealFirewallForward_eq hc ht.receiverFirewall ht.receiverFirewall_bound, ok_bind,
    revealFirewallForward_eq hc ht.senderFirewall ht.senderFirewall_bound, ok_bind,
    revealSender_eq hc ht.sender ht.sender_bound _ _ _ hslots (length_slots hle),
    foldl_slots hnodup]

/-- Party A obtains the intersection with its set, and zero if zero is in its set
and a slot is left over, in either version. -/
theorem psi2Reveal_correct {envs : RfEnvs} (ht : RevealTransport envs R lanes chunk)
    (coins : RevealCoins cs) {intersection setA : List Mpz} (hred : Reduced cs.q intersection)
    (hnodup : intersection.Nodup) :
    (intersection.length ≤ R → ∃ out,
      (∀ mA mB, min mA mB = R → psi2DirectReveal mA mB intersection setA = .ok out) ∧
      psi2RfReveal envs cs coins intersection setA = .ok out ∧ out.Nodup ∧
      (∀ v, v ∈ out ↔ v ∈ intersection ∧ v ∈ setA ∨
        v = 0 ∧ 0 ∈ setA ∧ intersection.length < R) ∧
      out.filter (· ∈ intersection) = intersection.filter (· ∈ setA)) ∧
    (R < intersection.length →
      (∀ mA mB, min mA mB = R → ∃ e, psi2RevealSend mA mB intersection = ⟨[], .error e⟩) ∧
      ∀ pk, ∃ e, revealReceiver envs.receiver cs intersection pk coins.enc = ⟨[], .error e⟩) := by
  constructor
  · intro hle
    refine ⟨revealed intersection setA R, ?_, psi2RfReveal_eq hc ht coins hred hnodup hle setA,
      nodup_revealed hnodup R, mem_revealed, filter_revealed intersection setA R⟩
    rintro mA mB rfl
    exact psi2DirectReveal_eq hnodup hle setA
  · intro hlt
    refine ⟨?_, fun pk => revealReceiver_error pk coins.enc ht.receiver_bound hlt⟩
    rintro mA mB rfl
    exact ⟨_, if_pos hlt⟩

end

def smallRevealEnv : Env := fun name =>
  if name = "CG_RF_LANES" then some "2"
  else if name = "CG_RF_CHUNK_SIZE" then some "2"
  else if name = "CG_PSI2_REVEAL_BOUND" then some "3"
  else none

theorem smallRevealEnv_transport :
    RevealTransport ⟨smallRevealEnv, smallRevealEnv, smallRevealEnv, smallRevealEnv⟩ 3 2 2 := by
  have ht : Transport smallRevealEnv 3 2 2 := ⟨by decide, by decide, by decide⟩
  have hR : requiredEnvSize smallRevealEnv "CG_PSI2_REVEAL_BOUND" = .ok 3 := by decide
  exact ⟨ht, ht, ht, ht, hR, hR, hR, hR⟩

/-- Zero is in the set of party A only, and party A sees it all the same. -/
theorem psi2Reveal_correct_padding :
    ∃ out, psi2DirectReveal 3 4 [2] [0, 2, 4] = .ok out ∧
      psi2RfReveal ⟨smallRevealEnv, smallRevealEnv, smallRevealEnv, smallRevealEnv⟩ smallScheme
        ⟨⟨7, by decide⟩, fun i => 3 * i + 1, ⟨11, fun i => i⟩, ⟨4, fun i => 2 * i + 3⟩⟩ [2]
        [0, 2, 4] = .ok out ∧ 0 ∈ out := by
  have hred : Reduced smallScheme.q [2] := by decide
  obtain ⟨out, hdirect, hrf, _, hmem, _⟩ := (psi2Reveal_correct rfl smallRevealEnv_transport
    ⟨⟨7, by decide⟩, fun i => 3 * i + 1, ⟨11, fun i => i⟩, ⟨4, fun i => 2 * i + 3⟩⟩ hred
    (List.nodup_singleton 2) : _ ∧ _).1 (by decide)
  exact ⟨out, hdirect 3 4 rfl, hrf, (hmem 0).mpr (.inr ⟨rfl, by decide, by decide⟩)⟩

end RfClassGroups
