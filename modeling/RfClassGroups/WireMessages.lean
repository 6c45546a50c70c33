import RfClassGroups.WireFormat

/-! Sequences of messages over one stream: counts, integers, forms, public keys
and ciphertexts. -/

open ExceptList ByteStream BigEndian

namespace RfClassGroups

inductive Message (disc : Mpz)
  | u32 (v : UInt32)
  | u64 (v : UInt64)
  | mpz (m : Mpz)
  | qfi (f : ReducedForm)
  | pk (key : FormKey disc)
  | ct (c1 c2 : ReducedForm)

inductive MessageKind
  | u32
  | u64
  | mpz
  | qfi
  | pk
  | ct
  deriving DecidableEq

variable {disc : Mpz}

def Message.kind : Message disc → MessageKind
  | .u32 _ => .u32
  | .u64 _ => .u64
  | .mpz _ => .mpz
  | .qfi _ => .qfi
  | .pk _ => .pk
  | .ct _ _ => .ct

def sendMessage (env : Env) : Message disc → Program Unit
  | .u32 v => sendU32 v
  | .u64 v => sendU64 v
  | .mpz m => sendMpz env m
  | .qfi f => sendQfi env f
  | .pk key => sendPk env key
  | .ct c1 c2 => sendCt env c1 c2

def recvMessage (env : Env) (disc : Mpz) : MessageKind → Program (Message disc)
  | .u32 => do
    let v ← recvU32
    return .u32 v
  | .u64 => do
    let v ← recvU64
    return .u64 v
  | .mpz => do
    let m ← recvMpz env
    return .mpz m
  | .qfi => do
    let f ← recvQfi env
    return .qfi f
  | .pk => do
    let key ← recvPk env disc
    return .pk key
  | .ct => do
    let c ← recvCt env
    return .ct c.1 c.2

def sendMessages (env : Env) : List (Message disc) → Program Unit
  | [] => pure ()
  | msg :: msgs => do
    sendMessage env msg
    sendMessages env msgs

def recvMessages (env : Env) (disc : Mpz) : List MessageKind → Program (List (Message disc))
  | [] => pure []
  | kind :: kinds => do
    let msg ← recvMessage env disc kind
    let msgs ← recvMessages env disc kinds
    return msg :: msgs

/-- Some run of the serializer on the message succeeds. -/
def Message.Accepted (env : Env) (msg : Message disc) : Prop :=
  ∃ s s', sendMessage env msg s = .ok ((), s')

def encodeQfi (f : ReducedForm) : List UInt8 :=
  encodeMpz f.a ++ (encodeMpz f.b ++ encodeMpz f.c)

def Message.encode : Message disc → List UInt8
  | .u32 v => encodeU32 v
  | .u64 v => encodeU64 v
  | .mpz m => encodeMpz m
  | .qfi f => encodeQfi f
  | .pk key => encodeQfi key.elt
  | .ct c1 c2 => encodeQfi c1 ++ encodeQfi c2

theorem mkForm_eq (f : ReducedForm) : mkForm f.a f.b f.c = .ok f := by
  rw [mkForm, dif_pos f.negative, dif_pos f.primitive, dif_pos f.positive, dif_neg f.normal,
    dif_neg f.reduced]
  rfl

theorem mkKey_eq (key : FormKey disc) : mkKey disc key.elt = .ok key := by
  rw [mkKey, dif_pos key.discriminant_elt]
  rfl

def QfiFits (limit : ℕ) (f : ReducedForm) : Prop :=
  MpzFits limit f.a ∧ MpzFits limit f.b ∧ MpzFits limit f.c

variable {envS envR : Env} {L : ℕ}

theorem sendMpz_ok (hS : maxMpzBytes envS = .ok L) {m : Mpz} {s s' : Socket}
    (h : sendMpz envS m s = .ok ((), s')) : MpzFits L m := by
  by_contra hfit
  rw [sendMpz_eq hS, if_neg hfit] at h
  cases h

theorem sendQfi_ok (hS : maxMpzBytes envS = .ok L) {f : ReducedForm} {s s' : Socket}
    (h : sendQfi envS f s = .ok ((), s')) : QfiFits L f := by
  obtain ⟨_, _, ha, h⟩ := ByteStream.bind_eq_ok h
  obtain ⟨_, _, hb, hc⟩ := ByteStream.bind_eq_ok h
  exact ⟨sendMpz_ok hS ha, sendMpz_ok hS hb, sendMpz_ok hS hc⟩

theorem emits_sendMpz (hS : maxMpzBytes envS = .ok L) {m : Mpz} (h : MpzFits L m) :
    Emits (sendMpz envS m) (encodeMpz m) := by
  rw [sendMpz_eq hS, if_pos h]
  exact emits_sendMpzFields m

theorem emits_sendQfi (hS : maxMpzBytes envS = .ok L) {f : ReducedForm} (h : QfiFits L f) :
    Emits (sendQfi envS f) (encodeQfi f) :=
  (emits_sendMpz hS h.1).bind ((emits_sendMpz hS h.2.1).bind (emits_sendMpz hS h.2.2))

theorem delivers_recvQfi (hR : maxMpzBytes envR = .ok L) {f : ReducedForm} (h : QfiFits L f) :
    Delivers (recvQfi envR) (encodeQfi f) f := by
  refine (delivers_recvMpz hR h.1.byteCount_le).bind
    ((delivers_recvMpz hR h.2.1.byteCount_le).bind
      ((delivers_recvMpz hR h.2.2.byteCount_le).bind_pure ?_))
  rw [mkForm_eq]
  rfl

theorem emits_sendMessage (hS : maxMpzBytes envS = .ok L) {msg : Message disc}
    (h : msg.Accepted envS) : Emits (sendMessage envS msg) msg.encode := by
  obtain ⟨s, s', h⟩ := h
  cases msg with
  | u32 v => exact emits_sendU32 v
  | u64 v => exact emits_sendU64 v
  | mpz m => exact emits_sendMpz hS (sendMpz_ok hS h)
  | qfi f => exact emits_sendQfi hS (sendQfi_ok hS h)
  | pk key => exact emits_sendQfi hS (sendQfi_ok hS h)
  | ct c1 c2 =>
    obtain ⟨_, _, h1, h2⟩ := ByteStream.bind_eq_ok h
    exact (emits_sendQfi hS (sendQfi_ok hS h1)).bind (emits_sendQfi hS (sendQfi_ok hS h2))

theorem delivers_recvMessage (hS : maxMpzBytes envS = .ok L) (hR : maxMpzBytes envR = .ok L)
    {msg : Message disc} (h : msg.Accepted envS) :
    Delivers (recvMessage envR disc msg.kind) msg.encode msg := by
  obtain ⟨s, s', h⟩ := h
  cases msg with
  | u32 v => exact (delivers_recvU32 v).bind_pure rfl
  | u64 v => exact (delivers_recvU64 v).bind_pure rfl
  | mpz m => exact (delivers_recvMpz hR (sendMpz_ok hS h).byteCount_le).bind_pure rfl
  | qfi f => exact (delivers_recvQfi hR (sendQfi_ok hS h)).bind_pure rfl
  | pk key =>
    have hkey : Delivers (recvPk envR disc) (encodeQfi key.elt) key :=
      (delivers_recvQfi hR (sendQfi_ok hS h)).bind_pure (by rw [mkKey_eq]; rfl)
    exact hkey.bind_pure rfl
  | ct c1 c2 =>
    obtain ⟨_, _, h1, h2⟩ := ByteStream.bind_eq_ok h
    have hct : Delivers (recvCt envR) (encodeQfi c1 ++ encodeQfi c2) (c1, c2) :=
      (delivers_recvQfi hR (sendQfi_ok hS h1)).bind
        ((delivers_recvQfi hR (sendQfi_ok hS h2)).bind_pure rfl)
    exact hct.bind_pure rfl

/-- Every sequence of accepted messages has one wire image: the senders write it
and the matching receivers return the messages and leave nothing, over every
fragmentation. -/
theorem wire_roundtrip (hS : maxMpzBytes envS = .ok L) (hR : maxMpzBytes envR = .ok L)
    (msgs : List (Message disc)) (hmsgs : ∀ msg ∈ msgs, msg.Accepted envS) :
    ∃ wire : List UInt8, Emits (sendMessages envS msgs) wire ∧
      Delivers (recvMessages envR disc (msgs.map Message.kind)) wire msgs ∧
      ∀ sent received : List Reply, wire.length ≤ moves sent → wire.length ≤ moves received →
        ∃ sent' received', sendMessages envS msgs ⟨[], sent⟩ = .ok ((), ⟨wire, sent'⟩) ∧
          recvMessages envR disc (msgs.map Message.kind) ⟨wire, received⟩ =
            .ok (msgs, ⟨[], received'⟩) := by
  have hcodec : ∃ wire : List UInt8, Emits (sendMessages envS msgs) wire ∧
      Delivers (recvMessages envR disc (msgs.map Message.kind)) wire msgs := by
    induction msgs with
    | nil => exact ⟨[], emits_pure, delivers_pure []⟩
    | cons msg msgs ih =>
      obtain ⟨wire, hemit, hdeliver⟩ := ih fun m hm => hmsgs m (List.mem_cons_of_mem _ hm)
      have hmsg := hmsgs msg List.mem_cons_self
      exact ⟨msg.encode ++ wire, (emits_sendMessage hS hmsg).bind hemit,
        (delivers_recvMessage hS hR hmsg).bind (hdeliver.bind_pure rfl)⟩
  obtain ⟨wire, hemit, hdeliver⟩ := hcodec
  refine ⟨wire, hemit, hdeliver, fun sent received hsent hreceived => ?_⟩
  obtain ⟨sent', h⟩ := hemit.finishes (s := ⟨[], sent⟩) hsent
  obtain ⟨received', h'⟩ := hdeliver.finishes [] hreceived
  rw [List.append_nil] at h'
  exact ⟨sent', received', h, h'⟩

def smallForm : ReducedForm := ⟨1, 1, 6, by decide, by decide, by decide, by decide, by decide⟩

def smallMessages : List (Message (-23)) := [.u64 5000000000, .mpz (-300), .pk ⟨smallForm, rfl⟩]

theorem wire_roundtrip_small : ∃ wire : List UInt8,
    Emits (sendMessages (fun _ => none) smallMessages) wire ∧
    Delivers (recvMessages (fun _ => none) (-23) [.u64, .mpz, .pk]) wire smallMessages := by
  have hunset : maxMpzBytes (fun _ => none) = .ok 16384 := rfl
  obtain ⟨wire, hemit, hdeliver, -⟩ := wire_roundtrip hunset hunset smallMessages (by
    intro msg hmsg
    simp only [smallMessages, List.mem_cons, List.not_mem_nil, or_false] at hmsg
    rcases hmsg with rfl | rfl | rfl <;>
      exact ⟨⟨[], List.replicate 40 (.moved 7)⟩, _, rfl⟩)
  exact ⟨wire, hemit, hdeliver⟩

end RfClassGroups
