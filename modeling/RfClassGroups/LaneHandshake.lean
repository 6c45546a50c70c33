import Mathlib.Data.List.Nodup
import Mathlib.Data.List.Perm.Basic
import Mathlib.Logic.Function.Basic
import RfClassGroups.LaneMetadata

/-! The establishment of the lanes: the loops of the accepting and of the connecting
end, interleaved with each other and with connections of strangers. -/

open ByteStream

namespace RfClassGroups.LaneHandshake

abbrev Conn := ℕ

inductive AcceptAt
  | accept (accepted : ℕ)
  | readLane (accepted : ℕ)
  | check (accepted lane : ℕ)
  | sendMeta (accepted lane : ℕ)
  | returned
  | thrown (msg : String)
  deriving DecidableEq

structure Acceptor where
  pc : AcceptAt
  fds : List (Option Conn)
  current : Option Conn
  opened : List Conn
  closed : List Conn
  read : Conn → ℕ
  sent : Conn → List UInt8

inductive ConnectAt
  | connect (lane : ℕ)
  | sendLane (lane : ℕ) (fd : Conn)
  | sendMeta (lane : ℕ) (fd : Conn)
  | check (lane : ℕ) (fd : Conn)
  | returned
  | thrown (msg : String)
  deriving DecidableEq

structure Connector where
  pc : ConnectAt
  fds : List Conn
  opened : List Conn
  closed : List Conn
  read : Conn → ℕ
  sent : Conn → List UInt8

def setTcpOpts (env : Env) (setsockopt : Bool) : Except String Unit := do
  let _ ← cgConfigSize env "CG_IO_TIMEOUT_S" 180 86400 false
  if setsockopt then pure () else throw "cannot set socket timeout"

def LegalTimeout (env : Env) : Prop :=
  ∃ timeout, cgConfigSize env "CG_IO_TIMEOUT_S" 180 86400 false = .ok timeout

theorem setTcpOpts_ok {env : Env} {setsockopt : Bool} :
    setTcpOpts env setsockopt = .ok () ↔ LegalTimeout env ∧ setsockopt = true := by
  rw [setTcpOpts, ExceptList.bind_eq_ok]
  constructor
  · rintro ⟨timeout, htimeout, h⟩
    cases setsockopt with
    | false => cases h
    | true => exact ⟨⟨timeout, htimeout⟩, rfl⟩
  · rintro ⟨⟨timeout, htimeout⟩, rfl⟩
    exact ⟨timeout, htimeout, rfl⟩

def closeTcp (fd : Option Conn) : List Conn := fd.toList

section acceptRfLanes

variable (sha256 : String → Digest)

def Acceptor.result (a : Acceptor) : Option (List (Option Conn)) :=
  if a.pc = .returned then some a.fds else none

def Acceptor.throw (a : Acceptor) (msg : String) : Acceptor :=
  { a with
    pc := .thrown msg
    closed := a.closed ++ (closeTcp a.current ++ a.fds.flatMap closeTcp) }

def Acceptor.loop (a : Acceptor) (e : LaneEnd) (accepted : ℕ) : Acceptor :=
  { a with pc := if accepted < e.lanes then .accept accepted else .returned }

def Acceptor.start (e : LaneEnd) : Acceptor :=
  match cgValidateCount e.env e.count false with
  | .ok () =>
    Acceptor.loop ⟨.returned, List.replicate e.lanes none, none, [], [], fun _ => 0, fun _ => []⟩ e 0
  | .error msg => ⟨.thrown msg, [], none, [], [], fun _ => 0, fun _ => []⟩

/-- The socket options of an accepted connection are set before its descriptor is
returned. -/
def Acceptor.acceptOne (a : Acceptor) (e : LaneEnd) (accepted : ℕ) (fd : Conn) (setsockopt : Bool) :
    Acceptor :=
  let a := { a with opened := a.opened ++ [fd] }
  match setTcpOpts e.env setsockopt with
  | .ok () => { a with pc := .readLane accepted, current := some fd }
  | .error msg => a.throw msg

def Acceptor.store (a : Acceptor) (e : LaneEnd) (accepted lane : ℕ) : Acceptor :=
  Acceptor.loop { a with fds := a.fds.set lane a.current, current := none } e (accepted + 1)

def Acceptor.checkLane (a : Acceptor) (e : LaneEnd) (accepted lane : ℕ) : Acceptor :=
  if e.lanes ≤ lane ∨ a.fds[lane]? ≠ some none then a.throw "invalid or duplicate RF lane id"
  else if validateLaneMetadata e.env then { a with pc := .check accepted lane }
  else a.store e accepted lane

def Acceptor.take (a : Acceptor) (fd : Conn) (n : ℕ) : Acceptor :=
  { a with read := Function.update a.read fd (a.read fd + n) }

def Acceptor.write (a : Acceptor) (fd : Conn) (stream : List UInt8) : Acceptor :=
  { a with sent := Function.update a.sent fd stream }

/-- The transfer that the loop stands at, with `up` what the peers have written so far.
It waits while it lacks bytes or moves; `fault` is a transfer that fails. -/
def Acceptor.io (a : Acceptor) (e : LaneEnd) (up : Conn → List UInt8) (replies : List Reply) :
    Acceptor :=
  match a.pc, a.current with
  | .readLane accepted, some fd =>
    match recvU64 ⟨(up fd).drop (a.read fd), replies⟩ with
    | .ok (lane, _) => (a.take fd 8).checkLane e accepted lane.toNat
    | .error _ => a
  | .check accepted lane, some fd =>
    match checkRfMetadata sha256 e ⟨(up fd).drop (a.read fd), replies⟩ with
    | .ok _ => { a.take fd 60 with pc := .sendMeta accepted lane }
    | .error .pending => a
    | .error (.error msg) => if a.read fd + 60 ≤ (up fd).length then (a.take fd 60).throw msg else a
  | .sendMeta accepted lane, some fd =>
    match sendRfMetadata sha256 e ⟨a.sent fd, replies⟩ with
    | .ok (_, s) => (a.write fd s.stream).store e accepted lane
    | .error .pending => a
    | .error (.error msg) => (a.write fd (a.sent fd ++ encodeMetadata sha256 e)).throw msg
  | _, _ => a

/-- `accept` or a transfer fails; of a send, some bytes may have gone out. -/
def Acceptor.fault (a : Acceptor) (e : LaneEnd) (written : ℕ) (msg : String) : Acceptor :=
  match a.pc, a.current with
  | .returned, _ => a
  | .thrown _, _ => a
  | .sendMeta _ _, some fd => (a.write fd (a.sent fd ++ (encodeMetadata sha256 e).take written)).throw msg
  | _, _ => a.throw msg

end acceptRfLanes

section connectRfLanes

variable (sha256 : String → Digest)

def Connector.result (k : Connector) : Option (List Conn) :=
  if k.pc = .returned then some k.fds else none

def Connector.throw (k : Connector) (msg : String) : Connector :=
  { k with pc := .thrown msg, closed := k.closed ++ k.fds.flatMap fun fd => closeTcp (some fd) }

def Connector.loop (k : Connector) (e : LaneEnd) (lane : ℕ) : Connector :=
  { k with pc := if lane < e.lanes then .connect lane else .returned }

def Connector.start (e : LaneEnd) : Connector :=
  match cgValidateCount e.env e.count false with
  | .ok () => Connector.loop ⟨.returned, [], [], [], fun _ => 0, fun _ => []⟩ e 0
  | .error msg => ⟨.thrown msg, [], [], [], fun _ => 0, fun _ => []⟩

def Connector.connectTcpRetry (k : Connector) (e : LaneEnd) (lane : ℕ) (fd : Conn)
    (setsockopt : Bool) : Connector :=
  let k := { k with opened := k.opened ++ [fd] }
  match setTcpOpts e.env setsockopt with
  | .ok () => { k with pc := .sendLane lane fd, fds := k.fds ++ [fd] }
  | .error msg => k.throw msg

def Connector.take (k : Connector) (fd : Conn) (n : ℕ) : Connector :=
  { k with read := Function.update k.read fd (k.read fd + n) }

def Connector.write (k : Connector) (fd : Conn) (stream : List UInt8) : Connector :=
  { k with sent := Function.update k.sent fd stream }

def Connector.io (k : Connector) (e : LaneEnd) (down : Conn → List UInt8) (replies : List Reply) :
    Connector :=
  match k.pc with
  | .sendLane lane fd =>
    match sendU64 (UInt64.ofNat lane) ⟨k.sent fd, replies⟩ with
    | .ok (_, s) =>
      let k := k.write fd s.stream
      if validateLaneMetadata e.env then { k with pc := .sendMeta lane fd } else k.loop e (lane + 1)
    | .error _ => k
  | .sendMeta lane fd =>
    match sendRfMetadata sha256 e ⟨k.sent fd, replies⟩ with
    | .ok (_, s) => { k.write fd s.stream with pc := .check lane fd }
    | .error .pending => k
    | .error (.error msg) => (k.write fd (k.sent fd ++ encodeMetadata sha256 e)).throw msg
  | .check lane fd =>
    match checkRfMetadata sha256 e ⟨(down fd).drop (k.read fd), replies⟩ with
    | .ok _ => (k.take fd 60).loop e (lane + 1)
    | .error .pending => k
    | .error (.error msg) => if k.read fd + 60 ≤ (down fd).length then (k.take fd 60).throw msg else k
  | _ => k

def Connector.fault (k : Connector) (e : LaneEnd) (written : ℕ) (msg : String) : Connector :=
  match k.pc with
  | .returned => k
  | .thrown _ => k
  | .sendLane lane fd =>
    (k.write fd (k.sent fd ++ (encodeU64 (UInt64.ofNat lane)).take written)).throw msg
  | .sendMeta _ fd => (k.write fd (k.sent fd ++ (encodeMetadata sha256 e).take written)).throw msg
  | _ => k.throw msg

end connectRfLanes

/-- `strangers` holds what each foreign connection has written, and `backlog` the
connections that wait to be accepted, in any order. -/
structure State where
  acceptor : Acceptor
  connector : Connector
  strangers : Conn → Option (List UInt8)
  backlog : List Conn
  next : Conn

inductive Event
  | accept (fd : Conn) (setsockopt : Bool)
  | acceptorIo (replies : List Reply)
  | acceptorFault (written : ℕ) (msg : String)
  | connect (setsockopt : Bool)
  | connectorIo (replies : List Reply)
  | connectorFault (written : ℕ) (msg : String)
  | stranger
  | strangerWrite (fd : Conn) (bytes : List UInt8)

def State.up (s : State) (fd : Conn) : List UInt8 := (s.strangers fd).getD (s.connector.sent fd)

section

variable (sha256 : String → Digest) (A C : LaneEnd)

def start : State := ⟨Acceptor.start A, Connector.start C, fun _ => none, [], 0⟩

def step (s : State) : Event → State
  | .accept fd setsockopt =>
    match s.acceptor.pc with
    | .accept accepted =>
      if fd ∈ s.backlog then
        { s with
          acceptor := s.acceptor.acceptOne A accepted fd setsockopt
          backlog := s.backlog.erase fd }
      else s
    | _ => s
  | .acceptorIo replies => { s with acceptor := s.acceptor.io sha256 A s.up replies }
  | .acceptorFault written msg => { s with acceptor := s.acceptor.fault sha256 A written msg }
  | .connect setsockopt =>
    match s.connector.pc with
    | .connect lane =>
      { s with
        connector := s.connector.connectTcpRetry C lane s.next setsockopt
        backlog := s.backlog ++ [s.next]
        next := s.next + 1 }
    | _ => s
  | .connectorIo replies =>
    { s with connector := s.connector.io sha256 C s.acceptor.sent replies }
  | .connectorFault written msg => { s with connector := s.connector.fault sha256 C written msg }
  | .stranger =>
    { s with
      strangers := Function.update s.strangers s.next (some [])
      backlog := s.backlog ++ [s.next]
      next := s.next + 1 }
  | .strangerWrite fd bytes =>
    { s with strangers := Function.update s.strangers fd ((s.strangers fd).map (· ++ bytes)) }

def states (s : State) : List Event → List State
  | [] => [s]
  | ev :: evs => s :: states (step sha256 A C s ev) evs

/-- A stranger whose lane id is read presents one out of range or in use. -/
def Honest (s : State) : Event → Prop
  | .acceptorIo _ => ∀ accepted fd bytes lane, s.acceptor.pc = .readLane accepted →
      s.acceptor.current = some fd → s.strangers fd = some bytes →
      bytes.take 8 = encodeU64 lane →
      A.lanes ≤ lane.toNat ∨ ∃ fd', s.acceptor.fds[lane.toNat]? = some (some fd')
  | _ => True

/-- An accepted or opened connection finds a legal timeout in the environment, and the
kernel takes its options. -/
def Tuned (s : State) : Event → Prop
  | .accept fd setsockopt => ∀ accepted, s.acceptor.pc = .accept accepted → fd ∈ s.backlog →
      LegalTimeout A.env ∧ setsockopt = true
  | .connect setsockopt => ∀ lane, s.connector.pc = .connect lane →
      LegalTimeout C.env ∧ setsockopt = true
  | _ => True

def HonestRun (s : State) : List Event → Prop
  | [] => True
  | ev :: evs => Honest A s ev ∧ HonestRun (step sha256 A C s ev) evs

def TunedRun (s : State) : List Event → Prop
  | [] => True
  | ev :: evs => Tuned A C s ev ∧ TunedRun (step sha256 A C s ev) evs

structure Agreed : Prop where
  settings : SameSettings sha256 A C
  parameters : A.parameters = C.parameters

/-- What is promised of a state, whichever of the ends has returned or thrown. -/
structure Established (s : State) : Prop where
  accepted : ∀ fds, s.acceptor.result = some fds → Agreed sha256 A C ∧ fds.length = A.lanes ∧
    fds.Nodup ∧ ∀ lane < A.lanes, ∃ fd, fds[lane]? = some (some fd) ∧
      s.connector.fds[lane]? = some fd ∧ fd ∈ s.acceptor.opened ∧ fd ∉ s.acceptor.closed
  connected : ∀ fds, s.connector.result = some fds → Agreed sha256 A C ∧ fds.length = C.lanes
  acceptorThrown : ∀ msg, s.acceptor.pc = .thrown msg → s.acceptor.result = none ∧
    s.acceptor.opened.Nodup ∧ s.acceptor.closed.Perm s.acceptor.opened
  connectorThrown : ∀ msg, s.connector.pc = .thrown msg → s.connector.result = none ∧
    s.connector.opened.Nodup ∧ s.connector.closed.Perm s.connector.opened

end

end RfClassGroups.LaneHandshake
