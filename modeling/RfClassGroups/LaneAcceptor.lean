import RfClassGroups.LaneHandshake

/-! The loop of `acceptRfLanes`: what holds at each of its places. -/

open ByteStream

namespace RfClassGroups.LaneHandshake

variable {sha256 : String → Digest} {A C : LaneEnd} {peers : List Conn}

/-- The table has `accepted` slots filled, and nothing is lost or closed. -/
structure Acceptor.Running (A : LaneEnd) (a : Acceptor) (accepted : ℕ) : Prop where
  length : a.fds.length = A.lanes
  filled : (a.fds.flatMap closeTcp).length = accepted
  opened : a.opened.Perm (closeTcp a.current ++ a.fds.flatMap closeTcp)
  closed : a.closed = []

structure Acceptor.Holds (peers : List Conn) (a : Acceptor) (lane : ℕ) (fd : Conn) : Prop where
  current : a.current = some fd
  free : a.fds[lane]? = some none
  peer : peers[lane]? = some fd

section acceptRfLanes

variable (sha256 A C peers)

def Acceptor.At (a : Acceptor) : Prop :=
  match a.pc with
  | .accept accepted => a.Running A accepted ∧ a.current = none
  | .readLane accepted =>
    a.Running A accepted ∧ ∃ fd, a.current = some fd ∧ a.read fd = 0 ∧ a.sent fd = []
  | .check accepted lane =>
    a.Running A accepted ∧ ∃ fd, a.Holds peers lane fd ∧ a.read fd = 8 ∧ a.sent fd = []
  | .sendMeta accepted lane =>
    a.Running A accepted ∧ Agreed sha256 A C ∧ ∃ fd, a.Holds peers lane fd ∧ a.sent fd = []
  | .returned => a.Running A A.lanes ∧ a.current = none
  | .thrown _ => a.closed.Perm a.opened

structure Acceptor.Kept (a : Acceptor) : Prop where
  slots : ∀ (lane : ℕ) (fd : Conn), a.fds[lane]? = some (some fd) →
    peers[lane]? = some fd ∧ Agreed sha256 A C
  untouched : ∀ fd ∉ a.opened, a.read fd = 0 ∧ a.sent fd = []
  sent : ∀ fd, a.sent fd <+: encodeMetadata sha256 A

structure Acceptor.Ok (a : Acceptor) : Prop where
  place : a.At sha256 A C peers
  kept : a.Kept sha256 A C peers

end acceptRfLanes

theorem Acceptor.Running.throw_closed {a : Acceptor} {accepted : ℕ} (h : a.Running A accepted)
    (msg : String) : (a.throw msg).closed.Perm a.opened := by
  show (a.closed ++ _).Perm a.opened
  rw [h.closed, List.nil_append]
  exact h.opened.symm

theorem length_flatMap_closeTcp_le (fds : List (Option Conn)) :
    (fds.flatMap closeTcp).length ≤ fds.length := by
  induction fds with
  | nil => exact Nat.le_refl 0
  | cons fd fds ih =>
    cases fd with
    | none => exact ih.trans (Nat.le_succ _)
    | some fd => exact Nat.succ_le_succ ih

theorem Acceptor.Running.filled_le {a : Acceptor} {accepted : ℕ} (h : a.Running A accepted) :
    accepted ≤ A.lanes := by
  rw [← h.filled, ← h.length]
  exact length_flatMap_closeTcp_le a.fds

theorem Acceptor.Running.loop_at {a : Acceptor} {accepted : ℕ} (h : a.Running A accepted)
    (hcurrent : a.current = none) : (a.loop A accepted).At sha256 A C peers := by
  have hle := h.filled_le
  have hrun : (a.loop A accepted).Running A accepted := ⟨h.length, h.filled, h.opened, h.closed⟩
  by_cases hlt : accepted < A.lanes
  · have hpc : (a.loop A accepted).pc = .accept accepted := if_pos hlt
    rw [Acceptor.At, hpc]
    exact ⟨hrun, hcurrent⟩
  · have hpc : (a.loop A accepted).pc = .returned := if_neg hlt
    rw [Acceptor.At, hpc]
    obtain rfl : accepted = A.lanes := by omega
    exact ⟨hrun, hcurrent⟩

theorem flatMap_closeTcp_set {fds : List (Option Conn)} {lane : ℕ} {fd : Conn}
    (h : fds[lane]? = some none) :
    ((fds.set lane (some fd)).flatMap closeTcp).Perm (fd :: fds.flatMap closeTcp) := by
  induction fds generalizing lane with
  | nil => cases h
  | cons x fds ih =>
    cases lane with
    | zero =>
      obtain rfl : x = none := by simpa using h
      exact List.Perm.refl _
    | succ lane =>
      have hperm := (ih (by simpa using h)).append_left (closeTcp x)
      exact hperm.trans List.perm_middle

/-- The connection that moves into the table is no longer `current`, so it is closed
once by a later throw. -/
theorem Acceptor.Running.store {a : Acceptor} {accepted lane : ℕ} {fd : Conn}
    (h : a.Running A accepted) (hh : a.Holds peers lane fd) :
    Acceptor.Running A { a with fds := a.fds.set lane a.current, current := none } (accepted + 1) where
  length := by
    show (a.fds.set lane a.current).length = _
    rw [List.length_set, h.length]
  filled := by
    show ((a.fds.set lane a.current).flatMap closeTcp).length = _
    rw [hh.current, (flatMap_closeTcp_set hh.free).length_eq, List.length_cons, h.filled]
  opened := by
    show a.opened.Perm ([] ++ (a.fds.set lane a.current).flatMap closeTcp)
    have hopened := h.opened
    rw [hh.current] at hopened
    rw [hh.current, List.nil_append]
    exact hopened.trans (flatMap_closeTcp_set hh.free).symm
  closed := h.closed

theorem Acceptor.Running.current_mem {a : Acceptor} {accepted : ℕ} {fd : Conn}
    (h : a.Running A accepted) (hcurrent : a.current = some fd) : fd ∈ a.opened := by
  apply h.opened.mem_iff.mpr
  rw [hcurrent]
  exact List.mem_append_left _ List.mem_cons_self

theorem Acceptor.Running.take {a : Acceptor} {accepted : ℕ} (h : a.Running A accepted) (fd : Conn)
    (n : ℕ) : (a.take fd n).Running A accepted := ⟨h.length, h.filled, h.opened, h.closed⟩

theorem Acceptor.Running.write {a : Acceptor} {accepted : ℕ} (h : a.Running A accepted) (fd : Conn)
    (stream : List UInt8) : (a.write fd stream).Running A accepted :=
  ⟨h.length, h.filled, h.opened, h.closed⟩

theorem Acceptor.Kept.throw {a : Acceptor} {accepted : ℕ} (h : a.Kept sha256 A C peers)
    (hr : a.Running A accepted) (msg : String) : (a.throw msg).Ok sha256 A C peers :=
  ⟨hr.throw_closed msg, h.slots, h.untouched, h.sent⟩

theorem Acceptor.Kept.take {a : Acceptor} {fd : Conn} (h : a.Kept sha256 A C peers)
    (hfd : fd ∈ a.opened) (n : ℕ) : (a.take fd n).Kept sha256 A C peers where
  slots := h.slots
  untouched := by
    intro fd' hfd'
    have hne : fd' ≠ fd := fun heq => hfd' (heq ▸ hfd)
    show Function.update a.read fd _ fd' = 0 ∧ _
    rw [Function.update_of_ne hne]
    exact h.untouched fd' hfd'
  sent := h.sent

theorem Acceptor.Kept.write {a : Acceptor} {fd : Conn} {stream : List UInt8}
    (h : a.Kept sha256 A C peers) (hfd : fd ∈ a.opened)
    (hstream : stream <+: encodeMetadata sha256 A) : (a.write fd stream).Kept sha256 A C peers where
  slots := h.slots
  untouched := by
    intro fd' hfd'
    have hne : fd' ≠ fd := fun heq => hfd' (heq ▸ hfd)
    show _ ∧ Function.update a.sent fd _ fd' = []
    rw [Function.update_of_ne hne]
    exact h.untouched fd' hfd'
  sent := by
    intro fd'
    show Function.update a.sent fd _ fd' <+: _
    by_cases heq : fd' = fd
    · rw [heq, Function.update_self]
      exact hstream
    · rw [Function.update_of_ne heq]
      exact h.sent fd'

theorem Acceptor.Kept.store {a : Acceptor} {accepted lane : ℕ} {fd : Conn}
    (h : a.Kept sha256 A C peers) (hr : a.Running A accepted) (hh : a.Holds peers lane fd)
    (hagreed : Agreed sha256 A C) : (a.store A accepted lane).Ok sha256 A C peers where
  place := (hr.store hh).loop_at rfl
  kept := by
    refine ⟨?_, h.untouched, h.sent⟩
    intro lane' fd' hslot
    change (a.fds.set lane a.current)[lane']? = some (some fd') at hslot
    by_cases heq : lane = lane'
    · subst heq
      have hlt : lane < a.fds.length := (List.getElem?_eq_some_iff.mp hh.free).1
      rw [List.getElem?_set_self hlt, hh.current] at hslot
      cases hslot
      exact ⟨hh.peer, hagreed⟩
    · rw [List.getElem?_set_ne heq] at hslot
      exact h.slots lane' fd' hslot

theorem Acceptor.Kept.checkLane {a : Acceptor} {accepted lane : ℕ} {fd : Conn}
    (hvalidate : validateLaneMetadata A.env = true) (h : a.Kept sha256 A C peers)
    (hr : a.Running A accepted) (hcurrent : a.current = some fd) (hread : a.read fd = 8)
    (hsent : a.sent fd = [])
    (hpeer : lane < A.lanes → a.fds[lane]? = some none → peers[lane]? = some fd) :
    (a.checkLane A accepted lane).Ok sha256 A C peers := by
  rw [Acceptor.checkLane, if_pos hvalidate]
  split
  · exact h.throw hr _
  next hlane =>
  rw [not_or, not_le, not_not] at hlane
  refine ⟨⟨⟨hr.length, hr.filled, hr.opened, hr.closed⟩, fd, ⟨hcurrent, hlane.2, ?_⟩, hread, hsent⟩,
    h.slots, h.untouched, h.sent⟩
  exact hpeer hlane.1 hlane.2

theorem Agreed.of_check {s s' : Socket}
    (hsha : sha256 A.parameters = sha256 C.parameters → A.parameters = C.parameters)
    (h : checkRfMetadata sha256 A s = .ok ((), s'))
    (hstream : s.stream <+: encodeMetadata sha256 C) : Agreed sha256 A C := by
  obtain ⟨hchunk, hread⟩ := checkRfMetadata_ok sha256 h
  rw [hread] at hstream
  have hsame := sameSettings_of_start hchunk hstream
  refine ⟨hsame, hsha ?_⟩
  cases hA : sha256 A.parameters with
  | mk bytes length_eq =>
    cases hC : sha256 C.parameters with
    | mk bytes' length_eq' =>
      have hbytes : bytes = bytes' := by simpa [rfParameterDigest, hA, hC] using hsame.digest
      subst hbytes
      rfl

theorem Agreed.symm (h : Agreed sha256 A C) : Agreed sha256 C A :=
  ⟨h.settings.symm, h.parameters.symm⟩

/-- A connection that gets a free slot in range is the connector's for that lane. -/
theorem peer_of_lane {a : Acceptor} {up : Conn → List UInt8} {fd : Conn} {lane : UInt64}
    {rest : List UInt8} (hpeers : peers.length ≤ C.lanes)
    (hup : ∀ (lane : ℕ) (fd : Conn), peers[lane]? = some fd →
      up fd <+: encodeU64 (UInt64.ofNat lane) ++ encodeMetadata sha256 C)
    (hopener : fd ∈ peers ∨ ∀ lane, (up fd).take 8 = encodeU64 lane →
      A.lanes ≤ lane.toNat ∨ ∃ fd', a.fds[lane.toNat]? = some (some fd'))
    (hstream : up fd = encodeU64 lane ++ rest) (hlt : lane.toNat < A.lanes)
    (hfree : a.fds[lane.toNat]? = some none) : peers[lane.toNat]? = some fd := by
  rcases hopener with hpeer | hstranger
  · obtain ⟨lane', hlt', hlane'⟩ := List.mem_iff_getElem.mp hpeer
    have hget : peers[lane']? = some fd := List.getElem?_eq_some_iff.mpr ⟨hlt', hlane'⟩
    have hbounds := C.lanes_bounds
    have hprefix := hup lane' fd hget
    rw [hstream] at hprefix
    rw [lane_eq_of_start (by omega) hprefix]
    exact hget
  · have htake : (up fd).take 8 = encodeU64 lane := by
      rw [hstream]
      exact List.take_left' (length_encodeU64 lane)
    rcases hstranger lane htake with hge | ⟨fd', hused⟩
    · exact absurd hlt (not_lt.mpr hge)
    · rw [hused] at hfree
      cases hfree

theorem Acceptor.Ok.io_readLane {a : Acceptor} {up : Conn → List UInt8} {accepted : ℕ}
    (hvalidate : validateLaneMetadata A.env = true) (h : a.Ok sha256 A C peers)
    (hpc : a.pc = .readLane accepted) (hpeers : peers.length ≤ C.lanes)
    (hup : ∀ (lane : ℕ) (fd : Conn), peers[lane]? = some fd →
      up fd <+: encodeU64 (UInt64.ofNat lane) ++ encodeMetadata sha256 C)
    (hopener : ∀ fd, a.current = some fd → fd ∈ peers ∨ ∀ lane, (up fd).take 8 = encodeU64 lane →
      A.lanes ≤ lane.toNat ∨ ∃ fd', a.fds[lane.toNat]? = some (some fd'))
    (replies : List Reply) : (a.io sha256 A up replies).Ok sha256 A C peers := by
  have hplace := h.place
  rw [Acceptor.At, hpc] at hplace
  obtain ⟨hr, fd, hcurrent, hread, hsent⟩ := hplace
  rw [Acceptor.io, hpc, hcurrent]
  dsimp only
  split
  next lane s hrecv =>
    have hstream := recvU64_ok hrecv
    rw [hread, List.drop_zero] at hstream
    have hmem := hr.current_mem hcurrent
    refine (h.kept.take hmem 8).checkLane hvalidate (hr.take fd 8) hcurrent ?_ hsent ?_
    · show Function.update a.read fd (a.read fd + 8) fd = 8
      rw [Function.update_self, hread]
    · exact peer_of_lane hpeers hup (hopener fd hcurrent) hstream
  next => exact h

theorem Acceptor.Ok.io_check {a : Acceptor} {up : Conn → List UInt8} {accepted lane : ℕ}
    (hsha : sha256 A.parameters = sha256 C.parameters → A.parameters = C.parameters)
    (h : a.Ok sha256 A C peers) (hpc : a.pc = .check accepted lane)
    (hup : ∀ (lane : ℕ) (fd : Conn), peers[lane]? = some fd →
      up fd <+: encodeU64 (UInt64.ofNat lane) ++ encodeMetadata sha256 C)
    (replies : List Reply) : (a.io sha256 A up replies).Ok sha256 A C peers := by
  have hplace := h.place
  rw [Acceptor.At, hpc] at hplace
  obtain ⟨hr, fd, hh, hread, hsent⟩ := hplace
  have hmem := hr.current_mem hh.current
  have hkept := h.kept.take hmem 60
  rw [Acceptor.io, hpc, hh.current]
  dsimp only
  split
  next hcheck =>
    have hstream : (up fd).drop (a.read fd) <+: encodeMetadata sha256 C := by
      have hdrop := (hup lane fd hh.peer).drop 8
      rwa [List.drop_left' (length_encodeU64 _), ← hread] at hdrop
    refine ⟨⟨?_, Agreed.of_check hsha hcheck hstream, fd, ?_, hsent⟩, ?_⟩
    · exact ⟨hr.length, hr.filled, hr.opened, hr.closed⟩
    · exact ⟨hh.current, hh.free, hh.peer⟩
    · exact ⟨hkept.slots, hkept.untouched, hkept.sent⟩
  next => exact h
  next =>
    split
    · exact hkept.throw (hr.take fd 60) _
    · exact h

theorem Acceptor.Ok.io_sendMeta {a : Acceptor} {up : Conn → List UInt8} {accepted lane : ℕ}
    (h : a.Ok sha256 A C peers) (hpc : a.pc = .sendMeta accepted lane) (replies : List Reply) :
    (a.io sha256 A up replies).Ok sha256 A C peers := by
  have hplace := h.place
  rw [Acceptor.At, hpc] at hplace
  obtain ⟨hr, hagreed, fd, hh, hsent⟩ := hplace
  have hmem := hr.current_mem hh.current
  rw [Acceptor.io, hpc, hh.current]
  dsimp only
  split
  next s hsend =>
    have hstream : s.stream = encodeMetadata sha256 A := by
      rw [sendRfMetadata_ok sha256 hsend, hsent, List.nil_append]
    have hkept := h.kept.write hmem (show s.stream <+: _ by rw [hstream])
    exact hkept.store (hr.write fd s.stream) ⟨hh.current, hh.free, hh.peer⟩ hagreed
  next => exact h
  next =>
    refine (h.kept.write hmem ?_).throw (hr.write fd _) _
    rw [hsent, List.nil_append]

theorem Acceptor.Ok.io {a : Acceptor} {up : Conn → List UInt8}
    (hvalidate : validateLaneMetadata A.env = true)
    (hsha : sha256 A.parameters = sha256 C.parameters → A.parameters = C.parameters)
    (h : a.Ok sha256 A C peers) (hpeers : peers.length ≤ C.lanes)
    (hup : ∀ (lane : ℕ) (fd : Conn), peers[lane]? = some fd →
      up fd <+: encodeU64 (UInt64.ofNat lane) ++ encodeMetadata sha256 C)
    (hopener : ∀ accepted fd, a.pc = .readLane accepted → a.current = some fd →
      fd ∈ peers ∨ ∀ lane, (up fd).take 8 = encodeU64 lane →
        A.lanes ≤ lane.toNat ∨ ∃ fd', a.fds[lane.toNat]? = some (some fd'))
    (replies : List Reply) : (a.io sha256 A up replies).Ok sha256 A C peers := by
  cases hpc : a.pc with
  | accept accepted =>
    rw [Acceptor.io, hpc]
    exact h
  | returned =>
    rw [Acceptor.io, hpc]
    exact h
  | thrown msg =>
    rw [Acceptor.io, hpc]
    exact h
  | readLane accepted =>
    exact h.io_readLane hvalidate hpc hpeers hup (fun fd => hopener accepted fd hpc) replies
  | check accepted lane => exact h.io_check hsha hpc hup replies
  | sendMeta accepted lane => exact h.io_sendMeta hpc replies

theorem Acceptor.Ok.fault {a : Acceptor} (h : a.Ok sha256 A C peers) (written : ℕ) (msg : String) :
    (a.fault sha256 A written msg).Ok sha256 A C peers := by
  have hplace := h.place
  rw [Acceptor.At] at hplace
  rw [Acceptor.fault]
  cases hpc : a.pc with
  | accept accepted =>
    rw [hpc] at hplace
    exact h.kept.throw hplace.1 msg
  | readLane accepted =>
    rw [hpc] at hplace
    exact h.kept.throw hplace.1 msg
  | check accepted lane =>
    rw [hpc] at hplace
    exact h.kept.throw hplace.1 msg
  | sendMeta accepted lane =>
    rw [hpc] at hplace
    obtain ⟨hr, _, fd, hh, hsent⟩ := hplace
    rw [hh.current]
    refine (h.kept.write (hr.current_mem hh.current) ?_).throw (hr.write fd _) msg
    rw [hsent, List.nil_append]
    exact List.take_prefix _ _
  | returned => exact h
  | thrown msg => exact h

theorem Acceptor.Ok.acceptOne {a : Acceptor} {accepted : ℕ} {fd : Conn} {setsockopt : Bool}
    (h : a.Ok sha256 A C peers) (hpc : a.pc = .accept accepted) (hfd : fd ∉ a.opened)
    (hopts : setTcpOpts A.env setsockopt = .ok ()) :
    (a.acceptOne A accepted fd setsockopt).Ok sha256 A C peers := by
  have hplace := h.place
  rw [Acceptor.At, hpc] at hplace
  obtain ⟨hr, hcurrent⟩ := hplace
  obtain ⟨hread, hsent⟩ := h.kept.untouched fd hfd
  have hopened := hr.opened
  rw [hcurrent] at hopened
  rw [Acceptor.acceptOne, hopts]
  refine ⟨⟨⟨hr.length, hr.filled, ?_, hr.closed⟩, fd, rfl, hread, hsent⟩, h.kept.slots, ?_, h.kept.sent⟩
  · exact (hopened.append_right [fd]).trans List.perm_append_comm
  · intro fd' hfd'
    exact h.kept.untouched fd' fun hmem => hfd' (List.mem_append_left _ hmem)

theorem Acceptor.start_ok : (Acceptor.start A).Ok sha256 A C peers := by
  rw [Acceptor.start]
  split
  · have hslots : ∀ (lane : ℕ) (fd : Conn), (List.replicate A.lanes none)[lane]? ≠ some (some fd) := by
      intro lane fd hslot
      have hmem := List.eq_of_mem_replicate (List.mem_of_getElem? hslot)
      cases hmem
    have hnone : (List.replicate A.lanes none).flatMap closeTcp = [] := by
      simp [closeTcp]
    refine ⟨Acceptor.Running.loop_at ⟨List.length_replicate, ?_, ?_, rfl⟩ rfl, ?_⟩
    · rw [hnone]
      rfl
    · rw [hnone]
      exact List.Perm.refl _
    · exact ⟨fun lane fd hslot => absurd hslot (hslots lane fd), fun _ _ => ⟨rfl, rfl⟩,
        fun _ => List.nil_prefix⟩
  · refine ⟨List.Perm.refl _, ?_, fun _ _ => ⟨rfl, rfl⟩, fun _ => List.nil_prefix⟩
    intro lane fd hslot
    cases hslot

theorem Acceptor.Ok.append {a : Acceptor} (h : a.Ok sha256 A C peers) (more : List Conn) :
    a.Ok sha256 A C (peers ++ more) := by
  have hget : ∀ {lane : ℕ} {fd : Conn}, peers[lane]? = some fd → (peers ++ more)[lane]? = some fd := by
    intro lane fd hpeer
    rw [List.getElem?_append_left (List.getElem?_eq_some_iff.mp hpeer).1]
    exact hpeer
  refine ⟨?_, fun lane fd hslot => ?_, h.kept.untouched, h.kept.sent⟩
  · have hplace := h.place
    rw [Acceptor.At] at hplace ⊢
    cases hpc : a.pc with
    | check accepted lane =>
      rw [hpc] at hplace
      obtain ⟨hr, fd, hh, hrest⟩ := hplace
      exact ⟨hr, fd, ⟨hh.current, hh.free, hget hh.peer⟩, hrest⟩
    | sendMeta accepted lane =>
      rw [hpc] at hplace
      obtain ⟨hr, hagreed, fd, hh, hsent⟩ := hplace
      exact ⟨hr, hagreed, fd, ⟨hh.current, hh.free, hget hh.peer⟩, hsent⟩
    | accept accepted => rwa [hpc] at hplace
    | readLane accepted => rwa [hpc] at hplace
    | returned => rwa [hpc] at hplace
    | thrown msg => rwa [hpc] at hplace
  · obtain ⟨hpeer, hagreed⟩ := h.kept.slots lane fd hslot
    exact ⟨hget hpeer, hagreed⟩

theorem Acceptor.opened_checkLane (a : Acceptor) (accepted lane : ℕ) :
    (a.checkLane A accepted lane).opened = a.opened := by
  rw [Acceptor.checkLane]
  split
  · rfl
  · split <;> rfl

theorem Acceptor.opened_io (a : Acceptor) (up : Conn → List UInt8) (replies : List Reply) :
    (a.io sha256 A up replies).opened = a.opened := by
  rw [Acceptor.io]
  split
  · split
    · exact Acceptor.opened_checkLane _ _ _
    · rfl
  · split
    · rfl
    · rfl
    · split <;> rfl
  · split <;> rfl
  · rfl

theorem Acceptor.opened_fault (a : Acceptor) (written : ℕ) (msg : String) :
    (a.fault sha256 A written msg).opened = a.opened := by
  rw [Acceptor.fault]
  split <;> rfl

end RfClassGroups.LaneHandshake
