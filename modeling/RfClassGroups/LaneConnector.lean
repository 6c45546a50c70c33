import RfClassGroups.LaneAcceptor

/-! The loop of `connectRfLanes`: what holds at each of its places. -/

open ByteStream

namespace RfClassGroups.LaneHandshake

variable {sha256 : String → Digest} {A C : LaneEnd}

structure Connector.Busy (C : LaneEnd) (k : Connector) (lane : ℕ) (fd : Conn) : Prop where
  length : k.fds.length = lane + 1
  slot : k.fds[lane]? = some fd
  lane_lt : lane < C.lanes
  closed : k.closed = []
  read : k.read fd = 0

section connectRfLanes

variable (sha256 A C)

def Connector.At (k : Connector) : Prop :=
  match k.pc with
  | .connect lane =>
    k.fds.length = lane ∧ lane < C.lanes ∧ k.closed = [] ∧ (0 < lane → Agreed sha256 A C)
  | .sendLane lane fd => k.Busy C lane fd ∧ (0 < lane → Agreed sha256 A C) ∧ k.sent fd = []
  | .sendMeta lane fd =>
    k.Busy C lane fd ∧ (0 < lane → Agreed sha256 A C) ∧ k.sent fd = encodeU64 (UInt64.ofNat lane)
  | .check lane fd => k.Busy C lane fd ∧ (0 < lane → Agreed sha256 A C)
  | .returned => k.fds.length = C.lanes ∧ k.closed = [] ∧ Agreed sha256 A C
  | .thrown _ => k.closed = k.fds

structure Connector.Kept (k : Connector) : Prop where
  opened : k.opened = k.fds
  length_le : k.fds.length ≤ C.lanes
  untouched : ∀ fd ∉ k.fds, k.read fd = 0 ∧ k.sent fd = []
  sent : ∀ (lane : ℕ) (fd : Conn), k.fds[lane]? = some fd →
    k.sent fd <+: encodeU64 (UInt64.ofNat lane) ++ encodeMetadata sha256 C

structure Connector.Ok (k : Connector) : Prop where
  place : k.At sha256 A C
  nodup : k.fds.Nodup
  kept : k.Kept sha256 C

end connectRfLanes

theorem Connector.Kept.throw {k : Connector} (h : k.Kept sha256 C) (hclosed : k.closed = [])
    (hnodup : k.fds.Nodup) (msg : String) : (k.throw msg).Ok sha256 A C := by
  refine ⟨?_, hnodup, h.opened, h.length_le, h.untouched, h.sent⟩
  show k.closed ++ k.fds.flatMap (fun fd => [fd]) = k.fds
  rw [hclosed, List.flatMap_singleton']
  rfl

theorem Connector.Kept.take {k : Connector} {fd : Conn} (h : k.Kept sha256 C) (hfd : fd ∈ k.fds)
    (n : ℕ) : (k.take fd n).Kept sha256 C where
  opened := h.opened
  length_le := h.length_le
  untouched := by
    intro fd' hfd'
    have hne : fd' ≠ fd := fun heq => hfd' (heq ▸ hfd)
    show Function.update k.read fd _ fd' = 0 ∧ _
    rw [Function.update_of_ne hne]
    exact h.untouched fd' hfd'
  sent := h.sent

theorem Connector.Kept.write {k : Connector} {fd : Conn} {lane : ℕ} {stream : List UInt8}
    (h : k.Kept sha256 C) (hnodup : k.fds.Nodup) (hslot : k.fds[lane]? = some fd)
    (hstream : stream <+: encodeU64 (UInt64.ofNat lane) ++ encodeMetadata sha256 C) :
    (k.write fd stream).Kept sha256 C where
  opened := h.opened
  length_le := h.length_le
  untouched := by
    intro fd' (hfd' : fd' ∉ k.fds)
    have hne : fd' ≠ fd := fun heq => hfd' (heq ▸ List.mem_of_getElem? hslot)
    show _ ∧ Function.update k.sent fd _ fd' = []
    rw [Function.update_of_ne hne]
    exact h.untouched fd' hfd'
  sent := by
    intro lane' fd' hslot'
    show Function.update k.sent fd _ fd' <+: _
    by_cases heq : fd' = fd
    · subst heq
      change k.fds[lane']? = some fd' at hslot'
      have hlane : lane = lane' :=
        (List.getElem?_inj (List.getElem?_eq_some_iff.mp hslot).1 hnodup).mp (hslot.trans hslot'.symm)
      rw [Function.update_self, ← hlane]
      exact hstream
    · rw [Function.update_of_ne heq]
      exact h.sent lane' fd' hslot'

theorem Connector.Kept.loop {k : Connector} {lane : ℕ} (h : k.Kept sha256 C) (hnodup : k.fds.Nodup)
    (hlength : k.fds.length = lane) (hclosed : k.closed = [])
    (hagreed : 0 < lane → Agreed sha256 A C) : (k.loop C lane).Ok sha256 A C := by
  refine ⟨?_, hnodup, h.opened, h.length_le, h.untouched, h.sent⟩
  have hle := h.length_le
  have hpos := C.lanes_bounds.1
  by_cases hlt : lane < C.lanes
  · have hpc : (k.loop C lane).pc = .connect lane := if_pos hlt
    rw [Connector.At, hpc]
    exact ⟨hlength, hlt, hclosed, hagreed⟩
  · have hpc : (k.loop C lane).pc = .returned := if_neg hlt
    rw [Connector.At, hpc]
    exact ⟨show k.fds.length = _ by omega, hclosed, hagreed (by omega)⟩

theorem Connector.start_ok : (Connector.start C).Ok sha256 A C := by
  rw [Connector.start]
  split
  · refine Connector.Kept.loop ⟨rfl, Nat.zero_le _, fun _ _ => ⟨rfl, rfl⟩, ?_⟩ List.nodup_nil rfl rfl ?_
    · intro lane fd hslot
      cases hslot
    · intro hlt
      cases hlt
  · refine ⟨rfl, List.nodup_nil, rfl, Nat.zero_le _, fun _ _ => ⟨rfl, rfl⟩, ?_⟩
    intro lane fd hslot
    cases hslot

theorem Connector.Ok.connectTcpRetry {k : Connector} {lane : ℕ} {fd : Conn} {setsockopt : Bool}
    (h : k.Ok sha256 A C) (hpc : k.pc = .connect lane) (hfd : fd ∉ k.fds)
    (hopts : setTcpOpts C.env setsockopt = .ok ()) :
    (k.connectTcpRetry C lane fd setsockopt).Ok sha256 A C := by
  have hplace := h.place
  rw [Connector.At, hpc] at hplace
  obtain ⟨hlength, hlt, hclosed, hagreed⟩ := hplace
  obtain ⟨hread, hsent⟩ := h.kept.untouched fd hfd
  have hslot : (k.fds ++ [fd])[lane]? = some fd := by
    rw [List.getElem?_append_right hlength.le, hlength, Nat.sub_self]
    rfl
  have hlength' : (k.fds ++ [fd]).length = lane + 1 := by
    rw [List.length_append, hlength]
    rfl
  rw [Connector.connectTcpRetry, hopts]
  refine ⟨⟨⟨hlength', hslot, hlt, hclosed, hread⟩, hagreed, hsent⟩, ?_, ?_⟩
  · exact h.nodup.append (List.nodup_singleton fd) (List.disjoint_singleton.mpr hfd)
  · refine ⟨congrArg (· ++ [fd]) h.kept.opened, hlength'.trans_le hlt, ?_, ?_⟩
    · intro fd' hfd'
      exact h.kept.untouched fd' fun hmem => hfd' (List.mem_append_left _ hmem)
    · intro lane' fd' hslot'
      change (k.fds ++ [fd])[lane']? = some fd' at hslot'
      show k.sent fd' <+: _
      by_cases hlt' : lane' < k.fds.length
      · rw [List.getElem?_append_left hlt'] at hslot'
        exact h.kept.sent lane' fd' hslot'
      · rw [List.getElem?_append_right (not_lt.mp hlt')] at hslot'
        rw [List.mem_singleton.mp (List.mem_of_getElem? hslot'), hsent]
        exact List.nil_prefix

theorem Connector.Ok.io_sendLane {k : Connector} {down : Conn → List UInt8} {lane : ℕ} {fd : Conn}
    (hvalidate : validateLaneMetadata C.env = true) (h : k.Ok sha256 A C)
    (hpc : k.pc = .sendLane lane fd) (replies : List Reply) :
    (k.io sha256 C down replies).Ok sha256 A C := by
  have hplace := h.place
  rw [Connector.At, hpc] at hplace
  obtain ⟨hbusy, hagreed, hsent⟩ := hplace
  rw [Connector.io, hpc]
  dsimp only
  split
  next s hsend =>
    rw [if_pos hvalidate]
    have hstream : s.stream = encodeU64 (UInt64.ofNat lane) := by
      rw [(emits_sendU64 _).eq_of_ok hsend, hsent, List.nil_append]
    have hkept := h.kept.write h.nodup hbusy.slot
      (show s.stream <+: _ by rw [hstream]; exact List.prefix_append _ _)
    refine ⟨⟨⟨hbusy.length, hbusy.slot, hbusy.lane_lt, hbusy.closed, hbusy.read⟩, hagreed, ?_⟩,
      h.nodup, hkept.opened, hkept.length_le, hkept.untouched, hkept.sent⟩
    show Function.update k.sent fd s.stream fd = _
    rw [Function.update_self, hstream]
  next => exact h

theorem Connector.Ok.io_sendMeta {k : Connector} {down : Conn → List UInt8} {lane : ℕ} {fd : Conn}
    (h : k.Ok sha256 A C) (hpc : k.pc = .sendMeta lane fd) (replies : List Reply) :
    (k.io sha256 C down replies).Ok sha256 A C := by
  have hplace := h.place
  rw [Connector.At, hpc] at hplace
  obtain ⟨hbusy, hagreed, hsent⟩ := hplace
  rw [Connector.io, hpc]
  dsimp only
  split
  next s hsend =>
    have hkept := h.kept.write h.nodup hbusy.slot
      (show s.stream <+: _ by rw [sendRfMetadata_ok sha256 hsend, hsent])
    exact ⟨⟨⟨hbusy.length, hbusy.slot, hbusy.lane_lt, hbusy.closed, hbusy.read⟩, hagreed⟩,
      h.nodup, hkept.opened, hkept.length_le, hkept.untouched, hkept.sent⟩
  next => exact h
  next => exact (h.kept.write h.nodup hbusy.slot (by rw [hsent])).throw hbusy.closed h.nodup _

theorem Connector.Ok.io_check {k : Connector} {down : Conn → List UInt8} {lane : ℕ} {fd : Conn}
    (hsha : sha256 A.parameters = sha256 C.parameters → A.parameters = C.parameters)
    (h : k.Ok sha256 A C) (hpc : k.pc = .check lane fd)
    (hdown : ∀ fd, down fd <+: encodeMetadata sha256 A) (replies : List Reply) :
    (k.io sha256 C down replies).Ok sha256 A C := by
  have hplace := h.place
  rw [Connector.At, hpc] at hplace
  obtain ⟨hbusy, hagreed⟩ := hplace
  have hkept := h.kept.take (List.mem_of_getElem? hbusy.slot) 60
  rw [Connector.io, hpc]
  dsimp only
  split
  next hcheck =>
    have hstream : (down fd).drop (k.read fd) <+: encodeMetadata sha256 A := by
      rw [hbusy.read, List.drop_zero]
      exact hdown fd
    have hpassed := Agreed.of_check (fun heq => (hsha heq.symm).symm) hcheck hstream
    exact hkept.loop h.nodup hbusy.length hbusy.closed fun _ => hpassed.symm
  next => exact h
  next =>
    split
    · exact hkept.throw hbusy.closed h.nodup _
    · exact h

theorem Connector.Ok.io {k : Connector} {down : Conn → List UInt8}
    (hvalidate : validateLaneMetadata C.env = true)
    (hsha : sha256 A.parameters = sha256 C.parameters → A.parameters = C.parameters)
    (h : k.Ok sha256 A C) (hdown : ∀ fd, down fd <+: encodeMetadata sha256 A)
    (replies : List Reply) : (k.io sha256 C down replies).Ok sha256 A C := by
  cases hpc : k.pc with
  | connect lane =>
    rw [Connector.io, hpc]
    exact h
  | returned =>
    rw [Connector.io, hpc]
    exact h
  | thrown msg =>
    rw [Connector.io, hpc]
    exact h
  | sendLane lane fd => exact h.io_sendLane hvalidate hpc replies
  | sendMeta lane fd => exact h.io_sendMeta hpc replies
  | check lane fd => exact h.io_check hsha hpc hdown replies

theorem Connector.Ok.fault {k : Connector} (h : k.Ok sha256 A C) (written : ℕ) (msg : String) :
    (k.fault sha256 C written msg).Ok sha256 A C := by
  have hplace := h.place
  rw [Connector.At] at hplace
  rw [Connector.fault]
  cases hpc : k.pc with
  | connect lane =>
    rw [hpc] at hplace
    exact h.kept.throw hplace.2.2.1 h.nodup msg
  | sendLane lane fd =>
    rw [hpc] at hplace
    obtain ⟨hbusy, _, hsent⟩ := hplace
    refine (h.kept.write h.nodup hbusy.slot ?_).throw hbusy.closed h.nodup msg
    rw [hsent, List.nil_append]
    exact (List.take_prefix _ _).trans (List.prefix_append _ _)
  | sendMeta lane fd =>
    rw [hpc] at hplace
    obtain ⟨hbusy, _, hsent⟩ := hplace
    refine (h.kept.write h.nodup hbusy.slot ?_).throw hbusy.closed h.nodup msg
    rw [hsent]
    exact List.prefix_append_right_inj _ |>.mpr (List.take_prefix _ _)
  | check lane fd =>
    rw [hpc] at hplace
    exact h.kept.throw hplace.1.closed h.nodup msg
  | returned => exact h
  | thrown msg => exact h

theorem Connector.fds_io (k : Connector) (down : Conn → List UInt8) (replies : List Reply) :
    (k.io sha256 C down replies).fds = k.fds := by
  rw [Connector.io]
  split
  · split
    · dsimp only
      split <;> rfl
    · rfl
  · split <;> rfl
  · split
    · rfl
    · rfl
    · split <;> rfl
  · rfl

theorem Connector.fds_fault (k : Connector) (written : ℕ) (msg : String) :
    (k.fault sha256 C written msg).fds = k.fds := by
  rw [Connector.fault]
  split <;> rfl

end RfClassGroups.LaneHandshake
