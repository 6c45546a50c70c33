import RfClassGroups.LaneConnector

/-! Both ends of the lanes agree on their settings or close what they opened, in every
run in which the socket options can be set. -/

open ByteStream

namespace RfClassGroups.LaneHandshake

variable {sha256 : String → Digest} {A C : LaneEnd}

/-- A connection belongs to the connector or to a stranger, and is numbered once. -/
structure Inv (sha256 : String → Digest) (A C : LaneEnd) (s : State) : Prop where
  acceptor : s.acceptor.Ok sha256 A C s.connector.fds
  connector : s.connector.Ok sha256 A C
  nodup : (s.acceptor.opened ++ s.backlog).Nodup
  opener : ∀ fd ∈ s.acceptor.opened ++ s.backlog,
    fd ∈ s.connector.fds ∨ ∃ bytes, s.strangers fd = some bytes
  foreign : ∀ fd bytes, s.strangers fd = some bytes → fd ∉ s.connector.fds
  fresh : ∀ fd, (fd ∈ s.connector.fds ∨ ∃ bytes, s.strangers fd = some bytes) → fd < s.next

variable {s : State}

theorem inv_start : Inv sha256 A C (start A C) := by
  have hopened : (Acceptor.start A).opened = [] := by
    rw [Acceptor.start]
    split <;> rfl
  have hfds : (Connector.start C).fds = [] := by
    rw [Connector.start]
    split <;> rfl
  refine ⟨Acceptor.start_ok, Connector.start_ok, ?_, ?_, ?_, ?_⟩
  · show ((Acceptor.start A).opened ++ []).Nodup
    rw [hopened]
    exact List.nodup_nil
  · intro fd hfd
    change fd ∈ (Acceptor.start A).opened ++ [] at hfd
    rw [hopened] at hfd
    cases hfd
  · intro fd bytes hbytes
    cases hbytes
  · intro fd hfd
    rcases hfd with hfd | ⟨bytes, hbytes⟩
    · change fd ∈ (Connector.start C).fds at hfd
      rw [hfds] at hfd
      cases hfd
    · cases hbytes

theorem Inv.accept (h : Inv sha256 A C s) {fd : Conn} {setsockopt : Bool}
    (htuned : Tuned A C s (.accept fd setsockopt)) :
    Inv sha256 A C (step sha256 A C s (.accept fd setsockopt)) := by
  rw [step]
  split
  next accepted hpc =>
    split
    next hfd =>
      have hopts := setTcpOpts_ok.mpr (htuned accepted hpc hfd)
      have hnew : fd ∉ s.acceptor.opened := fun hmem =>
        (List.nodup_append'.mp h.nodup).2.2 hmem hfd
      have hopened : (s.acceptor.acceptOne A accepted fd setsockopt).opened = s.acceptor.opened ++ [fd] := by
        rw [Acceptor.acceptOne, hopts]
      have hperm : (s.acceptor.opened ++ [fd] ++ s.backlog.erase fd).Perm
          (s.acceptor.opened ++ s.backlog) := by
        rw [List.append_assoc]
        exact (List.perm_cons_erase hfd).symm.append_left _
      refine ⟨h.acceptor.acceptOne hpc hnew hopts, h.connector, ?_, ?_, h.foreign, h.fresh⟩
      · rw [hopened]
        exact hperm.nodup_iff.mpr h.nodup
      · intro fd' hfd'
        rw [hopened] at hfd'
        exact h.opener fd' (hperm.mem_iff.mp hfd')
    next => exact h
  next => exact h

theorem Inv.of_acceptor (h : Inv sha256 A C s) {a : Acceptor}
    (ha : a.Ok sha256 A C s.connector.fds) (hopened : a.opened = s.acceptor.opened) :
    Inv sha256 A C { s with acceptor := a } := by
  refine ⟨ha, h.connector, ?_, ?_, h.foreign, h.fresh⟩
  · show (a.opened ++ s.backlog).Nodup
    rw [hopened]
    exact h.nodup
  · show ∀ fd ∈ a.opened ++ s.backlog, _
    rw [hopened]
    exact h.opener

theorem Inv.of_connector (h : Inv sha256 A C s) {k : Connector} (hk : k.Ok sha256 A C)
    (hfds : k.fds = s.connector.fds) : Inv sha256 A C { s with connector := k } := by
  refine ⟨?_, hk, h.nodup, ?_, ?_, ?_⟩
  · show s.acceptor.Ok sha256 A C k.fds
    rw [hfds]
    exact h.acceptor
  · show ∀ fd ∈ s.acceptor.opened ++ s.backlog, fd ∈ k.fds ∨ _
    rw [hfds]
    exact h.opener
  · show ∀ fd bytes, s.strangers fd = some bytes → fd ∉ k.fds
    rw [hfds]
    exact h.foreign
  · show ∀ fd, (fd ∈ k.fds ∨ _) → fd < s.next
    rw [hfds]
    exact h.fresh

theorem Inv.acceptorIo (hvalidate : validateLaneMetadata A.env = true)
    (hsha : sha256 A.parameters = sha256 C.parameters → A.parameters = C.parameters)
    (h : Inv sha256 A C s) {replies : List Reply} (hhonest : Honest A s (.acceptorIo replies)) :
    Inv sha256 A C (step sha256 A C s (.acceptorIo replies)) := by
  refine h.of_acceptor ?_ (Acceptor.opened_io _ _ _)
  refine h.acceptor.io hvalidate hsha h.connector.kept.length_le ?_ ?_ replies
  · intro lane fd hpeer
    have hown : s.strangers fd = none := by
      cases hbytes : s.strangers fd with
      | none => rfl
      | some bytes => exact absurd (List.mem_of_getElem? hpeer) (h.foreign fd bytes hbytes)
    rw [State.up, hown]
    exact h.connector.kept.sent lane fd hpeer
  · intro accepted fd hpc hcurrent
    have hplace := h.acceptor.place
    rw [Acceptor.At, hpc] at hplace
    rcases h.opener fd (List.mem_append_left _ (hplace.1.current_mem hcurrent)) with hpeer | ⟨bytes, hbytes⟩
    · exact Or.inl hpeer
    · refine Or.inr fun lane hlane => hhonest accepted fd bytes lane hpc hcurrent hbytes ?_
      rw [State.up, hbytes] at hlane
      exact hlane

theorem Inv.acceptorFault (h : Inv sha256 A C s) (written : ℕ) (msg : String) :
    Inv sha256 A C (step sha256 A C s (.acceptorFault written msg)) :=
  h.of_acceptor (h.acceptor.fault written msg) (Acceptor.opened_fault _ _ _)

theorem Inv.next_not_mem (h : Inv sha256 A C s) : s.next ∉ s.connector.fds ∧
    s.strangers s.next = none ∧ s.next ∉ s.acceptor.opened ++ s.backlog := by
  refine ⟨fun hmem => ?_, ?_, fun hmem => ?_⟩
  · exact Nat.lt_irrefl _ (h.fresh _ (Or.inl hmem))
  · cases hbytes : s.strangers s.next with
    | none => rfl
    | some bytes => exact absurd (h.fresh _ (Or.inr ⟨bytes, hbytes⟩)) (Nat.lt_irrefl _)
  · exact Nat.lt_irrefl _ (h.fresh _ (h.opener _ hmem))

theorem Inv.backlog_nodup (h : Inv sha256 A C s) :
    (s.acceptor.opened ++ (s.backlog ++ [s.next])).Nodup := by
  rw [← List.append_assoc]
  exact h.nodup.append (List.nodup_singleton _) (List.disjoint_singleton.mpr h.next_not_mem.2.2)

theorem Inv.connect (h : Inv sha256 A C s) {setsockopt : Bool}
    (htuned : Tuned A C s (.connect setsockopt)) :
    Inv sha256 A C (step sha256 A C s (.connect setsockopt)) := by
  obtain ⟨hfds, hstranger, _⟩ := h.next_not_mem
  rw [step]
  split
  next lane hpc =>
    have hopts := setTcpOpts_ok.mpr (htuned lane hpc)
    have hfds' : (s.connector.connectTcpRetry C lane s.next setsockopt).fds =
        s.connector.fds ++ [s.next] := by
      rw [Connector.connectTcpRetry, hopts]
    refine ⟨?_, h.connector.connectTcpRetry hpc hfds hopts, h.backlog_nodup, ?_, ?_, ?_⟩
    · rw [hfds']
      exact h.acceptor.append [s.next]
    · intro fd hfd
      rw [hfds']
      rw [← List.append_assoc] at hfd
      rcases List.mem_append.mp hfd with hold | hnew
      · exact (h.opener fd hold).imp (List.mem_append_left _) id
      · exact Or.inl (List.mem_append_right _ hnew)
    · intro fd bytes hbytes hmem
      rw [hfds'] at hmem
      rcases List.mem_append.mp hmem with hold | hnew
      · exact h.foreign fd bytes hbytes hold
      · rw [List.mem_singleton.mp hnew, hstranger] at hbytes
        cases hbytes
    · intro fd hfd
      rw [hfds'] at hfd
      show fd < s.next + 1
      rcases hfd with hmem | hbytes
      · rcases List.mem_append.mp hmem with hold | hnew
        · exact (h.fresh fd (Or.inl hold)).trans (Nat.lt_succ_self _)
        · rw [List.mem_singleton.mp hnew]
          exact Nat.lt_succ_self _
      · exact (h.fresh fd (Or.inr hbytes)).trans (Nat.lt_succ_self _)
  next => exact h

theorem Inv.connectorIo (hvalidate : validateLaneMetadata C.env = true)
    (hsha : sha256 A.parameters = sha256 C.parameters → A.parameters = C.parameters)
    (h : Inv sha256 A C s) (replies : List Reply) :
    Inv sha256 A C (step sha256 A C s (.connectorIo replies)) :=
  h.of_connector (h.connector.io hvalidate hsha h.acceptor.kept.sent replies) (Connector.fds_io _ _ _)

theorem Inv.connectorFault (h : Inv sha256 A C s) (written : ℕ) (msg : String) :
    Inv sha256 A C (step sha256 A C s (.connectorFault written msg)) :=
  h.of_connector (h.connector.fault written msg) (Connector.fds_fault _ _ _)

theorem Inv.stranger (h : Inv sha256 A C s) :
    Inv sha256 A C (step sha256 A C s .stranger) := by
  obtain ⟨hfds, _, _⟩ := h.next_not_mem
  have hupdate : ∀ fd bytes, Function.update s.strangers s.next (some []) fd = some bytes →
      fd = s.next ∨ s.strangers fd = some bytes := by
    intro fd bytes hbytes
    by_cases heq : fd = s.next
    · exact Or.inl heq
    · rw [Function.update_of_ne heq] at hbytes
      exact Or.inr hbytes
  rw [step]
  refine ⟨h.acceptor, h.connector, h.backlog_nodup, ?_, ?_, ?_⟩
  · intro fd hfd
    by_cases heq : fd = s.next
    · exact Or.inr ⟨[], by rw [heq]; exact Function.update_self _ _ _⟩
    · rw [← List.append_assoc] at hfd
      rcases List.mem_append.mp hfd with hold | hnew
      · refine (h.opener fd hold).imp id fun ⟨bytes, hbytes⟩ => ⟨bytes, ?_⟩
        show Function.update s.strangers s.next (some []) fd = some bytes
        rw [Function.update_of_ne heq, hbytes]
      · exact absurd (List.mem_singleton.mp hnew) heq
  · intro fd bytes hbytes
    rcases hupdate fd bytes hbytes with rfl | hold
    · exact hfds
    · exact h.foreign fd bytes hold
  · intro fd hfd
    show fd < s.next + 1
    rcases hfd with hmem | ⟨bytes, hbytes⟩
    · exact (h.fresh fd (Or.inl hmem)).trans (Nat.lt_succ_self _)
    · rcases hupdate fd bytes hbytes with rfl | hold
      · exact Nat.lt_succ_self _
      · exact (h.fresh fd (Or.inr ⟨bytes, hold⟩)).trans (Nat.lt_succ_self _)

theorem Inv.strangerWrite (h : Inv sha256 A C s) (fd : Conn) (bytes : List UInt8) :
    Inv sha256 A C (step sha256 A C s (.strangerWrite fd bytes)) := by
  have hsome : ∀ fd', (∃ bs, Function.update s.strangers fd ((s.strangers fd).map (· ++ bytes)) fd' =
      some bs) ↔ ∃ bs, s.strangers fd' = some bs := by
    intro fd'
    by_cases heq : fd' = fd
    · rw [heq, Function.update_self]
      cases s.strangers fd with
      | none => exact Iff.rfl
      | some old => exact ⟨fun _ => ⟨old, rfl⟩, fun _ => ⟨old ++ bytes, rfl⟩⟩
    · rw [Function.update_of_ne heq]
  rw [step]
  refine ⟨h.acceptor, h.connector, h.nodup, ?_, ?_, ?_⟩
  · intro fd' hfd'
    exact (h.opener fd' hfd').imp id (hsome fd').mpr
  · intro fd' bs hbs
    obtain ⟨bs', hbs'⟩ := (hsome fd').mp ⟨bs, hbs⟩
    exact h.foreign fd' bs' hbs'
  · intro fd' hfd'
    exact h.fresh fd' (hfd'.imp id (hsome fd').mp)

theorem Inv.step (hA : validateLaneMetadata A.env = true) (hC : validateLaneMetadata C.env = true)
    (hsha : sha256 A.parameters = sha256 C.parameters → A.parameters = C.parameters)
    (h : Inv sha256 A C s) {ev : Event} (hhonest : Honest A s ev) (htuned : Tuned A C s ev) :
    Inv sha256 A C (step sha256 A C s ev) := by
  cases ev with
  | accept fd setsockopt => exact h.accept htuned
  | acceptorIo replies => exact h.acceptorIo hA hsha hhonest
  | acceptorFault written msg => exact h.acceptorFault written msg
  | connect setsockopt => exact h.connect htuned
  | connectorIo replies => exact h.connectorIo hC hsha replies
  | connectorFault written msg => exact h.connectorFault written msg
  | stranger => exact h.stranger
  | strangerWrite fd bytes => exact h.strangerWrite fd bytes

theorem eq_map_some {fds : List (Option Conn)} (h : (fds.flatMap closeTcp).length = fds.length) :
    fds = (fds.flatMap closeTcp).map some := by
  induction fds with
  | nil => rfl
  | cons fd fds ih =>
    cases fd with
    | none =>
      have hle := length_flatMap_closeTcp_le fds
      change (fds.flatMap closeTcp).length = fds.length + 1 at h
      omega
    | some fd => exact congrArg (some fd :: ·) (ih (Nat.succ_injective h))

theorem Acceptor.Running.slot {a : Acceptor} (hr : a.Running A A.lanes) {lane : ℕ}
    (hlt : lane < A.lanes) : ∃ fd, a.fds[lane]? = some (some fd) := by
  rw [← hr.filled] at hlt
  rw [eq_map_some (hr.filled.trans hr.length.symm), List.getElem?_map, List.getElem?_eq_getElem hlt]
  exact ⟨_, rfl⟩

theorem Inv.returned (h : Inv sha256 A C s) (hpc : s.acceptor.pc = .returned) :
    Agreed sha256 A C ∧ s.acceptor.fds.length = A.lanes ∧ s.acceptor.fds.Nodup ∧
      ∀ lane < A.lanes, ∃ fd, s.acceptor.fds[lane]? = some (some fd) ∧
        s.connector.fds[lane]? = some fd ∧ fd ∈ s.acceptor.opened ∧ fd ∉ s.acceptor.closed := by
  have hplace := h.acceptor.place
  rw [Acceptor.At, hpc] at hplace
  obtain ⟨hr, hcurrent⟩ := hplace
  have hopened := hr.opened
  rw [hcurrent] at hopened
  obtain ⟨fd, hfd⟩ := hr.slot A.lanes_bounds.1
  refine ⟨(h.acceptor.kept.slots 0 fd hfd).2, hr.length, ?_, fun lane hlt => ?_⟩
  · rw [eq_map_some (hr.filled.trans hr.length.symm)]
    exact (hopened.nodup_iff.mp (List.nodup_append'.mp h.nodup).1).map (Option.some_injective _)
  · obtain ⟨fd, hfd⟩ := hr.slot hlt
    refine ⟨fd, hfd, (h.acceptor.kept.slots lane fd hfd).1, ?_, ?_⟩
    · apply hopened.mem_iff.mpr
      exact List.mem_flatMap.mpr ⟨some fd, List.mem_of_getElem? hfd, List.mem_singleton_self fd⟩
    · rw [hr.closed]
      exact List.not_mem_nil

theorem Inv.established (h : Inv sha256 A C s) : Established sha256 A C s := by
  refine ⟨?_, ?_, ?_, ?_⟩
  · intro fds hresult
    rw [Acceptor.result] at hresult
    split at hresult
    next hpc =>
      cases hresult
      exact h.returned hpc
    next => cases hresult
  · intro fds hresult
    rw [Connector.result] at hresult
    split at hresult
    next hpc =>
      have hplace := h.connector.place
      rw [Connector.At, hpc] at hplace
      cases hresult
      exact ⟨hplace.2.2, hplace.1⟩
    next => cases hresult
  · intro msg hpc
    have hplace := h.acceptor.place
    rw [Acceptor.At, hpc] at hplace
    refine ⟨?_, (List.nodup_append'.mp h.nodup).1, hplace⟩
    rw [Acceptor.result, hpc]
    rfl
  · intro msg hpc
    have hplace : s.connector.At sha256 A C := h.connector.place
    rw [Connector.At, hpc] at hplace
    refine ⟨?_, ?_, ?_⟩
    · rw [Connector.result, hpc]
      rfl
    · rw [h.connector.kept.opened]
      exact h.connector.nodup
    · rw [h.connector.kept.opened, show s.connector.closed = s.connector.fds from hplace]

theorem Inv.accept_tuned (h : Inv sha256 A C s) {fd : Conn} {setsockopt : Bool} {accepted : ℕ}
    (hpc : s.acceptor.pc = .accept accepted) (hfd : fd ∈ s.backlog)
    (hest : Established sha256 A C (LaneHandshake.step sha256 A C s (.accept fd setsockopt))) :
    setTcpOpts A.env setsockopt = .ok () := by
  cases hopts : setTcpOpts A.env setsockopt with
  | ok u => rfl
  | error msg =>
    have hplace := h.acceptor.place
    rw [Acceptor.At, hpc] at hplace
    have hstep : (LaneHandshake.step sha256 A C s (.accept fd setsockopt)).acceptor =
        Acceptor.throw { s.acceptor with opened := s.acceptor.opened ++ [fd] } msg := by
      rw [LaneHandshake.step, hpc]
      dsimp only
      rw [if_pos hfd]
      show s.acceptor.acceptOne A accepted fd setsockopt = _
      rw [Acceptor.acceptOne, hopts]
    have hclosed := (hest.acceptorThrown msg (by rw [hstep]; rfl)).2.2
    rw [hstep] at hclosed
    have hlength : (s.acceptor.throw msg).closed.length = s.acceptor.opened.length + 1 :=
      hclosed.length_eq.trans List.length_append
    rw [(hplace.1.throw_closed msg).length_eq] at hlength
    omega

theorem Inv.connect_tuned (h : Inv sha256 A C s) {setsockopt : Bool} {lane : ℕ}
    (hpc : s.connector.pc = .connect lane)
    (hest : Established sha256 A C (LaneHandshake.step sha256 A C s (.connect setsockopt))) :
    setTcpOpts C.env setsockopt = .ok () := by
  cases hopts : setTcpOpts C.env setsockopt with
  | ok u => rfl
  | error msg =>
    have hplace := h.connector.place
    rw [Connector.At, hpc] at hplace
    have hstep : (LaneHandshake.step sha256 A C s (.connect setsockopt)).connector =
        Connector.throw { s.connector with opened := s.connector.opened ++ [s.next] } msg := by
      rw [LaneHandshake.step, hpc]
      show s.connector.connectTcpRetry C lane s.next setsockopt = _
      rw [Connector.connectTcpRetry, hopts]
    have hclosed := (hest.connectorThrown msg (by rw [hstep]; rfl)).2.2
    rw [hstep] at hclosed
    have hall : (s.connector.throw msg).Ok sha256 A C :=
      h.connector.kept.throw hplace.2.2.1 h.connector.nodup msg
    have hlength : (s.connector.throw msg).closed.length = s.connector.opened.length + 1 :=
      hclosed.length_eq.trans List.length_append
    rw [show (s.connector.throw msg).closed = s.connector.fds from hall.place,
      h.connector.kept.opened] at hlength
    omega

theorem Inv.not_established (h : Inv sha256 A C s) {ev : Event} (htuned : ¬ Tuned A C s ev) :
    ¬ Established sha256 A C (LaneHandshake.step sha256 A C s ev) := by
  intro hest
  apply htuned
  cases ev with
  | accept fd setsockopt =>
    intro accepted hpc hfd
    exact setTcpOpts_ok.mp (h.accept_tuned hpc hfd hest)
  | connect setsockopt =>
    intro lane hpc
    exact setTcpOpts_ok.mp (h.connect_tuned hpc hest)
  | acceptorIo replies => trivial
  | acceptorFault written msg => trivial
  | connectorIo replies => trivial
  | connectorFault written msg => trivial
  | stranger => trivial
  | strangerWrite fd bytes => trivial

def Event.own : Event → Bool
  | .stranger => false
  | .strangerWrite _ _ => false
  | _ => true

theorem strangers_step {ev : Event} (hown : ev.own = true) :
    (step sha256 A C s ev).strangers = s.strangers := by
  cases ev with
  | accept fd setsockopt =>
    rw [step]
    split
    · split <;> rfl
    · rfl
  | connect setsockopt =>
    rw [step]
    split <;> rfl
  | acceptorIo replies => rfl
  | acceptorFault written msg => rfl
  | connectorIo replies => rfl
  | connectorFault written msg => rfl
  | stranger => cases hown
  | strangerWrite fd bytes => cases hown

theorem honestRun_of_own {evs : List Event} (hown : ∀ ev ∈ evs, ev.own = true)
    (hnone : ∀ fd, s.strangers fd = none) : HonestRun sha256 A C s evs := by
  induction evs generalizing s with
  | nil => trivial
  | cons ev evs ih =>
    refine ⟨?_, ih (fun ev' hev' => hown ev' (List.mem_cons_of_mem _ hev')) fun fd => ?_⟩
    · cases ev with
      | acceptorIo replies =>
        intro accepted fd bytes lane _ _ hbytes
        rw [hnone fd] at hbytes
        cases hbytes
      | _ => trivial
    · rw [strangers_step (hown ev List.mem_cons_self)]
      exact hnone fd

theorem honestRun_append {evs evs' : List Event} : HonestRun sha256 A C s (evs ++ evs') ↔
    HonestRun sha256 A C s evs ∧ HonestRun sha256 A C (evs.foldl (step sha256 A C) s) evs' := by
  induction evs generalizing s with
  | nil => exact ⟨fun h => ⟨trivial, h⟩, And.right⟩
  | cons ev evs ih => exact (and_congr_right fun _ => ih).trans and_assoc.symm

theorem Inv.run (hA : validateLaneMetadata A.env = true) (hC : validateLaneMetadata C.env = true)
    (hsha : sha256 A.parameters = sha256 C.parameters → A.parameters = C.parameters)
    (h : Inv sha256 A C s) (evs : List Event) (hhonest : HonestRun sha256 A C s evs) :
    (∀ t ∈ states sha256 A C s evs, Established sha256 A C t) ↔ TunedRun sha256 A C s evs := by
  induction evs generalizing s with
  | nil =>
    refine ⟨fun _ => trivial, fun _ t ht => ?_⟩
    rw [List.mem_singleton.mp ht]
    exact h.established
  | cons ev evs ih =>
    constructor
    · intro hest
      have hrest : ∀ t ∈ states sha256 A C (LaneHandshake.step sha256 A C s ev) evs,
          Established sha256 A C t := fun t ht => hest t (List.mem_cons_of_mem _ ht)
      have htuned : Tuned A C s ev := by
        by_contra hnot
        apply h.not_established hnot
        apply hrest
        cases evs <;> exact List.mem_cons_self
      exact ⟨htuned, (ih (h.step hA hC hsha hhonest.1 htuned) hhonest.2).mp hrest⟩
    · intro htuned t ht
      rcases List.mem_cons.mp ht with rfl | ht
      · exact h.established
      · exact (ih (h.step hA hC hsha hhonest.1 htuned.1) hhonest.2).mpr htuned.2 t ht

/-- The ends of the lanes agree or close what they opened in every state of a run if and
only if the socket options of each connection can be set. -/
theorem established_iff_tuned (hA : validateLaneMetadata A.env = true)
    (hC : validateLaneMetadata C.env = true)
    (hsha : sha256 A.parameters = sha256 C.parameters → A.parameters = C.parameters)
    (evs : List Event) (hhonest : HonestRun sha256 A C (start A C) evs) :
    (∀ t ∈ states sha256 A C (start A C) evs, Established sha256 A C t) ↔
      TunedRun sha256 A C (start A C) evs :=
  inv_start.run hA hC hsha evs hhonest

def soleLane (timeout : Option String) : LaneEnd where
  env := fun name =>
    if name = "CG_VALIDATE_LANES" then some "1"
    else if name = "CG_IO_TIMEOUT_S" then timeout else none
  numbers := ⟨11, -143, -17303⟩
  lanes := 1
  count := 1
  lanes_eq := rfl
  count_lt := by decide

def soleDigest (text : String) : Digest where
  bytes :=
    if text = "CG-LANES-V2:11:-143:-17303:1:manual" then
      [114, 8, 22, 92, 223, 38, 170, 10, 6, 211, 128, 43, 255, 164, 109, 82, 114, 57, 46, 42, 237,
        19, 55, 2, 49, 228, 230, 52, 138, 36, 246, 91]
    else List.replicate 32 0
  length_eq := by split <;> rfl

def pairLane : LaneEnd where
  env := fun name =>
    if name = "CG_VALIDATE_LANES" then some "1"
    else if name = "CG_RF_LANES" then some "2" else none
  numbers := ⟨11, -143, -17303⟩
  lanes := 2
  count := 5
  lanes_eq := rfl
  count_lt := by decide

def pairStart : State := start pairLane pairLane

def openLane : List Event :=
  [.connect true, .connectorIo (List.replicate 2 (.moved 3)),
    .connectorIo (List.replicate 8 (.moved 31))]

def takeLane (fd : Conn) : List Event :=
  [.accept fd true, .acceptorIo (List.replicate 2 (.moved 3)),
    .acceptorIo (List.replicate 8 (.moved 31)), .acceptorIo (List.replicate 8 (.moved 31))]

def confirmLane : Event := .connectorIo (List.replicate 8 (.moved 31))

def pairEvents : List Event :=
  openLane ++ takeLane 0 ++ [confirmLane] ++ (openLane ++ takeLane 1 ++ [confirmLane])

/-- After the first lane a stranger presents the id of that lane. -/
def strangerEvents : List Event :=
  [.stranger, .strangerWrite 1 (encodeU64 0), .accept 1 true,
    .acceptorIo (List.replicate 2 (.moved 3)), confirmLane, .connectorFault 0 "connect failed"]

theorem honestRun_stranger :
    HonestRun soleDigest pairLane pairLane pairStart (openLane ++ takeLane 0 ++ strangerEvents) := by
  refine honestRun_append.mpr ⟨honestRun_of_own (by decide) fun _ => rfl, trivial, trivial, trivial,
    ?_, trivial, trivial, trivial⟩
  intro accepted fd bytes lane _ hcurrent hbytes hlane
  generalize hs : step soleDigest pairLane pairLane _ (.accept 1 true) = s at *
  have hfd : s.acceptor.current = some 1 := by
    rw [← hs]
    decide +kernel
  rw [hfd] at hcurrent
  obtain rfl := Option.some.inj hcurrent
  have hwritten : s.strangers 1 = some (encodeU64 0) := by
    rw [← hs]
    decide +kernel
  rw [hwritten] at hbytes
  obtain rfl := Option.some.inj hbytes
  obtain rfl := encodeU64_inj (v := 0) hlane
  refine .inr ⟨0, ?_⟩
  rw [← hs]
  decide +kernel

/-- Both lanes are established, and the stranger is refused with all connections closed. -/
theorem established_iff_tuned_pair :
    ((∀ t ∈ states soleDigest pairLane pairLane pairStart pairEvents,
        Established soleDigest pairLane pairLane t) ↔
      TunedRun soleDigest pairLane pairLane pairStart pairEvents) ∧
    (states soleDigest pairLane pairLane pairStart pairEvents).getLast?.map
      (fun t => (t.acceptor.result, t.connector.result)) = some (some [some 0, some 1], some [0, 1]) ∧
    ((∀ t ∈ states soleDigest pairLane pairLane pairStart (openLane ++ takeLane 0 ++ strangerEvents),
        Established soleDigest pairLane pairLane t) ↔
      TunedRun soleDigest pairLane pairLane pairStart (openLane ++ takeLane 0 ++ strangerEvents)) ∧
    (states soleDigest pairLane pairLane pairStart (openLane ++ takeLane 0 ++ strangerEvents)).getLast?.map
      (fun t => (t.acceptor.pc, t.acceptor.closed, t.connector.closed)) =
        some (.thrown "invalid or duplicate RF lane id", [1, 0], [0]) :=
  ⟨established_iff_tuned rfl rfl (fun _ => rfl) pairEvents
      (honestRun_of_own (by decide) fun _ => rfl), by decide +kernel,
    established_iff_tuned rfl rfl (fun _ => rfl) _ honestRun_stranger, by decide +kernel⟩

/-- With a timeout of zero, the connection that was opened first stays open. -/
theorem connect_leaks_sole :
    validateLaneMetadata (soleLane none).env = true ∧
    validateLaneMetadata (soleLane (some "0")).env = true ∧
    HonestRun soleDigest (soleLane none) (soleLane (some "0"))
      (start (soleLane none) (soleLane (some "0"))) [.connect true] ∧
    ∃ t ∈ states soleDigest (soleLane none) (soleLane (some "0"))
        (start (soleLane none) (soleLane (some "0"))) [.connect true],
      t.connector.pc = .thrown "out-of-range count: CG_IO_TIMEOUT_S" ∧
      t.connector.opened = [0] ∧ t.connector.closed = [] ∧
      ¬ Established soleDigest (soleLane none) (soleLane (some "0")) t := by
  refine ⟨rfl, rfl, ⟨trivial, trivial⟩, _, List.mem_cons_of_mem _ List.mem_cons_self, rfl, rfl, rfl, ?_⟩
  intro h
  have hclosed := (h.connectorThrown _ rfl).2.2
  exact absurd hclosed.length_eq (by decide)

end RfClassGroups.LaneHandshake
