import Mathlib.Data.List.GetD
import Mathlib.Order.Monotone.Basic
import RfClassGroups.Config
import RfClassGroups.Lib.Buffer
import RfClassGroups.Lib.Loops

/-! The lane transport: a batch of ciphertexts is sharded into contiguous ranges,
one lane each. A lane is the queue of the ciphertexts in flight. The lane
threads of one call touch disjoint lanes and disjoint entries, so they run in
lane order here. -/

open ExceptList Loops Buffer

namespace RfClassGroups

def rfTransportLanes (env : Env) : Except String ℕ := cgConfigSize env "CG_RF_LANES" 1 64 false

def rfChunkSize (env : Env) : Except String ℕ := cgConfigSize env "CG_RF_CHUNK_SIZE" 64 0 false

def laneBegin (n lanes lane : ℕ) : ℕ := n / lanes * lane + n % lanes * lane / lanes

def rfLaneRange (env : Env) (n lanes lane : ℕ) : Except String (ℕ × ℕ) := do
  cgValidateCount env n false
  if lanes = 0 ∨ 64 < lanes ∨ lanes ≤ lane then throw "invalid lane range"
  return (laneBegin n lanes lane, laneBegin n lanes (lane + 1))

def rfLaneRangeIntersection (env : Env) (n lanes lane b e : ℕ) : Except String (ℕ × ℕ) := do
  let range ← rfLaneRange env n lanes lane
  return (max range.1 b, min range.2 e)

abbrev Lanes (α : Type) := List (List α)

def rfActiveLanes {α : Type} (env : Env) (fds : Lanes α) (n size b e : ℕ) :
    Except String (List ℕ) := do
  cgValidateCount env n false
  if fds = [] ∨ 64 < fds.length ∨ size < n ∨ e < b ∨ n < e then throw "invalid RF I/O range"
  let ranges ← (List.range fds.length).mapM fun lane =>
    rfLaneRangeIntersection env n fds.length lane b e
  return (List.range fds.length).filter fun lane =>
    (ranges.getD lane (0, 0)).1 < (ranges.getD lane (0, 0)).2

section

variable {α : Type} [Inhabited α]

/-- One direction of a fresh connection; the endpoints check the count. -/
def openLanes (α : Type) (env : Env) (lanes count : ℕ) : Except String (Lanes α) := do
  cgValidateCount env count false
  return List.replicate lanes []

def sendSlice (fds : Lanes α) (values : List α) (lane b e : ℕ) : Lanes α :=
  fds.set lane (fds.getD lane [] ++ (List.range' b (e - b)).map fun i => values.getD i default)

def sendCtLanesRange (env : Env) (fds : Lanes α) (values : List α) (n b e : ℕ) :
    Except String (Lanes α) := do
  let lanes ← rfActiveLanes env fds n values.length b e
  if fds.length = 1 then return sendSlice fds values 0 b e
  else lanes.foldlM (fun fds lane => do
    let range ← rfLaneRangeIntersection env n fds.length lane b e
    return sendSlice fds values lane range.1 range.2) fds

/-- The receiving loop of one lane: `count` entries from index `i`. A read from
a lane that its peer has closed throws. -/
def recvLoop (queue values : List α) (i : ℕ) : ℕ → Except String (List α × List α)
  | 0 => return (queue, values)
  | count + 1 =>
    match queue with
    | [] => throw "read: end of stream"
    | c :: queue => recvLoop queue (values.set i c) (i + 1) count

def recvSlice (fds : Lanes α) (values : List α) (lane b e : ℕ) :
    Except String (Lanes α × List α) := do
  let r ← recvLoop (fds.getD lane []) values b (e - b)
  return (fds.set lane r.1, r.2)

def recvCtLanesRange (env : Env) (fds : Lanes α) (values : List α) (n b e : ℕ) :
    Except String (Lanes α × List α) := do
  let lanes ← rfActiveLanes env fds n values.length b e
  if fds.length = 1 then recvSlice fds values 0 b e
  else lanes.foldlM (fun state lane => do
    let range ← rfLaneRangeIntersection env n state.1.length lane b e
    recvSlice state.1 state.2 lane range.1 range.2) (fds, values)

/-- `pool.parallel_for(b, e, fn)` for a loop body that fills its own entry of a
buffer: the bodies are independent, so they run in index order. -/
def parallelFor (b e : ℕ) (buf : List α) (fn : ℕ → Except String α) : Except String (List α) :=
  (List.range' b (e - b)).foldlM (fun buf i => do
    let v ← fn i
    return buf.set i v) buf

def sendCtLanes (env : Env) (fds : Lanes α) (values : List α) (n : ℕ) :
    Except String (Lanes α) := sendCtLanesRange env fds values n 0 n

def recvCtLanes (env : Env) (fds : Lanes α) (values : List α) (n : ℕ) :
    Except String (Lanes α × List α) := recvCtLanesRange env fds values n 0 n

end

theorem laneBegin_zero (n lanes : ℕ) : laneBegin n lanes 0 = 0 := by simp [laneBegin]

theorem laneBegin_last {n lanes : ℕ} (h : 0 < lanes) : laneBegin n lanes lanes = n := by
  rw [laneBegin, Nat.mul_div_cancel _ h]
  exact Nat.div_add_mod' n lanes

theorem laneBegin_mono (n lanes : ℕ) : Monotone (laneBegin n lanes) := fun _ _ hab =>
  Nat.add_le_add (Nat.mul_le_mul_left _ hab)
    (Nat.div_le_div_right (Nat.mul_le_mul_left _ hab))

theorem exists_lane {n lanes i : ℕ} (h0 : 0 < lanes) (hi : i < n) :
    ∃ lane < lanes, laneBegin n lanes lane ≤ i ∧ i < laneBegin n lanes (lane + 1) := by
  have hlast : i < laneBegin n lanes lanes := by rwa [laneBegin_last h0]
  have hk : ∀ k, i < laneBegin n lanes k →
      ∃ lane < k, laneBegin n lanes lane ≤ i ∧ i < laneBegin n lanes (lane + 1) := by
    intro k
    induction k with
    | zero => simp [laneBegin_zero]
    | succ k ih =>
      intro hlt
      by_cases hik : i < laneBegin n lanes k
      · obtain ⟨lane, hl, hb⟩ := ih hik
        exact ⟨lane, hl.trans k.lt_succ_self, hb⟩
      · exact ⟨k, k.lt_succ_self, not_lt.mp hik, hlt⟩
  exact hk lanes hlast

theorem lane_unique {n lanes i j k : ℕ} (hj : laneBegin n lanes j ≤ i)
    (hj' : i < laneBegin n lanes (j + 1)) (hk : laneBegin n lanes k ≤ i)
    (hk' : i < laneBegin n lanes (k + 1)) : j = k := by
  rcases lt_trichotomy j k with h | h | h
  · have hle := laneBegin_mono n lanes (Nat.succ_le_of_lt h)
    exact absurd (hj'.trans_le (hle.trans hk)) (lt_irrefl i)
  · exact h
  · have hle := laneBegin_mono n lanes (Nat.succ_le_of_lt h)
    exact absurd (hk'.trans_le (hle.trans hj)) (lt_irrefl i)

structure LaneCount (env : Env) (n lanes : ℕ) : Prop where
  count : cgValidateCount env n false = .ok ()
  pos : 0 < lanes
  le : lanes ≤ 64

/-- The transport settings of one process for a batch of `n` ciphertexts. -/
structure Transport (env : Env) (n lanes chunk : ℕ) : Prop where
  lanes_eq : rfTransportLanes env = .ok lanes
  chunk_eq : rfChunkSize env = .ok chunk
  count : cgValidateCount env n false = .ok ()

section

variable {env : Env} {n lanes chunk : ℕ}

theorem Transport.lanes_bounds (ht : Transport env n lanes chunk) : 0 < lanes ∧ lanes ≤ 64 :=
  ⟨cgConfigSize_pos Nat.one_pos ht.lanes_eq, cgConfigSize_le (by decide) (by decide) ht.lanes_eq⟩

theorem Transport.chunk_pos (ht : Transport env n lanes chunk) : 0 < chunk :=
  cgConfigSize_pos (by decide) ht.chunk_eq

theorem Transport.laneCount (ht : Transport env n lanes chunk) : LaneCount env n lanes :=
  ⟨ht.count, ht.lanes_bounds.1, ht.lanes_bounds.2⟩

theorem rfLaneRange_eq (hc : LaneCount env n lanes) {lane : ℕ} (hl : lane < lanes) :
    rfLaneRange env n lanes lane = .ok (laneBegin n lanes lane, laneBegin n lanes (lane + 1)) := by
  obtain ⟨hcount, h0, h64⟩ := hc
  rw [rfLaneRange, hcount, ok_bind, if_neg (by omega)]
  rfl

theorem rfLaneRangeIntersection_eq (hc : LaneCount env n lanes) {lane : ℕ} (hl : lane < lanes)
    (b e : ℕ) : rfLaneRangeIntersection env n lanes lane b e =
      .ok (max (laneBegin n lanes lane) b, min (laneBegin n lanes (lane + 1)) e) := by
  rw [rfLaneRangeIntersection, rfLaneRange_eq hc hl]
  rfl

structure Shards (range : ℕ → ℕ × ℕ) (n lanes : ℕ) : Prop where
  first : (range 0).1 = 0
  last : (range (lanes - 1)).2 = n
  contiguous : ∀ lane, lane + 1 < lanes → (range lane).2 = (range (lane + 1)).1
  le : ∀ lane < lanes, (range lane).1 ≤ (range lane).2
  exactly_one : ∀ i < n, ∃! lane, lane < lanes ∧ (range lane).1 ≤ i ∧ i < (range lane).2

theorem rfLaneRange_shards (hc : LaneCount env n lanes) : ∃ range,
    (∀ lane < lanes, rfLaneRange env n lanes lane = .ok (range lane)) ∧ Shards range n lanes := by
  refine ⟨fun lane => (laneBegin n lanes lane, laneBegin n lanes (lane + 1)),
    fun lane hl => rfLaneRange_eq hc hl, laneBegin_zero n lanes, ?_, fun _ _ => rfl,
    fun lane _ => laneBegin_mono n lanes (Nat.le_succ lane), fun i hi => ?_⟩
  · dsimp only
    rw [Nat.sub_add_cancel hc.pos, laneBegin_last hc.pos]
  · obtain ⟨lane, hl, hb, he⟩ := exists_lane hc.pos hi
    exact ⟨lane, ⟨hl, hb, he⟩, fun lane' h' => lane_unique h'.2.1 h'.2.2 hb he⟩

def laneTerms (n lanes lane : ℕ) : List ℕ :=
  [lane, n / lanes, n / lanes * lane, n % lanes, n % lanes * lane, n % lanes * lane / lanes,
    n / lanes * lane + n % lanes * lane / lanes]

theorem laneTerms_lt (hc : LaneCount env n lanes) {lane : ℕ} (hl : lane ≤ lanes) :
    ∀ t ∈ laneTerms n lanes lane, t < 2 ^ 64 := by
  obtain ⟨_, limit, hlimit, hle⟩ := cgValidateCount_ok.mp hc.count
  have hn : n ≤ 2 ^ 24 := hle.trans (cgMaxItems_le hlimit)
  have h64 : lane ≤ 64 := hl.trans hc.le
  have hq : n / lanes ≤ 2 ^ 24 := (Nat.div_le_self n lanes).trans hn
  have hr : n % lanes ≤ 2 ^ 24 := (Nat.mod_le n lanes).trans hn
  have hql : n / lanes * lane ≤ 2 ^ 24 * 64 := Nat.mul_le_mul hq h64
  have hrl : n % lanes * lane ≤ 2 ^ 24 * 64 := Nat.mul_le_mul hr h64
  have hrd := (Nat.div_le_self (n % lanes * lane) lanes).trans hrl
  intro t ht
  simp only [laneTerms, List.mem_cons, List.not_mem_nil, or_false] at ht
  rcases ht with rfl | rfl | rfl | rfl | rfl | rfl | rfl <;> omega

theorem rfActiveLanes_eq {α : Type} (hc : LaneCount env n lanes) {fds : Lanes α}
    (hfds : fds.length = lanes) {size b e : ℕ} (hsize : n ≤ size) (hbe : b ≤ e) (hen : e ≤ n) :
    rfActiveLanes env fds n size b e = .ok ((List.range lanes).filter fun lane =>
      max (laneBegin n lanes lane) b < min (laneBegin n lanes (lane + 1)) e) := by
  obtain ⟨hcount, h0, h64⟩ := id hc
  have hne : fds ≠ [] := List.ne_nil_of_length_pos (hfds ▸ h0)
  have hranges : (List.range lanes).mapM (fun lane => rfLaneRangeIntersection env n lanes lane b e) =
      .ok ((List.range lanes).map fun lane =>
        (max (laneBegin n lanes lane) b, min (laneBegin n lanes (lane + 1)) e)) :=
    mapM_of_forall fun lane hl => rfLaneRangeIntersection_eq hc (List.mem_range.mp hl) b e
  rw [rfActiveLanes, hcount, ok_bind, if_neg (by simp [hne]; omega), hfds]
  simp only [pure_eq_ok, ok_bind, hranges]
  refine congrArg Except.ok (List.filter_congr fun lane hl => ?_)
  rw [List.getD_eq_getElem _ _ (by simpa using hl), List.getElem_map, List.getElem_range]

end

section

variable {α : Type} (c : ℕ → α) (n lanes : ℕ)

def laneQueue (i j lane : ℕ) : List α :=
  (List.range' (max (laneBegin n lanes lane) i)
    (min (laneBegin n lanes (lane + 1)) j - max (laneBegin n lanes lane) i)).map c

def lanesOf (lanes : ℕ) (q : ℕ → List α) : Lanes α := (List.range lanes).map q

theorem length_lanesOf (lanes : ℕ) (q : ℕ → List α) : (lanesOf lanes q).length = lanes := by
  simp [lanesOf]

def inFlight (i j : ℕ) : Lanes α := lanesOf lanes (laneQueue c n lanes i j)

theorem inFlight_self (i : ℕ) : inFlight c n lanes i i = List.replicate lanes [] := by
  refine List.eq_replicate_iff.mpr ⟨length_lanesOf lanes _, fun q hq => ?_⟩
  obtain ⟨lane, _, rfl⟩ := List.mem_map.mp hq
  have h0 : min (laneBegin n lanes (lane + 1)) i - max (laneBegin n lanes lane) i = 0 := by omega
  rw [laneQueue, h0]
  rfl

theorem openLanes_eq {env : Env} {chunk : ℕ} (ht : Transport env n lanes chunk) :
    openLanes α env lanes n = .ok (inFlight c n lanes 0 0) := by
  rw [openLanes, ht.count, inFlight_self]
  rfl

theorem range'_append_of_le {lb le i b e : ℕ} (hib : i ≤ b) (hbe : b ≤ e) :
    List.range' (max lb i) (min le b - max lb i) ++ List.range' (max lb b) (min le e - max lb b) =
      List.range' (max lb i) (min le e - max lb i) := by
  rcases le_or_gt le b with hle | hlt
  · have h0 : min le e - max lb b = 0 := by omega
    rw [h0, min_eq_left hle, min_eq_left (hle.trans hbe), List.range'_zero, List.append_nil]
  rw [min_eq_right hlt.le]
  rcases le_or_gt lb b with hlb | hlb
  · have hlo : max lb i ≤ b := max_le hlb hib
    obtain ⟨k, hk⟩ := Nat.exists_eq_add_of_le hlo
    have hfirst : b - max lb i = k := by omega
    have hcount : min le e - max lb i = k + (min le e - b) := by omega
    rw [max_eq_right hlb, hfirst, hcount, ← List.range'_append_1, ← hk]
  · have hlo : max lb i = lb := max_eq_left (hib.trans hlb.le)
    have h0 : b - lb = 0 := by omega
    rw [hlo, max_eq_left hlb.le, h0, List.range'_zero, List.nil_append]

theorem laneQueue_append {i b e : ℕ} (hib : i ≤ b) (hbe : b ≤ e) (lane : ℕ) :
    laneQueue c n lanes i b lane ++ laneQueue c n lanes b e lane = laneQueue c n lanes i e lane := by
  rw [laneQueue, laneQueue, laneQueue, ← List.map_append, range'_append_of_le hib hbe]

theorem laneQueue_eq_nil {b e lane : ℕ}
    (h : ¬ max (laneBegin n lanes lane) b < min (laneBegin n lanes (lane + 1)) e) :
    laneQueue c n lanes b e lane = [] := by
  rw [laneQueue, Nat.sub_eq_zero_of_le (not_lt.mp h)]
  rfl

def updateLanes (q q' : ℕ → List α) (lanes j : ℕ) : Lanes α :=
  (List.range lanes).map fun lane => if lane < j then q' lane else q lane

theorem length_updateLanes (q q' : ℕ → List α) (j : ℕ) :
    (updateLanes q q' lanes j).length = lanes := by simp [updateLanes]

theorem updateLanes_zero (q q' : ℕ → List α) :
    updateLanes q q' lanes 0 = (List.range lanes).map q := by simp [updateLanes]

theorem updateLanes_last (q q' : ℕ → List α) :
    updateLanes q q' lanes lanes = (List.range lanes).map q' :=
  List.map_congr_left fun _ hl => if_pos (List.mem_range.mp hl)

theorem updateLanes_getD (q q' : ℕ → List α) {j : ℕ} (hj : j < lanes) :
    (updateLanes q q' lanes j).getD j [] = q j := by
  rw [List.getD_eq_getElem _ _ (by simpa [updateLanes] using hj)]
  simp [updateLanes]

theorem updateLanes_succ (q q' : ℕ → List α) (j : ℕ) :
    (updateLanes q q' lanes j).set j (q' j) = updateLanes q q' lanes (j + 1) := by
  refine List.ext_getElem (by simp [updateLanes]) fun lane h h' => ?_
  rw [List.getElem_set]
  simp only [updateLanes, List.getElem_map, List.getElem_range]
  by_cases hlane : j = lane
  · subst hlane
    simp
  · rw [if_neg hlane]
    simp only [Nat.lt_succ_iff, (Ne.symm hlane).le_iff_lt]

theorem updateLanes_skip (q q' : ℕ → List α) {j : ℕ} (h : q j = q' j) :
    updateLanes q q' lanes (j + 1) = updateLanes q q' lanes j := by
  refine List.map_congr_left fun lane _ => ?_
  by_cases hlane : lane = j
  · subst hlane
    simp [h]
  · simp only [Nat.lt_succ_iff, Ne.le_iff_lt hlane]

end

section

variable {α : Type} [Inhabited α] {env : Env} {n lanes chunk b e : ℕ} {c : ℕ → α}

theorem sendSlice_lane (n lanes : ℕ) (fds : Lanes α) {values : List α} (lane : ℕ)
    (hval : ∀ j, b ≤ j → j < e → values.getD j default = c j) :
    sendSlice fds values lane (max (laneBegin n lanes lane) b)
      (min (laneBegin n lanes (lane + 1)) e) =
      fds.set lane (fds.getD lane [] ++ laneQueue c n lanes b e lane) := by
  rw [sendSlice, laneQueue]
  congr 2
  refine List.map_congr_left fun j hj => ?_
  rw [List.mem_range'_1] at hj
  exact hval j (by omega) (by omega)

theorem sendCtLanesRange_append (ht : Transport env n lanes chunk) {values : List α}
    {q : ℕ → List α} (q' : ℕ → List α) (hq : ∀ lane, q lane ++ laneQueue c n lanes b e lane = q' lane)
    (hbe : b ≤ e) (hen : e ≤ n) (hlen : n ≤ values.length)
    (hval : ∀ j, b ≤ j → j < e → values.getD j default = c j) :
    sendCtLanesRange env (lanesOf lanes q) values n b e = .ok (lanesOf lanes q') := by
  have hL := length_lanesOf lanes q
  rw [sendCtLanesRange, rfActiveLanes_eq ht.laneCount hL hlen hbe hen, ok_bind, hL]
  split
  · next h1 =>
    subst h1
    have hslice := sendSlice_lane n 1 (lanesOf 1 q) 0 hval
    rw [laneBegin_zero, Nat.zero_add, laneBegin_last Nat.one_pos, Nat.zero_max,
      min_eq_right hen] at hslice
    rw [hslice, lanesOf, lanesOf]
    simp [hq]
  rw [List.foldlM_filter, lanesOf, lanesOf, ← updateLanes_zero lanes q q',
    ← updateLanes_last lanes q q']
  refine foldlM_range_eq (g := updateLanes q q' lanes) fun j hj => ?_
  split
  · rw [length_updateLanes, rfLaneRangeIntersection_eq ht.laneCount hj, ok_bind, sendSlice_lane n lanes _ j hval,
      updateLanes_getD lanes _ _ hj, hq, updateLanes_succ]
    rfl
  · next hact =>
    have hnil := hq j
    rw [laneQueue_eq_nil c n lanes (by simpa using hact), List.append_nil] at hnil
    rw [updateLanes_skip lanes _ _ hnil]
    rfl

theorem sendCtLanesRange_eq (ht : Transport env n lanes chunk) {values : List α} {i : ℕ}
    (hib : i ≤ b) (hbe : b ≤ e) (hen : e ≤ n) (hlen : n ≤ values.length)
    (hval : ∀ j, b ≤ j → j < e → values.getD j default = c j) :
    sendCtLanesRange env (inFlight c n lanes i b) values n b e = .ok (inFlight c n lanes i e) :=
  sendCtLanesRange_append ht _ (laneQueue_append c n lanes hib hbe) hbe hen hlen hval

theorem recvLoop_eq (c : ℕ → α) (rest values : List α) (i count : ℕ)
    (hlen : i + count ≤ values.length) :
    recvLoop ((List.range' i count).map c ++ rest) values i count =
      .ok (rest, filled c values i (i + count)) := by
  induction count generalizing i values with
  | zero =>
    rw [Nat.add_zero, filled_self, recvLoop]
    rfl
  | succ count ih =>
    rw [List.range'_succ, List.map_cons, List.cons_append, recvLoop,
      ih _ _ (by rw [List.length_set]; omega), filled_set c values i,
      filled_append c values (by omega) (by omega), Nat.add_right_comm i 1 count, Nat.add_assoc]

theorem recvSlice_lane (fds : Lanes α) (values : List α) {rest : List α} (lane : ℕ)
    (hq : fds.getD lane [] = laneQueue c n lanes b e lane ++ rest) (hlen : e ≤ values.length)
    (hact : max (laneBegin n lanes lane) b ≤ min (laneBegin n lanes (lane + 1)) e) :
    recvSlice fds values lane (max (laneBegin n lanes lane) b)
      (min (laneBegin n lanes (lane + 1)) e) =
      .ok (fds.set lane rest, filled c values (max (laneBegin n lanes lane) b)
        (min (laneBegin n lanes (lane + 1)) e)) := by
  rw [recvSlice, hq, laneQueue, recvLoop_eq c rest values _ _ (by omega), ok_bind,
    Nat.add_sub_cancel' hact]
  rfl

theorem recvCtLanesRange_append (ht : Transport env n lanes chunk) {values : List α}
    {q : ℕ → List α} (q' : ℕ → List α) (hq : ∀ lane, q lane = laneQueue c n lanes b e lane ++ q' lane)
    (hbe : b ≤ e) (hen : e ≤ n) (hlen : n ≤ values.length) :
    recvCtLanesRange env (lanesOf lanes q) values n b e =
      .ok (lanesOf lanes q', filled c values b e) := by
  have hL := length_lanesOf lanes q
  have hmono := laneBegin_mono n lanes
  rw [recvCtLanesRange, rfActiveLanes_eq ht.laneCount hL hlen hbe hen, ok_bind, hL]
  split
  · next h1 =>
    subst h1
    have hslice := recvSlice_lane (lanesOf 1 q) values 0 (hq 0) (hen.trans hlen) (by
        rw [laneBegin_zero, Nat.zero_add, laneBegin_last Nat.one_pos]
        omega)
    rw [laneBegin_zero, Nat.zero_add, laneBegin_last Nat.one_pos, Nat.zero_max,
      min_eq_right hen] at hslice
    rw [hslice]
    rfl
  rw [List.foldlM_filter]
  -- the lanes below `k` have filled the buffer up to their last index
  have hfold := foldlM_range_eq (ε := String) (n := lanes)
    (g := fun k => (updateLanes q q' lanes k,
      filled c values b (min e (max b (laneBegin n lanes k)))))
    (f := fun state lane =>
      if decide (max (laneBegin n lanes lane) b < min (laneBegin n lanes (lane + 1)) e) = true then do
        let range ← rfLaneRangeIntersection env n state.1.length lane b e
        recvSlice state.1 state.2 lane range.1 range.2
      else pure state) fun k hk => ?_
  · obtain ⟨h0, _⟩ := ht.lanes_bounds
    simp only [updateLanes_zero, updateLanes_last, laneBegin_zero, laneBegin_last h0] at hfold
    rw [max_eq_left (Nat.zero_le b), min_eq_right hbe, filled_self, max_eq_right (hbe.trans hen),
      min_eq_left hen] at hfold
    exact hfold
  have hk1 := hmono (Nat.le_add_right k 1)
  dsimp only
  split
  · next hact =>
    rw [decide_eq_true_iff] at hact
    have hqk : (updateLanes q q' lanes k).getD k [] = laneQueue c n lanes b e k ++ q' k := by
      rw [updateLanes_getD lanes _ _ hk, hq]
    have hm : min e (max b (laneBegin n lanes k)) = max (laneBegin n lanes k) b := by omega
    have hm' : min e (max b (laneBegin n lanes (k + 1))) = min (laneBegin n lanes (k + 1)) e := by
      omega
    rw [length_updateLanes, rfLaneRangeIntersection_eq ht.laneCount hk, ok_bind,
      recvSlice_lane _ _ k hqk (by rw [length_filled]; omega) hact.le, updateLanes_succ, hm, hm',
      filled_append c values (le_max_right _ _) hact.le]
  · next hact =>
    rw [decide_eq_true_iff] at hact
    have hnil := hq k
    rw [laneQueue_eq_nil c n lanes hact, List.nil_append] at hnil
    have hm : min e (max b (laneBegin n lanes (k + 1))) = min e (max b (laneBegin n lanes k)) := by
      omega
    rw [updateLanes_skip lanes _ _ hnil, hm]
    rfl

theorem recvCtLanesRange_eq (ht : Transport env n lanes chunk) {values : List α} {j : ℕ}
    (hbe : b ≤ e) (hej : e ≤ j) (hen : e ≤ n) (hlen : n ≤ values.length) :
    recvCtLanesRange env (inFlight c n lanes b j) values n b e =
      .ok (inFlight c n lanes e j, filled c values b e) :=
  recvCtLanesRange_append ht _ (fun lane => (laneQueue_append c n lanes hbe hej lane).symm) hbe hen
    hlen

/-- A chunk taken off lanes that hold more behind the round. -/
theorem recvCtLanesRange_rest (ht : Transport env n lanes chunk) (inQ : ℕ → List α) {buf : List α}
    (hbe : b ≤ e) (hen : e ≤ n) (hbuf : n ≤ buf.length) :
    recvCtLanesRange env (lanesOf lanes fun lane => laneQueue c n lanes b n lane ++ inQ lane)
      (filled c buf 0 b) n b e =
      .ok (lanesOf lanes fun lane => laneQueue c n lanes e n lane ++ inQ lane, filled c buf 0 e) := by
  rw [recvCtLanesRange_append ht (fun lane => laneQueue c n lanes e n lane ++ inQ lane)
      (fun lane => by rw [← List.append_assoc, laneQueue_append c n lanes hbe hen]) hbe hen
      (by rwa [length_filled]), filled_append c buf (Nat.zero_le b) hbe]

theorem sendCtLanesRange_rest (ht : Transport env n lanes chunk) (outQ : ℕ → List α) {buf : List α}
    (hbe : b ≤ e) (hen : e ≤ n) (hbuf : n ≤ buf.length) :
    sendCtLanesRange env (lanesOf lanes fun lane => outQ lane ++ laneQueue c n lanes 0 b lane)
      (filled c buf 0 e) n b e =
      .ok (lanesOf lanes fun lane => outQ lane ++ laneQueue c n lanes 0 e lane) :=
  sendCtLanesRange_append ht _
    (fun lane => by rw [List.append_assoc, laneQueue_append c n lanes (Nat.zero_le b) hbe]) hbe hen
    (by rwa [length_filled]) fun _ _ hj => filled_getD_of_lt c hj (hen.trans hbuf)

theorem openLanes_nil (ht : Transport env n lanes chunk) :
    openLanes α env lanes n = .ok (lanesOf lanes fun _ => []) := by
  rw [openLanes_eq (fun _ => default) n lanes ht, inFlight_self, lanesOf, List.map_const',
    List.length_range]

theorem sendCtLanes_append (ht : Transport env n lanes chunk) (values : List α)
    (q : ℕ → List α) (hlen : n ≤ values.length) (hval : ∀ i < n, values.getD i default = c i) :
    sendCtLanes env (lanesOf lanes q) values n =
      .ok (lanesOf lanes fun lane => q lane ++ laneQueue c n lanes 0 n lane) :=
  sendCtLanesRange_append ht _ (fun _ => rfl) (Nat.zero_le n) le_rfl hlen fun i _ hi => hval i hi

theorem recvCtLanes_append (ht : Transport env n lanes chunk) (values : List α)
    (q : ℕ → List α) (hlen : n ≤ values.length) :
    recvCtLanes env (lanesOf lanes fun lane => laneQueue c n lanes 0 n lane ++ q lane) values n =
      .ok (lanesOf lanes q, filled c values 0 n) :=
  recvCtLanesRange_append ht _ (fun _ => rfl) (Nat.zero_le n) le_rfl hlen

theorem parallelFor_eq (buf : List α) {f : ℕ → Except String α} (hbe : b ≤ e)
    (hf : ∀ i, b ≤ i → i < e → f i = .ok (c i)) :
    parallelFor b e buf f = .ok (filled c buf b e) := by
  have hfold := foldlM_range_eq (ε := String) (n := e - b) (g := fun k => filled c buf b (b + k))
    (f := fun buf k => do
      let v ← f (b + k)
      pure (buf.set (b + k) v)) fun k hk => ?_
  · rw [Nat.add_zero, filled_self, Nat.add_sub_cancel' hbe] at hfold
    rw [parallelFor, List.range'_eq_map_range, List.foldlM_map]
    exact hfold
  · rw [hf (b + k) (by omega) (by omega), ok_bind, filled_set, pure_eq_ok,
      filled_append c buf (Nat.le_add_right b k) (Nat.le_add_right (b + k) 1), Nat.add_assoc]

theorem parallelFor_filled {buf : List α} {f : ℕ → Except String α} (hbe : b ≤ e)
    (hf : ∀ i, b ≤ i → i < e → f i = .ok (c i)) :
    parallelFor b e (filled c buf 0 b) f = .ok (filled c buf 0 e) := by
  rw [parallelFor_eq _ hbe hf, filled_append c buf (Nat.zero_le b) hbe]

end

end RfClassGroups
