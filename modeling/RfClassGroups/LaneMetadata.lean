import RfClassGroups.BenchIo
import RfClassGroups.Lanes
import RfClassGroups.Ntt
import RfClassGroups.WireFormat

/-! The metadata that the ends of a lane exchange: the lane settings and a digest
of the parameters. -/

open ExceptList ByteStream BigEndian

namespace RfClassGroups

structure SchemeNumbers where
  cleartextBound : Mpz
  discriminantClG : Mpz
  discriminantClDelta : Mpz

/-- What an end of the lanes runs with. Every caller reads the number of lanes
first; the count is a word. -/
structure LaneEnd where
  env : Env
  numbers : SchemeNumbers
  lanes : ℕ
  count : ℕ
  lanes_eq : rfTransportLanes env = .ok lanes
  count_lt : count < 2 ^ 64

structure Digest where
  bytes : List UInt8
  length_eq : bytes.length = 32

def validateLaneMetadata (env : Env) : Bool := env "CG_VALIDATE_LANES" == some "1"

def envOrDefault (env : Env) (name fallback : String) : String := (env.text name).getD fallback

def LaneEnd.parameters (e : LaneEnd) : String :=
  "CG-LANES-V2:" ++ String.ofList (mpzText e.numbers.cleartextBound) ++ ":" ++
    String.ofList (mpzText e.numbers.discriminantClG) ++ ":" ++
    String.ofList (mpzText e.numbers.discriminantClDelta) ++ ":" ++
    (if nttRuntimeEnabled e.env then "1" else "0") ++ ":" ++
    envOrDefault e.env "CG_PROTOCOL_ID" "manual"

section

variable (sha256 : String → Digest)

def rfParameterDigest (e : LaneEnd) : List UInt8 := (sha256 e.parameters).bytes

def sendRfMetadata (e : LaneEnd) : Program Unit := do
  sendU32 0x43470002
  sendU64 (UInt64.ofNat e.lanes)
  sendU64 (UInt64.ofNat e.count)
  let chunk ← ByteStream.lift (rfChunkSize e.env)
  sendU64 (UInt64.ofNat chunk)
  sendAll (rfParameterDigest sha256 e)

def checkRfMetadata (e : LaneEnd) : Program Unit := do
  let version ← recvU32
  let peerLanes ← recvU64
  let peerCount ← recvU64
  let chunk ← recvU64
  let digest ← recvAll 32
  if version ≠ 0x43470002 ∨ peerLanes ≠ UInt64.ofNat e.lanes ∨ peerCount ≠ UInt64.ofNat e.count then
    fail "RF lane parameter/count/chunk mismatch"
  else do
    let own ← ByteStream.lift (rfChunkSize e.env)
    if chunk ≠ UInt64.ofNat own ∨ digest ≠ rfParameterDigest sha256 e then
      fail "RF lane parameter/count/chunk mismatch"
    else pure ()

/-- What `sendRfMetadata` writes: it stops at a chunk size that cannot be read. -/
def encodeMetadata (e : LaneEnd) : List UInt8 :=
  encodeU32 0x43470002 ++ (encodeU64 (UInt64.ofNat e.lanes) ++ (encodeU64 (UInt64.ofNat e.count) ++
    match rfChunkSize e.env with
    | .ok chunk => encodeU64 (UInt64.ofNat chunk) ++ rfParameterDigest sha256 e
    | .error _ => []))

theorem lift_ok {α : Type} (a : α) : ByteStream.lift (.ok a) = pure a := rfl

theorem lift_error {α : Type} (msg : String) : (ByteStream.lift (.error msg) : Program α) = fail msg :=
  rfl

theorem sendRfMetadata_ok {e : LaneEnd} {s s' : Socket}
    (h : sendRfMetadata sha256 e s = .ok ((), s')) :
    s'.stream = s.stream ++ encodeMetadata sha256 e := by
  cases hchunk : rfChunkSize e.env with
  | ok chunk =>
    refine Emits.eq_of_ok ?_ h
    refine (emits_sendU32 _).bind ((emits_sendU64 _).bind ((emits_sendU64 _).bind ?_))
    rw [hchunk, lift_ok, pure_bind]
    exact (emits_sendU64 _).bind (emits_sendAll _)
  | error msg =>
    obtain ⟨_, s₁, _, k₁⟩ := ByteStream.bind_eq_ok h
    obtain ⟨_, s₂, _, k₂⟩ := ByteStream.bind_eq_ok k₁
    obtain ⟨_, s₃, _, k₃⟩ := ByteStream.bind_eq_ok k₂
    obtain ⟨_, s₄, h₄, _⟩ := ByteStream.bind_eq_ok k₃
    rw [hchunk, lift_error] at h₄
    cases h₄

theorem length_encodeU64 (v : UInt64) : (encodeU64 v).length = 8 := by
  simp [encodeU64, encodeU32]

theorem length_encodeMetadata {e : LaneEnd} {chunk : ℕ} (h : rfChunkSize e.env = .ok chunk) :
    (encodeMetadata sha256 e).length = 60 := by
  simp [encodeMetadata, encodeU32, length_encodeU64, rfParameterDigest, h,
    (sha256 e.parameters).length_eq]

theorem length_encodeMetadata_le (e : LaneEnd) : (encodeMetadata sha256 e).length ≤ 60 := by
  cases h : rfChunkSize e.env with
  | ok chunk => exact (length_encodeMetadata sha256 h).le
  | error msg => simp [encodeMetadata, encodeU32, length_encodeU64, h]

theorem toNat_joinWords (hi lo : UInt32) :
    (hi.toUInt64 <<< 32 ||| lo.toUInt64).toNat = hi.toNat * 2 ^ 32 + lo.toNat := by
  have hhi := hi.toNat_lt
  have hlo := lo.toNat_lt
  rw [UInt64.toNat_or, UInt64.toNat_shiftLeft, UInt32.toNat_toUInt64, UInt32.toNat_toUInt64]
  show hi.toNat <<< 32 % 2 ^ 64 ||| lo.toNat = _
  rw [Nat.shiftLeft_eq, Nat.mod_eq_of_lt (by omega), Nat.mul_comm,
    ← Nat.two_pow_add_eq_or_of_lt hlo]

theorem splitWords (hi lo : UInt32) :
    ((hi.toUInt64 <<< 32 ||| lo.toUInt64) >>> 32).toUInt32 = hi ∧
      ((hi.toUInt64 <<< 32 ||| lo.toUInt64) &&& 0xFFFFFFFF).toUInt32 = lo := by
  have hv := toNat_joinWords hi lo
  have hhi := hi.toNat_lt
  have hlo := lo.toNat_lt
  generalize hi.toUInt64 <<< 32 ||| lo.toUInt64 = v at hv ⊢
  have hlow : v.toNat &&& 4294967295 = v.toNat % 2 ^ 32 := Nat.and_two_pow_sub_one_eq_mod _ 32
  constructor
  · apply UInt32.toNat_inj.mp
    rw [UInt64.toNat_toUInt32, UInt64.toNat_shiftRight]
    show v.toNat >>> 32 % 2 ^ 32 = hi.toNat
    rw [Nat.shiftRight_eq_div_pow]
    omega
  · apply UInt32.toNat_inj.mp
    rw [UInt64.toNat_toUInt32, UInt64.toNat_and]
    show (v.toNat &&& 4294967295) % 2 ^ 32 = lo.toNat
    rw [hlow]
    omega

theorem recvU64_ok {s s' : Socket} {v : UInt64} (h : recvU64 s = .ok (v, s')) :
    s.stream = encodeU64 v ++ s'.stream := by
  obtain ⟨hi, s₁, hhi, h⟩ := ByteStream.bind_eq_ok h
  obtain ⟨lo, s₂, hlo, h⟩ := ByteStream.bind_eq_ok h
  cases h
  obtain ⟨h1, h2⟩ := splitWords hi lo
  rw [recvU32_ok hhi, recvU32_ok hlo, encodeU64, h1, h2, List.append_assoc]

theorem checkRfMetadata_ok {e : LaneEnd} {s s' : Socket}
    (h : checkRfMetadata sha256 e s = .ok ((), s')) :
    (∃ chunk, rfChunkSize e.env = .ok chunk) ∧ s.stream = encodeMetadata sha256 e ++ s'.stream := by
  obtain ⟨version, s₁, h₁, k₁⟩ := ByteStream.bind_eq_ok h
  obtain ⟨peerLanes, s₂, h₂, k₂⟩ := ByteStream.bind_eq_ok k₁
  obtain ⟨peerCount, s₃, h₃, k₃⟩ := ByteStream.bind_eq_ok k₂
  obtain ⟨chunk, s₄, h₄, k₄⟩ := ByteStream.bind_eq_ok k₃
  obtain ⟨digest, s₅, h₅, k₅⟩ := ByteStream.bind_eq_ok k₄
  split at k₅
  · cases k₅
  next hhead =>
  obtain ⟨own, s₆, h₆, k₆⟩ := ByteStream.bind_eq_ok k₅
  cases hchunk : rfChunkSize e.env with
  | error msg =>
    rw [hchunk] at h₆
    cases h₆
  | ok size =>
    rw [hchunk] at h₆
    cases h₆
    split at k₆
    · cases k₆
    next htail =>
    simp only [not_or, not_not] at hhead htail
    obtain ⟨rfl, rfl, rfl⟩ := hhead
    obtain ⟨rfl, rfl⟩ := htail
    cases k₆
    refine ⟨⟨own, rfl⟩, ?_⟩
    rw [recvU32_ok h₁, recvU64_ok h₂, recvU64_ok h₃, recvU64_ok h₄, (recvAll_ok h₅).2, encodeMetadata,
      hchunk]
    simp only [List.append_assoc]

theorem encodeU32_inj {v w : UInt32} (h : encodeU32 v = encodeU32 w) : v = w := by
  have hofBytes := congrArg ofBytes h
  rw [encodeU32, encodeU32, ofBytes_fixed v.toNat_lt, ofBytes_fixed w.toNat_lt] at hofBytes
  exact UInt32.toNat_inj.mp hofBytes

theorem encodeU64_inj {v w : UInt64} (h : encodeU64 v = encodeU64 w) : v = w := by
  obtain ⟨hhi, hlo⟩ := List.append_inj h (by simp [encodeU32])
  rw [← joinWords v, ← joinWords w, encodeU32_inj hhi, encodeU32_inj hlo]

structure SameSettings (e e' : LaneEnd) : Prop where
  lanes : e.lanes = e'.lanes
  count : e.count = e'.count
  chunk : ∃ chunk, rfChunkSize e.env = .ok chunk ∧ rfChunkSize e'.env = .ok chunk
  digest : rfParameterDigest sha256 e = rfParameterDigest sha256 e'

variable {sha256}

theorem SameSettings.symm {e e' : LaneEnd} (h : SameSettings sha256 e e') :
    SameSettings sha256 e' e where
  lanes := h.lanes.symm
  count := h.count.symm
  chunk := h.chunk.imp fun _ hh => hh.symm
  digest := h.digest.symm

theorem LaneEnd.lanes_bounds (e : LaneEnd) : 0 < e.lanes ∧ e.lanes ≤ 64 :=
  ⟨cgConfigSize_pos Nat.one_pos e.lanes_eq, cgConfigSize_le (by decide) (by decide) e.lanes_eq⟩

theorem encodeU64_ofNat_inj {m m' : ℕ} (hm : m < 2 ^ 64) (hm' : m' < 2 ^ 64)
    (h : encodeU64 (UInt64.ofNat m) = encodeU64 (UInt64.ofNat m')) : m = m' := by
  have htoNat := congrArg UInt64.toNat (encodeU64_inj h)
  rwa [UInt64.toNat_ofNat_of_lt' hm, UInt64.toNat_ofNat_of_lt' hm'] at htoNat

theorem encodeMetadata_inj {e e' : LaneEnd} {chunk : ℕ} (hchunk : rfChunkSize e.env = .ok chunk)
    (h : encodeMetadata sha256 e = encodeMetadata sha256 e') : SameSettings sha256 e e' := by
  have hlen : ∀ v w : UInt64, (encodeU64 v).length = (encodeU64 w).length := fun v w => by
    rw [length_encodeU64, length_encodeU64]
  have hbounds := e.lanes_bounds
  have hbounds' := e'.lanes_bounds
  have h₁ := List.append_cancel_left h
  obtain ⟨hlanes, h₂⟩ := List.append_inj h₁ (hlen _ _)
  obtain ⟨hcount, h₃⟩ := List.append_inj h₂ (hlen _ _)
  rw [hchunk] at h₃
  cases hchunk' : rfChunkSize e'.env with
  | error msg =>
    rw [hchunk'] at h₃
    have hlength := congrArg List.length h₃
    simp [length_encodeU64] at hlength
  | ok chunk' =>
    rw [hchunk'] at h₃
    obtain ⟨hchunks, hdigest⟩ := List.append_inj h₃ (hlen _ _)
    have hsame := encodeU64_ofNat_inj (cgConfigSize_lt (by decide) hchunk)
      (cgConfigSize_lt (by decide) hchunk') hchunks
    exact ⟨encodeU64_ofNat_inj (by omega) (by omega) hlanes,
      encodeU64_ofNat_inj e.count_lt e'.count_lt hcount,
      ⟨chunk, hchunk, by rw [hchunk', hsame]⟩, hdigest⟩

theorem sameSettings_of_start {e e' : LaneEnd} {rest : List UInt8}
    (hchunk : ∃ chunk, rfChunkSize e.env = .ok chunk)
    (h : encodeMetadata sha256 e ++ rest <+: encodeMetadata sha256 e') : SameSettings sha256 e e' := by
  obtain ⟨chunk, hchunk⟩ := hchunk
  have hlen := h.length_le
  have hfull := length_encodeMetadata sha256 hchunk
  have hle := length_encodeMetadata_le sha256 e'
  rw [List.length_append] at hlen
  apply encodeMetadata_inj hchunk
  exact ((List.prefix_append _ rest).trans h).eq_of_length (by omega)

theorem lane_eq_of_start {lane : UInt64} {lane' : ℕ} {rest tail : List UInt8} (hlane : lane' < 2 ^ 64)
    (h : encodeU64 lane ++ rest <+: encodeU64 (UInt64.ofNat lane') ++ tail) : lane.toNat = lane' := by
  have hprefix := (List.prefix_append _ rest).trans h
  have heq := (List.prefix_of_prefix_length_le hprefix (List.prefix_append _ tail)
    (by rw [length_encodeU64, length_encodeU64])).eq_of_length
    (by rw [length_encodeU64, length_encodeU64])
  rw [encodeU64_inj heq, UInt64.toNat_ofNat_of_lt' hlane]

end

end RfClassGroups
