import RfClassGroups.Config
import RfClassGroups.Mpz
import RfClassGroups.Lib.BigEndian
import RfClassGroups.Lib.ByteStream

/-! The serialization layer: exact-length transfers over a socket and the wire
format of integers, forms, keys and ciphertexts. A socket's stream is what the
peer writes before it closes. -/

open ExceptList ByteStream BigEndian

namespace RfClassGroups

/-- A call sends at most what is left, and at least one byte. -/
def sendAllLoop : List Reply → List UInt8 → List UInt8 → Except Fault (Unit × Socket)
  | replies, [], stream => .ok ((), ⟨stream, replies⟩)
  | [], _ :: _, _ => .error .pending
  | .interrupted :: replies, b :: buf, stream => sendAllLoop replies (b :: buf) stream
  | .moved k :: replies, b :: buf, stream =>
    let w := min (k + 1) (b :: buf).length
    sendAllLoop replies ((b :: buf).drop w) (stream ++ (b :: buf).take w)

def sendAll (buf : List UInt8) : Program Unit := fun s => sendAllLoop s.replies buf s.stream

/-- A call reads at most what is wanted and what there is; nothing is the end of
the stream. -/
def recvAllLoop : List Reply → ℕ → List UInt8 → List UInt8 →
    Except Fault (List UInt8 × Socket)
  | replies, 0, stream, buf => .ok (buf, ⟨stream, replies⟩)
  | [], _ + 1, _, _ => .error .pending
  | .interrupted :: replies, len + 1, stream, buf => recvAllLoop replies (len + 1) stream buf
  | .moved k :: replies, len + 1, stream, buf =>
    let r := min (k + 1) (min (len + 1) stream.length)
    if r = 0 then .error (.error "read: ")
    else recvAllLoop replies (len + 1 - r) (stream.drop r) (buf ++ stream.take r)

def recvAll (len : ℕ) : Program (List UInt8) := fun s => recvAllLoop s.replies len s.stream []

def sendU32 (v : UInt32) : Program Unit := sendAll (fixed 4 v.toNat)

def recvU32 : Program UInt32 := do
  let n ← recvAll 4
  return UInt32.ofNat (ofBytes n)

def sendU64 (v : UInt64) : Program Unit := do
  sendU32 (v >>> 32).toUInt32
  sendU32 (v &&& 0xFFFFFFFF).toUInt32

def recvU64 : Program UInt64 := do
  let hi ← recvU32
  let lo ← recvU32
  return (hi.toUInt64 <<< 32) ||| lo.toUInt64

def maxMpzBytes (env : Env) : Except String ℕ :=
  cgConfigSize env "CG_MAX_MPZ_BYTES" 16384 1048576 false

def sizeInBase2 (m : Mpz) : ℕ := m.natAbs.log2 + 1

def sendMpzFields (m : Mpz) : Program Unit := do
  let buf := shortest m.natAbs
  sendU32 (if m < 0 then 1 else 0)
  sendU32 (UInt32.ofNat buf.length)
  if buf.length = 0 then pure () else sendAll buf

def sendMpz (env : Env) (m : Mpz) : Program Unit := do
  let limit ← ByteStream.lift (maxMpzBytes env)
  if limit < sizeInBase2 m / 8 + 1 then fail "integer encoding exceeds CG_MAX_MPZ_BYTES"
  else sendMpzFields m

def recvMagnitude (count : UInt32) : Program Mpz :=
  if count = 0 then pure 0
  else do
    let buf ← recvAll count.toNat
    if buf.head? = some 0 then fail "noncanonical integer encoding" else pure (ofBytes buf : ℤ)

/-- The limit is read only after the sign word has passed. -/
def invalidHeader (env : Env) (neg count : UInt32) : Program Bool :=
  if 1 < neg then pure true
  else do
    let limit ← ByteStream.lift (maxMpzBytes env)
    pure (decide (limit < count.toNat))

def recvMpz (env : Env) : Program Mpz := do
  let neg ← recvU32
  let count ← recvU32
  let invalid ← invalidHeader env neg count
  if invalid then fail "invalid sign or oversized integer encoding"
  else do
    let m ← recvMagnitude count
    if neg ≠ 0 ∧ count = 0 then fail "noncanonical negative zero"
    else pure (if neg ≠ 0 then -m else m)

@[ext] structure ReducedForm where
  a : Mpz
  b : Mpz
  c : Mpz
  negative : b * b - 4 * (a * c) < 0
  primitive : Int.gcd (Int.gcd a b) c = 1
  positive : 0 < a
  normal : ¬ (a.natAbs ≤ b.natAbs ∧ a ≠ b)
  reduced : ¬ (c < a ∨ a = c ∧ b < 0)

def ReducedForm.discriminant (f : ReducedForm) : Mpz := f.b * f.b - 4 * (f.a * f.c)

def mkForm (a b c : Mpz) : Except String ReducedForm :=
  if h1 : b * b - 4 * (a * c) < 0 then
    if h2 : Int.gcd (Int.gcd a b) c = 1 then
      if h3 : 0 < a then
        if h4 : a.natAbs ≤ b.natAbs ∧ a ≠ b then throw "form must be normal"
        else if h5 : c < a ∨ a = c ∧ b < 0 then throw "form must be reduced"
        else return ⟨a, b, c, h1, h2, h3, h4, h5⟩
      else throw "the coeff a of the form must be positive"
    else throw "form must be primitive"
  else throw "form must have negative discriminant"

structure FormKey (disc : Mpz) where
  elt : ReducedForm
  discriminant_elt : elt.discriminant = disc

def mkKey (disc : Mpz) (f : ReducedForm) : Except String (FormKey disc) :=
  if h : f.discriminant = disc then return ⟨f, h⟩
  else throw "pk's discriminant does not match Cryptosystem"

def sendQfi (env : Env) (f : ReducedForm) : Program Unit := do
  sendMpz env f.a
  sendMpz env f.b
  sendMpz env f.c

def recvQfi (env : Env) : Program ReducedForm := do
  let a ← recvMpz env
  let b ← recvMpz env
  let c ← recvMpz env
  ByteStream.lift (mkForm a b c)

def sendPk (env : Env) {disc : Mpz} (pk : FormKey disc) : Program Unit := sendQfi env pk.elt

def recvPk (env : Env) (disc : Mpz) : Program (FormKey disc) := do
  let f ← recvQfi env
  ByteStream.lift (mkKey disc f)

def sendCt (env : Env) (c1 c2 : ReducedForm) : Program Unit := do
  sendQfi env c1
  sendQfi env c2

def recvCt (env : Env) : Program (ReducedForm × ReducedForm) := do
  let c1 ← recvQfi env
  let c2 ← recvQfi env
  return (c1, c2)

end RfClassGroups
