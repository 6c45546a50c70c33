import Mathlib.Order.Basic

/-! Programs at the two ends of a byte stream that a kernel moves in pieces of any
size: the monad of such programs, and rules for what a program appends to the
stream or takes from its front, whatever the pieces are. -/

namespace ByteStream

/-- The outcome of one system call: an interruption, or up to `k + 1` bytes moved. -/
inductive Reply
  | interrupted
  | moved (k : ℕ)
  deriving DecidableEq

def moves (replies : List Reply) : ℕ := replies.countP (· ≠ .interrupted)

/-- One end of a stream: the bytes in it and the replies of the kernel to come. -/
structure Socket where
  stream : List UInt8
  replies : List Reply

/-- `pending` is a call that still waits when the listed replies are used up. -/
inductive Fault
  | pending
  | error (msg : String)
  deriving DecidableEq

abbrev Program (α : Type) := StateT Socket (Except Fault) α

def fail {α : Type} (msg : String) : Program α := fun _ => .error (.error msg)

def lift {α : Type} : Except String α → Program α
  | .ok a => pure a
  | .error msg => fail msg

/-- `m` appends `bytes` to the stream, or waits for lack of moves. -/
def Emits (m : Program Unit) (bytes : List UInt8) : Prop :=
  ∀ s : Socket, (m s = .error .pending ∧ moves s.replies < bytes.length) ∨
    ∃ replies, m s = .ok ((), ⟨s.stream ++ bytes, replies⟩) ∧
      moves s.replies ≤ moves replies + bytes.length

/-- `m` takes `bytes` from the front of the stream and returns `a`, or waits for
lack of moves. -/
def Delivers {α : Type} (m : Program α) (bytes : List UInt8) (a : α) : Prop :=
  ∀ rest replies, (m ⟨bytes ++ rest, replies⟩ = .error .pending ∧ moves replies < bytes.length) ∨
    ∃ replies', m ⟨bytes ++ rest, replies⟩ = .ok (a, ⟨rest, replies'⟩) ∧
      moves replies ≤ moves replies' + bytes.length

variable {α β : Type}

theorem bind_ok {m : Program α} {f : α → Program β} {s s' : Socket} {a : α}
    (h : m s = .ok (a, s')) : (m >>= f) s = f a s' := by
  show (m s >>= fun p => f p.1 p.2) = _
  rw [h]
  rfl

theorem bind_error {m : Program α} {f : α → Program β} {s : Socket} {e : Fault}
    (h : m s = .error e) : (m >>= f) s = .error e := by
  show (m s >>= fun p => f p.1 p.2) = _
  rw [h]
  rfl

theorem bind_eq_ok {m : Program α} {f : α → Program β} {s : Socket} {r : β × Socket}
    (h : (m >>= f) s = .ok r) : ∃ a s', m s = .ok (a, s') ∧ f a s' = .ok r := by
  cases hm : m s with
  | error e =>
    rw [bind_error hm] at h
    cases h
  | ok p => exact ⟨p.1, p.2, rfl, (bind_ok hm).symm.trans h⟩

theorem emits_pure : Emits (pure ()) [] :=
  fun s => Or.inr ⟨s.replies, by rw [List.append_nil]; rfl, Nat.le_refl _⟩

theorem Emits.bind {m : Program Unit} {f : Unit → Program Unit} {xs ys : List UInt8}
    (hm : Emits m xs) (hf : Emits (f ()) ys) : Emits (m >>= f) (xs ++ ys) := by
  intro s
  rw [List.length_append]
  rcases hm s with ⟨h, hlt⟩ | ⟨replies, h, hle⟩
  · exact Or.inl ⟨bind_error h, by omega⟩
  · rw [bind_ok h]
    rcases hf ⟨s.stream ++ xs, replies⟩ with ⟨h', hlt⟩ | ⟨replies', h', hle'⟩
    · exact Or.inl ⟨h', by dsimp only at hlt; omega⟩
    · refine Or.inr ⟨replies', ?_, by dsimp only at hle'; omega⟩
      rw [h', List.append_assoc]

theorem delivers_pure (a : α) : Delivers (pure a) [] a :=
  fun _ replies => Or.inr ⟨replies, rfl, Nat.le_refl _⟩

theorem Delivers.bind {m : Program α} {f : α → Program β} {xs ys : List UInt8} {a : α} {b : β}
    (hm : Delivers m xs a) (hf : Delivers (f a) ys b) : Delivers (m >>= f) (xs ++ ys) b := by
  intro rest replies
  rw [List.length_append, List.append_assoc]
  rcases hm (ys ++ rest) replies with ⟨h, hlt⟩ | ⟨replies', h, hle⟩
  · exact Or.inl ⟨bind_error h, by omega⟩
  · rw [bind_ok h]
    rcases hf rest replies' with ⟨h', hlt⟩ | ⟨replies'', h', hle'⟩
    · exact Or.inl ⟨h', by omega⟩
    · exact Or.inr ⟨replies'', h', by omega⟩

theorem Delivers.bind_pure {m : Program α} {f : α → Program β} {xs : List UInt8} {a : α} {b : β}
    (hm : Delivers m xs a) (hf : f a = pure b) : Delivers (m >>= f) xs b := by
  have h := hm.bind (f := f) (hf ▸ delivers_pure b)
  rwa [List.append_nil] at h

theorem Emits.finishes {m : Program Unit} {bytes : List UInt8} (h : Emits m bytes) {s : Socket}
    (hmoves : bytes.length ≤ moves s.replies) :
    ∃ replies, m s = .ok ((), ⟨s.stream ++ bytes, replies⟩) := by
  rcases h s with ⟨_, hlt⟩ | ⟨replies, h, _⟩
  · omega
  · exact ⟨replies, h⟩

theorem Delivers.finishes {m : Program α} {bytes : List UInt8} {a : α} (h : Delivers m bytes a)
    (rest : List UInt8) {replies : List Reply} (hmoves : bytes.length ≤ moves replies) :
    ∃ replies', m ⟨bytes ++ rest, replies⟩ = .ok (a, ⟨rest, replies'⟩) := by
  rcases h rest replies with ⟨_, hlt⟩ | ⟨replies', h, _⟩
  · omega
  · exact ⟨replies', h⟩

theorem Emits.eq_of_ok {m : Program Unit} {bytes : List UInt8} (h : Emits m bytes) {s s' : Socket}
    (hs : m s = .ok ((), s')) : s'.stream = s.stream ++ bytes := by
  rcases h s with ⟨h', _⟩ | ⟨replies, h', _⟩
  · rw [h'] at hs
    cases hs
  · rw [h'] at hs
    cases hs
    rfl

end ByteStream
