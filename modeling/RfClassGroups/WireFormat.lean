import RfClassGroups.Network

/-! What each serializer appends to a stream is what the matching deserializer
takes from its front, however the kernel cuts the traffic. -/

open ExceptList ByteStream BigEndian

namespace RfClassGroups

theorem moves_interrupted (replies : List Reply) :
    moves (.interrupted :: replies) = moves replies := by
  simp [moves]

theorem moves_moved (k : ℕ) (replies : List Reply) :
    moves (.moved k :: replies) = moves replies + 1 := by
  simp [moves]

theorem sendAllLoop_spec (replies : List Reply) (buf stream : List UInt8) :
    (sendAllLoop replies buf stream = .error .pending ∧ moves replies < buf.length) ∨
    ∃ replies', sendAllLoop replies buf stream = .ok ((), ⟨stream ++ buf, replies'⟩) ∧
      moves replies ≤ moves replies' + buf.length := by
  induction replies generalizing buf stream with
  | nil =>
    cases buf with
    | nil => exact Or.inr ⟨[], by rw [List.append_nil]; rfl, Nat.zero_le _⟩
    | cons b buf => exact Or.inl ⟨rfl, Nat.succ_pos _⟩
  | cons reply replies ih =>
    cases buf with
    | nil => exact Or.inr ⟨reply :: replies, by rw [List.append_nil]; rfl, Nat.le_add_right _ _⟩
    | cons b buf =>
      cases reply with
      | interrupted =>
        rw [moves_interrupted]
        exact ih (b :: buf) stream
      | moved k =>
        rw [moves_moved]
        have hw : 1 ≤ min (k + 1) (b :: buf).length := le_min (by omega) (Nat.succ_pos _)
        have hlen := List.length_drop (i := min (k + 1) (b :: buf).length) (l := b :: buf)
        have hle := min_le_right (k + 1) (b :: buf).length
        rcases ih ((b :: buf).drop (min (k + 1) (b :: buf).length))
          (stream ++ (b :: buf).take (min (k + 1) (b :: buf).length)) with ⟨h, hlt⟩ | ⟨replies', h, hm⟩
        · exact Or.inl ⟨h, by omega⟩
        · refine Or.inr ⟨replies', ?_, by omega⟩
          rw [List.append_assoc, List.take_append_drop] at h
          exact h

theorem emits_sendAll (buf : List UInt8) : Emits (sendAll buf) buf :=
  fun s => sendAllLoop_spec s.replies buf s.stream

theorem recvAllLoop_spec (replies : List Reply) (bs rest buf : List UInt8) :
    (recvAllLoop replies bs.length (bs ++ rest) buf = .error .pending ∧ moves replies < bs.length) ∨
    ∃ replies', recvAllLoop replies bs.length (bs ++ rest) buf = .ok (buf ++ bs, ⟨rest, replies'⟩) ∧
      moves replies ≤ moves replies' + bs.length := by
  induction replies generalizing bs buf with
  | nil =>
    cases bs with
    | nil => exact Or.inr ⟨[], by rw [List.append_nil]; rfl, Nat.zero_le _⟩
    | cons b bs => exact Or.inl ⟨rfl, Nat.succ_pos _⟩
  | cons reply replies ih =>
    cases bs with
    | nil => exact Or.inr ⟨reply :: replies, by rw [List.append_nil]; rfl, Nat.le_add_right _ _⟩
    | cons b bs =>
      cases reply with
      | interrupted =>
        rw [moves_interrupted]
        exact ih (b :: bs) buf
      | moved k =>
        obtain ⟨w, hw⟩ : ∃ w, w = min (k + 1) (bs.length + 1) := ⟨_, rfl⟩
        have hr : min (k + 1) (min (bs.length + 1) (b :: bs ++ rest).length) = w := by
          simp only [List.length_append, List.length_cons]
          omega
        have hle : w ≤ (b :: bs).length := by rw [List.length_cons]; omega
        have hlen : ((b :: bs).drop w).length = bs.length + 1 - w := by
          rw [List.length_drop, List.length_cons]
        rw [moves_moved, List.length_cons, recvAllLoop, hr, if_neg (by omega),
          List.drop_append_of_le_length hle, List.take_append_of_le_length hle, ← hlen]
        rcases ih ((b :: bs).drop w) (buf ++ (b :: bs).take w) with ⟨h, hlt⟩ | ⟨replies', h, hm⟩
        · exact Or.inl ⟨h, by omega⟩
        · refine Or.inr ⟨replies', ?_, by omega⟩
          rw [List.append_assoc, List.take_append_drop] at h
          exact h

theorem delivers_recvAll (bs : List UInt8) : Delivers (recvAll bs.length) bs bs :=
  fun rest replies => recvAllLoop_spec replies bs rest []

theorem recvAll_ok {n : ℕ} {s s' : Socket} {bs : List UInt8} (h : recvAll n s = .ok (bs, s')) :
    bs.length = n ∧ s.stream = bs ++ s'.stream := by
  have key : ∀ (replies : List Reply) (n : ℕ) (stream buf : List UInt8),
      recvAllLoop replies n stream buf = .ok (bs, s') →
        bs.length = buf.length + n ∧ buf ++ stream = bs ++ s'.stream := by
    intro replies
    induction replies with
    | nil =>
      intro n stream buf h
      cases n with
      | zero =>
        cases h
        exact ⟨rfl, rfl⟩
      | succ n => cases h
    | cons reply replies ih =>
      intro n stream buf h
      cases n with
      | zero =>
        cases h
        exact ⟨rfl, rfl⟩
      | succ n =>
        cases reply with
        | interrupted => exact ih (n + 1) stream buf h
        | moved k =>
          rw [recvAllLoop] at h
          split at h
          · cases h
          · obtain ⟨hlen, hstream⟩ := ih _ _ _ h
            rw [List.append_assoc, List.take_append_drop] at hstream
            rw [List.length_append, List.length_take] at hlen
            exact ⟨by omega, hstream⟩
  have hh := key s.replies n s.stream [] h
  rw [List.length_nil, Nat.zero_add] at hh
  exact hh

def encodeU32 (v : UInt32) : List UInt8 := fixed 4 v.toNat

theorem emits_sendU32 (v : UInt32) : Emits (sendU32 v) (encodeU32 v) := emits_sendAll _

theorem delivers_recvU32 (v : UInt32) : Delivers recvU32 (encodeU32 v) v := by
  have h := delivers_recvAll (encodeU32 v)
  rw [encodeU32, length_fixed] at h
  refine h.bind_pure ?_
  rw [ofBytes_fixed v.toNat_lt, UInt32.ofNat_toNat]

def encodeU64 (v : UInt64) : List UInt8 :=
  encodeU32 (v >>> 32).toUInt32 ++ encodeU32 (v &&& 0xFFFFFFFF).toUInt32

theorem emits_sendU64 (v : UInt64) : Emits (sendU64 v) (encodeU64 v) :=
  (emits_sendU32 _).bind (emits_sendU32 _)

theorem joinWords (v : UInt64) :
    ((v >>> 32).toUInt32.toUInt64 <<< 32) ||| (v &&& 0xFFFFFFFF).toUInt32.toUInt64 = v := by
  have hv := v.toNat_lt
  have hlow : v.toNat &&& 4294967295 = v.toNat % 2 ^ 32 := Nat.and_two_pow_sub_one_eq_mod _ 32
  have hhigh : v.toNat >>> 32 < 2 ^ 32 := by rw [Nat.shiftRight_eq_div_pow]; omega
  apply UInt64.toNat_inj.mp
  simp only [UInt64.toNat_or, UInt64.toNat_shiftLeft, UInt32.toNat_toUInt64, UInt64.toNat_toUInt32,
    UInt64.toNat_shiftRight, UInt64.toNat_and]
  show (v.toNat >>> 32 % 2 ^ 32) <<< 32 % 2 ^ 64 ||| (v.toNat &&& 4294967295) % 2 ^ 32 = v.toNat
  have hmod : v.toNat % 2 ^ 32 < 2 ^ 32 := Nat.mod_lt _ (by decide)
  rw [hlow, Nat.mod_mod, Nat.mod_eq_of_lt hhigh, Nat.shiftLeft_eq, Nat.mul_comm,
    Nat.mod_eq_of_lt (by omega), ← Nat.two_pow_add_eq_or_of_lt hmod, Nat.shiftRight_eq_div_pow]
  exact Nat.div_add_mod v.toNat (2 ^ 32)

theorem delivers_recvU64 (v : UInt64) : Delivers recvU64 (encodeU64 v) v :=
  (delivers_recvU32 _).bind ((delivers_recvU32 _).bind_pure (congrArg pure (joinWords v)))

def encodeMpz (m : Mpz) : List UInt8 :=
  encodeU32 (if m < 0 then 1 else 0) ++
    (encodeU32 (UInt32.ofNat (byteCount m.natAbs)) ++ shortest m.natAbs)

theorem emits_sendMpzFields (m : Mpz) : Emits (sendMpzFields m) (encodeMpz m) := by
  have hlen := length_shortest m.natAbs
  rw [sendMpzFields, hlen]
  refine (emits_sendU32 _).bind ((emits_sendU32 _).bind ?_)
  by_cases h0 : byteCount m.natAbs = 0
  · rw [if_pos h0, List.eq_nil_of_length_eq_zero (hlen.trans h0)]
    exact emits_pure
  · rw [if_neg h0]
    exact emits_sendAll _

/-- The size test of the encoder. -/
def MpzFits (limit : ℕ) (m : Mpz) : Prop := sizeInBase2 m / 8 + 1 ≤ limit

instance (limit : ℕ) (m : Mpz) : Decidable (MpzFits limit m) :=
  inferInstanceAs (Decidable (_ ≤ _))

variable {env : Env} {L : ℕ}

theorem sendMpz_eq (hL : maxMpzBytes env = .ok L) (m : Mpz) :
    sendMpz env m = if MpzFits L m then sendMpzFields m
      else fail "integer encoding exceeds CG_MAX_MPZ_BYTES" := by
  rw [sendMpz, hL, ByteStream.lift, pure_bind]
  by_cases h : MpzFits L m
  · rw [if_pos h, if_neg (not_lt.mpr h)]
  · rw [if_neg h, if_pos (not_le.mp h)]

theorem maxMpzBytes_le (hL : maxMpzBytes env = .ok L) : L < 2 ^ 32 :=
  (cgConfigSize_le (by decide) (by decide) hL).trans_lt (by decide)

theorem MpzFits.byteCount_le {m : Mpz} (h : MpzFits L m) : byteCount m.natAbs ≤ L := by
  rw [MpzFits, sizeInBase2] at h
  rw [byteCount]
  by_cases h0 : m.natAbs = 0
  · rw [if_pos h0]
    exact Nat.zero_le L
  · rw [if_neg h0]
    omega

theorem toNat_ofNat_byteCount (hL : maxMpzBytes env = .ok L) {n : ℕ} (h : byteCount n ≤ L) :
    (UInt32.ofNat (byteCount n)).toNat = byteCount n :=
  UInt32.toNat_ofNat_of_lt' (h.trans_lt (maxMpzBytes_le hL))

theorem delivers_recvMagnitude (hL : maxMpzBytes env = .ok L) {n : ℕ} (h : byteCount n ≤ L) :
    Delivers (recvMagnitude (UInt32.ofNat (byteCount n))) (shortest n) (n : ℤ) := by
  have hcount := toNat_ofNat_byteCount hL h
  have hlen := length_shortest n
  rw [recvMagnitude]
  cases hs : shortest n with
  | nil =>
    have h0 : byteCount n = 0 := by rw [← hlen, hs]; rfl
    have hn : n = 0 := by rw [← ofBytes_shortest n, hs]; rfl
    rw [h0, if_pos (show UInt32.ofNat 0 = 0 from rfl), hn]
    exact delivers_pure _
  | cons b bs =>
    have hne : UInt32.ofNat (byteCount n) ≠ 0 := by
      intro h0
      rw [h0, ← hlen, hs] at hcount
      cases hcount
    rw [if_neg hne, hcount, ← hlen, hs]
    refine (delivers_recvAll (b :: bs)).bind_pure ?_
    have hb : (b :: bs).head? ≠ some 0 := by
      intro h0
      exact shortest_head_ne_zero hs (Option.some.inj h0)
    rw [if_neg hb, ← hs, ofBytes_shortest]

theorem delivers_recvMpz (hL : maxMpzBytes env = .ok L) {m : Mpz} (h : byteCount m.natAbs ≤ L) :
    Delivers (recvMpz env) (encodeMpz m) m := by
  have hcount := toNat_ofNat_byteCount hL h
  refine (delivers_recvU32 _).bind ((delivers_recvU32 _).bind ?_)
  have hsign : ¬ (1 : UInt32) < if m < 0 then 1 else 0 := by
    split <;> decide
  have hsize : decide (L < (UInt32.ofNat (byteCount m.natAbs)).toNat) = false := by
    rw [hcount]
    exact decide_eq_false (not_lt.mpr h)
  rw [invalidHeader, if_neg hsign, hL, ByteStream.lift, pure_bind, hsize, pure_bind]
  refine (delivers_recvMagnitude hL h).bind_pure ?_
  by_cases hm : m < 0
  · have h0 : UInt32.ofNat (byteCount m.natAbs) ≠ 0 := by
      intro h0
      rw [h0, byteCount] at hcount
      rw [if_neg (Int.natAbs_ne_zero.mpr hm.ne)] at hcount
      cases hcount
    have habs : (m.natAbs : ℤ) = -m := Int.ofNat_natAbs_of_nonpos hm.le
    rw [if_pos hm, if_neg (fun hh => h0 hh.2), if_pos (by decide), habs, neg_neg]
  · rw [if_neg hm, if_neg (fun hh => hh.1 rfl), if_neg (fun hh => hh rfl)]
    exact congrArg pure (Int.natAbs_of_nonneg (not_lt.mp hm))

/-! The canonical encodings. -/

theorem recvU32_ok {s s' : Socket} {v : UInt32} (h : recvU32 s = .ok (v, s')) :
    s.stream = encodeU32 v ++ s'.stream := by
  obtain ⟨bs, s'', hbs, hv⟩ := ByteStream.bind_eq_ok h
  obtain ⟨hlen, hstream⟩ := recvAll_ok hbs
  cases hv
  have hlt : ofBytes bs < 2 ^ 32 := by
    have hh := ofBytes_lt bs
    rwa [hlen] at hh
  have hfixed := fixed_ofBytes bs
  rw [hlen] at hfixed
  rw [hstream, encodeU32, UInt32.toNat_ofNat_of_lt' hlt, hfixed]

theorem recvMagnitude_ok {count : UInt32} {s s' : Socket} {v : Mpz}
    (h : recvMagnitude count s = .ok (v, s')) :
    ∃ n : ℕ, v = n ∧ byteCount n = count.toNat ∧ s.stream = shortest n ++ s'.stream := by
  rw [recvMagnitude] at h
  by_cases h0 : count = 0
  · rw [if_pos h0] at h
    cases h
    exact ⟨0, rfl, by rw [h0]; rfl, rfl⟩
  · rw [if_neg h0] at h
    obtain ⟨bs, s'', hbs, h⟩ := ByteStream.bind_eq_ok h
    obtain ⟨hlen, hstream⟩ := recvAll_ok hbs
    cases bs with
    | nil => exact absurd (UInt32.toNat_inj.mp hlen.symm) h0
    | cons b bs =>
      by_cases hb : b = 0
      · rw [if_pos (show (b :: bs).head? = some 0 from congrArg some hb)] at h
        cases h
      · rw [if_neg (show (b :: bs).head? ≠ some 0 from fun hh => hb (Option.some.inj hh))] at h
        cases h
        refine ⟨ofBytes (b :: bs), rfl, ?_, ?_⟩
        · rw [byteCount_ofBytes hb, ← hlen, List.length_cons]
        · rw [hstream, shortest_ofBytes hb]

theorem recvMpz_ok (hL : maxMpzBytes env = .ok L) {s s' : Socket} {m : Mpz}
    (h : recvMpz env s = .ok (m, s')) :
    s.stream = encodeMpz m ++ s'.stream ∧ byteCount m.natAbs ≤ L := by
  obtain ⟨neg, s1, hneg, h⟩ := ByteStream.bind_eq_ok h
  obtain ⟨count, s2, hcount, h⟩ := ByteStream.bind_eq_ok h
  obtain ⟨invalid, s3, hsize, h⟩ := ByteStream.bind_eq_ok h
  rw [invalidHeader] at hsize
  by_cases hbig : 1 < neg
  · rw [if_pos hbig] at hsize
    cases hsize
    cases h
  rw [if_neg hbig, hL, ByteStream.lift, pure_bind] at hsize
  cases hsize
  by_cases hlimit : L < count.toNat
  · rw [if_pos (decide_eq_true hlimit)] at h
    cases h
  rw [if_neg (by simpa using hlimit)] at h
  obtain ⟨v, s4, hv, h⟩ := ByteStream.bind_eq_ok h
  obtain ⟨n, rfl, hn, hmag⟩ := recvMagnitude_ok hv
  have hstream : s.stream = encodeU32 neg ++ (encodeU32 count ++ (shortest n ++ s4.stream)) := by
    rw [recvU32_ok hneg, recvU32_ok hcount, hmag]
  have hcountn : UInt32.ofNat (byteCount n) = count := by rw [hn, UInt32.ofNat_toNat]
  have hle : byteCount n ≤ L := hn.trans_le (not_lt.mp hlimit)
  rw [← hcountn] at hstream
  by_cases hzero : neg = 0
  · rw [if_neg (fun hh => hh.1 hzero), if_neg (fun hh => hh hzero)] at h
    cases h
    have hnn : ¬ (n : ℤ) < 0 := not_lt.mpr (Int.natCast_nonneg n)
    rw [encodeMpz, if_neg hnn, Int.natAbs_natCast, ← hzero]
    exact ⟨by simpa only [List.append_assoc] using hstream, hle⟩
  · have hone : neg = 1 := by
      have h1 : neg.toNat ≤ 1 := UInt32.le_iff_toNat_le.mp (UInt32.not_lt.mp hbig)
      have h0 : neg.toNat ≠ 0 := fun hh => hzero (UInt32.toNat_inj.mp hh)
      exact UInt32.toNat_inj.mp (by
        show neg.toNat = 1
        omega)
    by_cases hc : count = 0
    · rw [if_pos ⟨hzero, hc⟩] at h
      cases h
    · rw [if_neg (fun hh => hc hh.2), if_pos hzero] at h
      cases h
      have hnpos : 0 < n := by
        rw [Nat.pos_iff_ne_zero]
        rintro rfl
        exact hc (UInt32.toNat_inj.mp hn.symm)
      have hnn : -(n : ℤ) < 0 := by omega
      rw [encodeMpz, if_pos hnn, Int.natAbs_neg, Int.natAbs_natCast, ← hone]
      exact ⟨by simpa only [List.append_assoc] using hstream, hle⟩

theorem mpzFits_iff (hL : 0 < L) (m : Mpz) : MpzFits L m ↔ m.natAbs < 128 * 256 ^ (L - 1) := by
  obtain ⟨k, rfl⟩ : ∃ k, L = k + 1 := ⟨L - 1, by omega⟩
  have hpow : 128 * 256 ^ k = 2 ^ (8 * k + 7) := by
    rw [pow_add, pow_mul, Nat.mul_comm]
    norm_num
  rw [MpzFits, sizeInBase2, Nat.add_sub_cancel, hpow]
  by_cases h0 : m.natAbs = 0
  · rw [h0]
    simp
  · rw [lt_pow_iff_log2 h0]
    omega

theorem not_mpzFits_iff (hL : 0 < L) {m : Mpz} (h : byteCount m.natAbs ≤ L) :
    ¬ MpzFits L m ↔ (encodeMpz m).length = 8 + L ∧ 128 ≤ ((encodeMpz m).getD 8 0).toNat := by
  have hlen := length_shortest m.natAbs
  have hof := ofBytes_shortest m.natAbs
  have hhead : encodeMpz m = (encodeU32 (if m < 0 then 1 else 0) ++
      encodeU32 (UInt32.ofNat (byteCount m.natAbs))) ++ shortest m.natAbs := by
    rw [encodeMpz, List.append_assoc]
  have h8 : (encodeU32 (if m < 0 then 1 else 0) ++
      encodeU32 (UInt32.ofNat (byteCount m.natAbs))).length = 8 := by
    rw [List.length_append, encodeU32, encodeU32, length_fixed, length_fixed]
  rw [mpzFits_iff hL, not_lt, hhead, List.length_append, h8, hlen,
    List.getD_append_right _ _ _ _ h8.le, h8, Nat.sub_self]
  by_cases hfull : byteCount m.natAbs = L
  · rw [hfull]
    cases hs : shortest m.natAbs with
    | nil =>
      rw [hs] at hlen
      simp only [List.length_nil] at hlen
      omega
    | cons b bs =>
      have hbs : bs.length = L - 1 := by
        rw [hs, List.length_cons] at hlen
        omega
      rw [← hof, hs, ← hbs, half_le_ofBytes]
      simp
  · have hlt : m.natAbs < 256 ^ (L - 1) := BigEndian.byteCount_le.mp (by omega)
    constructor
    · intro hge
      omega
    · rintro ⟨hh, _⟩
      omega

/-- An accepted string is the encoding of its value, and the serializer writes it
unless its magnitude fills the limit with the top bit set. -/
theorem recvMpz_reencode {envS envR : Env} (hS : maxMpzBytes envS = .ok L)
    (hR : maxMpzBytes envR = .ok L) {w : List UInt8} {m : Mpz} {replies replies' : List Reply}
    (h : recvMpz envR ⟨w, replies⟩ = .ok (m, ⟨[], replies'⟩)) :
    Emits (sendMpz envS m) w ↔ ¬ (w.length = 8 + L ∧ 128 ≤ (w.getD 8 0).toNat) := by
  have hL : 0 < L := cgConfigSize_pos (by decide) hS
  obtain ⟨hw, hle⟩ := recvMpz_ok hR h
  rw [List.append_nil] at hw
  dsimp only at hw
  subst hw
  rw [← not_mpzFits_iff hL hle, not_not, sendMpz_eq hS]
  by_cases hfit : MpzFits L m
  · rw [if_pos hfit]
    exact ⟨fun _ => hfit, fun _ => emits_sendMpzFields m⟩
  · rw [if_neg hfit]
    refine ⟨fun hemit => ?_, fun hh => absurd hh hfit⟩
    rcases hemit ⟨[], []⟩ with ⟨hh, _⟩ | ⟨_, hh, _⟩ <;> cases hh

def oneByteEnv : Env := fun name => if name = "CG_MAX_MPZ_BYTES" then some "1" else none

theorem recvMpz_reencode_small :
    Emits (sendMpz oneByteEnv (-127)) [0, 0, 0, 1, 0, 0, 0, 1, 127] ↔
      ¬ (([0, 0, 0, 1, 0, 0, 0, 1, 127] : List UInt8).length = 8 + 1 ∧
        128 ≤ (([0, 0, 0, 1, 0, 0, 0, 1, 127] : List UInt8).getD 8 0).toNat) :=
  recvMpz_reencode (L := 1) rfl rfl
    (show recvMpz oneByteEnv ⟨[0, 0, 0, 1, 0, 0, 0, 1, 127], [.moved 3, .moved 3, .moved 0]⟩ =
      .ok (-127, ⟨[], []⟩) from rfl)

/-- The byte string for `128` is read under a limit of one byte and not written. -/
theorem recvMpz_reencode_topBit :
    recvMpz oneByteEnv ⟨[0, 0, 0, 0, 0, 0, 0, 1, 128], [.moved 3, .moved 3, .moved 0]⟩ =
      .ok (128, ⟨[], []⟩) ∧
    ∀ s, sendMpz oneByteEnv 128 s =
      .error (.error "integer encoding exceeds CG_MAX_MPZ_BYTES") :=
  ⟨rfl, fun _ => rfl⟩

end RfClassGroups
