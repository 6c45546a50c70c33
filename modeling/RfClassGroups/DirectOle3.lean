import RfClassGroups.RfOle3

/-! The three-round evaluation without firewalls. What the firewalls do to the run is to
blind the inputs of the sender: the direct run on the blinded inputs has the same output. -/

open ExceptList Loops

namespace RfClassGroups

variable {GK GD : Type} [CommGroup GK] [CommGroup GD]

/-- The text of the error is the one step that differs from the parties behind firewalls. -/
def directOle3ReceiverR3 (cs : CLHSMqk GK GD) (n : ℕ) (r : ℕ → cs.ClearText) (queue : List Mpz) :
    Except String (List Mpz) := do
  let (_, zVals) ← recvMpzLanes0 queue n
  if zVals.length ≠ n then throw "OLE3 receiver z count mismatch"
  parallelFor 0 n (List.replicate n (0 : Mpz)) fun i =>
    return (zVals.getD i 0 - (r i).1) % cs.cleartextBound

structure DirectOle3Coins (cs : CLHSMqk GK GD) where
  sk : cs.SecretKey
  encA : ℕ → Mpz
  encB : ℕ → Mpz
  r : ℕ → cs.ClearText
  encR : ℕ → Mpz

structure DirectOle3Result where
  z : List Mpz
  out : List Mpz
  senderDump : List Char
  receiverDump : List Char

/-- `cg_ole3_sender.cpp` and `cg_ole3_receiver.cpp`, connected to each other. -/
def directOle3Run (envS envR : Env) (cs : CLHSMqk GK GD) (coins : DirectOle3Coins cs)
    (xVals aVals bVals : List Mpz) : Except String DirectOle3Result := do
  let pk ← cs.keygenPk coins.sk
  let ab ← ole3SenderR1 envS cs pk aVals bVals coins.encA coins.encB
  let y ← ole3ReceiverR2 envR cs pk xVals coins.r coins.encR ab
  let z ← ole3SenderR3 envS cs coins.sk aVals.length y
  let out ← directOle3ReceiverR3 cs xVals.length coins.r (sendMpzLanes0 [] z)
  let senderDump ← writeOleSenderInputs aVals bVals
  let receiverDump ← writeOleReceiverIo cs.cleartextBound xVals out
  return ⟨z, out, senderDump, receiverDump⟩

theorem emod_add_sub (q v r : ℤ) : ((v + r) % q - r) % q = v % q := by
  have h := (Int.mod_modEq (v + r) q).sub_right r
  rwa [add_sub_cancel_right] at h

theorem affine_emod (q a b x : ℤ) : (a % q * x + b % q) % q = (a * x + b) % q :=
  ((Int.mod_modEq a q).mul_right x).add (Int.mod_modEq b q)

theorem directOle3ReceiverR3_eq (cs : CLHSMqk GK GD) (n : ℕ) (mask : ℕ → cs.ClearText)
    (z : ℕ → Mpz) : directOle3ReceiverR3 cs n mask ((List.range n).map z) =
      .ok ((List.range n).map fun i => (z i - (mask i).1) % cs.q) := by
  have h := ole3ReceiverR3_eq n mask z
  rw [ole3ReceiverR3, recvMpzLanes0_eq, ok_bind] at h
  rw [directOle3ReceiverR3, recvMpzLanes0_eq, ok_bind]
  dsimp only at h ⊢
  rw [if_neg (by simp)] at h ⊢
  exact h

def ole3Affine (q : ℤ) (n : ℕ) (xVals aVals bVals : List Mpz) : List Mpz :=
  (List.range n).map fun i => (aVals.getD i 0 * xVals.getD i 0 + bVals.getD i 0) % q

def maskedAffine {cs : CLHSMqk GK GD} (n : ℕ) (r : ℕ → cs.ClearText) (xVals aVals bVals : List Mpz) :
    List Mpz :=
  (List.range n).map fun i =>
    (aVals.getD i 0 * xVals.getD i 0 + bVals.getD i 0 + (r i).1) % cs.q

section

variable {envS envR : Env} {n lanes chunk : ℕ} {cs : CLHSMqk GK GD}
  (hc : cs.compactVariant = false)
include hc

theorem directOle3Run_eq (htS : Transport envS n lanes chunk) (htR : Transport envR n lanes chunk)
    (coins : DirectOle3Coins cs) {xVals aVals bVals : List Mpz} (hxn : xVals.length = n)
    (han : aVals.length = n) (hbn : bVals.length = n)
    (ha : ∀ a ∈ aVals, 0 ≤ a ∧ a < cs.cleartextBound)
    (hb : ∀ b ∈ bVals, 0 ≤ b ∧ b < cs.cleartextBound) :
    directOle3Run envS envR cs coins xVals aVals bVals =
      .ok ⟨maskedAffine n coins.r xVals aVals bVals, ole3Affine cs.q n xVals aVals bVals,
        header "OLE_SENDER_V1" aVals.length ++ pairLines aVals bVals,
        header "OLE_RECEIVER_V1" xVals.length ++ mpzText cs.cleartextBound ++
          '\n' :: pairLines xVals (ole3Affine cs.q n xVals aVals bVals)⟩ := by
  subst han
  set v := fun i => aVals.getD i 0 * xVals.getD i 0 + bVals.getD i 0 with hv
  have hsender := ole3SenderR1_eq hc htS hbn ha hb (cs.base ^ coins.sk.1) coins.encA coins.encB
  have hrec := ole3ReceiverR2_eq hc
    (hxn.symm ▸ htR : Transport envR xVals.length lanes chunk) (cs.base ^ coins.sk.1) coins.r
    coins.encR (fun i => aVals.getD i 0) (fun i => bVals.getD i 0) coins.encA coins.encB
  rw [hxn] at hrec
  have hout := directOle3ReceiverR3_eq cs aVals.length coins.r fun i => (v i + (coins.r i).1) % cs.q
  have hy : ((List.range aVals.length).map fun i => ((v i + (coins.r i).1) % cs.q - (coins.r i).1) %
      cs.q) = ole3Affine cs.q aVals.length xVals aVals bVals :=
    List.map_congr_left fun i _ => emod_add_sub _ _ _
  have hlen : (ole3Affine cs.q aVals.length xVals aVals bVals).length = aVals.length := by
    simp [ole3Affine]
  rw [directOle3Run, CLHSMqk.keygenPk_eq hc, ok_bind, hsender, ok_bind, hrec, ok_bind,
    ole3SenderR3_eq hc htS, ok_bind, sendMpzLanes0, List.nil_append, hxn, hout, ok_bind, hy,
    writeOleSenderInputs_eq hbn.symm, ok_bind, writeOleReceiverIo_eq _ (hxn.trans hlen.symm), ok_bind,
    hxn]
  rfl

/-- The direct evaluation returns the affine relation, the sender sees it under the mask of
the receiver, and the offline checker accepts the dumps. -/
theorem directOle3Run_correct (htS : Transport envS n lanes chunk)
    (htR : Transport envR n lanes chunk) (coins : DirectOle3Coins cs) {xVals aVals bVals : List Mpz}
    (hxn : xVals.length = n) (han : aVals.length = n) (hbn : bVals.length = n)
    (ha : ∀ a ∈ aVals, 0 ≤ a ∧ a < cs.cleartextBound)
    (hb : ∀ b ∈ bVals, 0 ≤ b ∧ b < cs.cleartextBound) :
    ∃ res, directOle3Run envS envR cs coins xVals aVals bVals = .ok res ∧
      res.out = ((List.range n).map fun i =>
        (aVals.getD i 0 * xVals.getD i 0 + bVals.getD i 0) % cs.q) ∧
      res.z = ((List.range n).map fun i =>
        (aVals.getD i 0 * xVals.getD i 0 + bVals.getD i 0 + (coins.r i).1) % cs.q) ∧
      ∀ env, cgValidateCount env n false = .ok () →
        checkBatchOle env res.senderDump res.receiverDump none = .ok 0 := by
  classical
  refine ⟨_, directOle3Run_eq hc htS htR coins hxn han hbn ha hb, rfl, rfl, fun env hcount => ?_⟩
  have hq : (1 : ℤ) < cs.q := by exact_mod_cast cs.prime_q.one_lt
  have hlen : (ole3Affine cs.q n xVals aVals bVals).length = n := by simp [ole3Affine]
  have hsan : SanitisedOle cs.q none aVals bVals xVals (ole3Affine cs.q n xVals aVals bVals) n := by
    intro i hi
    simp only [blindSum, ole3Affine, range_map_getD _ hi, add_zero]
  have hcheck := checkBatchOle_eq hq hcount han hbn hxn hlen none (by simp)
  rw [if_pos hsan] at hcheck
  exact hcheck

/-- The run through both firewalls has the output of the direct run on the blinded inputs,
whatever the parties draw in either. -/
theorem rfOle3Run_eq_direct {envs : RfEnvs} (ht : RfTransport envs n lanes chunk)
    (coins : Ole3Coins cs) (coins' : DirectOle3Coins cs) {xVals aVals bVals : List Mpz}
    (hxn : xVals.length = n) (han : aVals.length = n) (hbn : bVals.length = n)
    (ha : ∀ a ∈ aVals, 0 ≤ a ∧ a < cs.cleartextBound)
    (hb : ∀ b ∈ bVals, 0 ≤ b ∧ b < cs.cleartextBound) :
    ∃ res res', rfOle3Run envs cs coins xVals aVals bVals = .ok res ∧
      directOle3Run envs.sender envs.receiver cs coins' xVals
        ((List.range n).map fun i => blindedA coins aVals i % cs.q)
        ((List.range n).map fun i => blindedB coins bVals i % cs.q) = .ok res' ∧
      res.out = res'.out := by
  have hq : (0 : ℤ) < cs.q := by exact_mod_cast cs.prime_q.pos
  have hrange : ∀ f : ℕ → ℤ, ∀ v ∈ (List.range n).map fun i => f i % cs.q,
      0 ≤ v ∧ v < cs.cleartextBound := by
    intro f v hv
    obtain ⟨i, -, rfl⟩ := List.mem_map.mp hv
    exact ⟨Int.emod_nonneg _ hq.ne', Int.emod_lt_of_pos _ hq⟩
  refine ⟨_, _, rfOle3Run_eq hc ht coins hxn han hbn ha hb,
    directOle3Run_eq hc ht.sender ht.receiver coins' hxn (by simp) (by simp) (hrange _) (hrange _), ?_⟩
  apply List.map_congr_left
  intro i hi
  have hin := List.mem_range.mp hi
  rw [range_map_getD _ hin, range_map_getD _ hin]
  exact (affine_emod _ _ _ _).symm

end

def smallDirectOle3Coins : DirectOle3Coins smallScheme :=
  ⟨smallOle3Coins.sk, smallOle3Coins.encA, smallOle3Coins.encB, smallOle3Coins.r, smallOle3Coins.encR⟩

theorem directOle3Run_correct_small :
    ∃ res, directOle3Run (smallEnv "5") (smallEnv "5") smallScheme smallDirectOle3Coins
        [0, 1, 2, 3, 4] [4, 3, 2, 1, 0] [1, 1, 1, 2, 2] = .ok res ∧
      res.out = [1, 4, 0, 0, 2] ∧ res.z = [0, 4, 1, 2, 0] ∧
      checkBatchOle (smallEnv "5") res.senderDump res.receiverDump none = .ok 0 := by
  obtain ⟨res, hrun, hout, hz, hcheck⟩ := directOle3Run_correct rfl smallEnv_transport
    smallEnv_transport smallDirectOle3Coins (rfl : ([0, 1, 2, 3, 4] : List Mpz).length = 5)
    (rfl : ([4, 3, 2, 1, 0] : List Mpz).length = 5) (rfl : ([1, 1, 1, 2, 2] : List Mpz).length = 5)
    (by decide) (by decide)
  exact ⟨res, hrun, hout.trans (by decide), hz.trans (by decide), hcheck _ (by decide)⟩

theorem rfOle3Run_eq_direct_small :
    ∃ res res', rfOle3Run smallEnvs smallScheme smallOle3Coins [0, 1, 2, 3, 4] [4, 3, 2, 1, 0]
        [1, 1, 1, 2, 2] = .ok res ∧
      directOle3Run smallEnvs.sender smallEnvs.receiver smallScheme smallDirectOle3Coins
        [0, 1, 2, 3, 4]
        ((List.range 5).map fun i => blindedA smallOle3Coins [4, 3, 2, 1, 0] i % smallScheme.q)
        ((List.range 5).map fun i => blindedB smallOle3Coins [1, 1, 1, 2, 2] i % smallScheme.q) =
          .ok res' ∧
      res.out = res'.out :=
  rfOle3Run_eq_direct rfl smallEnvs_transport smallOle3Coins smallDirectOle3Coins rfl rfl rfl
    (by decide) (by decide)

end RfClassGroups
