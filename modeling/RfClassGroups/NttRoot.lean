import RfClassGroups.Ntt
import RfClassGroups.Lib.Proth
import Mathlib.Tactic.ReduceModChar

/-! The fixed modulus is a prime with a root of unity of order `2 ^ s` for
every `s ≤ 64`, and `ntt_primitive_root` finds it. -/

open CoeffList ExceptList

namespace RfClassGroups

def nttOddPart : ℕ := 9223372036854775861

theorem cgNtt128Prime_eq : cgNtt128Prime = nttOddPart * 2 ^ 64 + 1 := by
  norm_num [cgNtt128Prime, nttOddPart]

theorem three_pow_half : (3 : ZMod cgNtt128Prime) ^ (nttOddPart * 2 ^ 63) = -1 := by
  have he : nttOddPart * 2 ^ 63 = 85070591730234616354682369811245170688 := by
    norm_num [nttOddPart]
  rw [he]
  unfold cgNtt128Prime
  reduce_mod_char

theorem prime_cgNtt128Prime : cgNtt128Prime.Prime := by
  refine Proth.prime_of_pow_eq_neg_one (a := 3) (k := 63) cgNtt128Prime_eq ?_ ?_ ?_
  · norm_num [nttOddPart]
  · norm_num [nttOddPart]
  · exact_mod_cast three_pow_half

instance : Fact cgNtt128Prime.Prime := ⟨prime_cgNtt128Prime⟩

abbrev NttField := ZMod cgNtt128Prime

def nttRoot (s : ℕ) : NttField := 3 ^ (nttOddPart * 2 ^ (64 - s))

theorem nttRoot_zero : nttRoot 0 = 1 := by
  have hh := congrArg (· ^ 2) three_pow_half
  simp only [← pow_mul, neg_one_sq] at hh
  rw [nttRoot, ← hh]
  norm_num [nttOddPart]

theorem nttRoot_sq (s : ℕ) (hs : s < 64) : nttRoot (s + 1) ^ 2 = nttRoot s := by
  have hsub : 64 - s = 64 - (s + 1) + 1 := by omega
  rw [nttRoot, nttRoot, hsub, ← pow_mul, mul_assoc, pow_succ]

theorem nttRoot_pow_half (s : ℕ) (hs : s < 64) : nttRoot (s + 1) ^ 2 ^ s = -1 := by
  have hsub : 64 - (s + 1) + s = 63 := by omega
  rw [nttRoot, ← pow_mul, mul_assoc, ← pow_add, hsub, three_pow_half]

theorem nttRoot_pow (s : ℕ) (hs : s ≤ 64) : nttRoot s ^ 2 ^ s = 1 := by
  cases s with
  | zero => rw [nttRoot_zero, one_pow]
  | succ s => rw [pow_succ, pow_mul, nttRoot_pow_half s (by omega), neg_one_sq]

theorem one_ne_neg_one : (1 : NttField) ≠ -1 := by decide

theorem nttRoot_ne_zero (s : ℕ) (hs : s ≤ 64) : nttRoot s ≠ 0 := by
  intro h
  have hh := nttRoot_pow s hs
  rw [h, zero_pow (Nat.two_pow_pos s).ne'] at hh
  exact zero_ne_one hh

theorem orderOf_nttRoot (s : ℕ) (hs : s ≤ 64) : orderOf (nttRoot s) = 2 ^ s := by
  cases s with
  | zero => rw [nttRoot_zero, orderOf_one, pow_zero]
  | succ s =>
    refine orderOf_eq_prime_pow ?_ (nttRoot_pow _ hs)
    rw [nttRoot_pow_half s (by omega)]
    exact one_ne_neg_one.symm

theorem nttRoot_pow_inj {s : ℕ} (hs : s ≤ 64) {i j : ℕ} (hi : i < 2 ^ s) (hj : j < 2 ^ s)
    (h : nttRoot s ^ i = nttRoot s ^ j) : i = j := by
  refine pow_injOn_Iio_orderOf (x := nttRoot s) ?_ ?_ h
  · rwa [orderOf_nttRoot s hs]
  · rwa [orderOf_nttRoot s hs]

theorem cast_cgNtt128Prime : (((cgNtt128Prime : ℕ) : ℤ) : NttField) = 0 := by
  rw [Int.cast_natCast, ZMod.natCast_self]

theorem nttExponent (s : ℕ) (hs : s ≤ 64) :
    (((cgNtt128Prime : ℕ) : ℤ) - 1) / ((2 ^ s : ℕ) : ℤ) = ((nttOddPart * 2 ^ (64 - s) : ℕ) : ℤ) := by
  have hpow : 2 ^ 64 = 2 ^ (64 - s) * 2 ^ s := by rw [← pow_add, Nat.sub_add_cancel hs]
  rw [cgNtt128Prime_eq, Nat.cast_add, Nat.cast_one, add_sub_cancel_right, hpow, ← mul_assoc]
  rw [Nat.cast_mul, Int.mul_ediv_cancel]
  exact_mod_cast (Nat.two_pow_pos s).ne'

theorem le_of_orderOf {w : NttField} {s : ℕ} (h1 : w ^ 2 ^ (s + 1) = 1) (h2 : w ^ 2 ^ s ≠ 1) :
    s + 1 ≤ 64 := by
  by_contra hlt
  have hord := orderOf_eq_prime_pow h2 h1
  have hw : w ≠ 0 := by
    rintro rfl
    rw [zero_pow (Nat.two_pow_pos _).ne'] at h1
    exact zero_ne_one h1
  have hd : 2 ^ (s + 1) ∣ nttOddPart * 2 ^ 64 := by
    have hh := ZMod.orderOf_dvd_card_sub_one hw
    rw [hord] at hh
    rwa [cgNtt128Prime_eq, Nat.add_sub_cancel] at hh
  have hd' : 2 ^ 65 ∣ nttOddPart * 2 ^ 64 := (Nat.pow_dvd_pow 2 (by omega)).trans hd
  revert hd'
  decide

theorem nttPrimitiveRoot_ok {env : Env} {s : ℕ} {w : Mpz}
    (h : nttPrimitiveRoot env (2 ^ s) cgNtt128Prime = .ok w) : s ≤ 64 ∧ (w : NttField) = nttRoot s := by
  unfold nttPrimitiveRoot at h
  split at h
  · simp at h
  split at h
  · next _ h1 =>
    have hs : s = 0 := by simpa using h1
    subst hs
    simp only [pure_eq_ok, Except.ok.injEq] at h
    rw [← h, nttRoot_zero]
    simp
  next _ h1 =>
  obtain ⟨s, rfl⟩ : ∃ t, s = t + 1 := ⟨s - 1, by rcases s with _ | s <;> simp_all⟩
  have hhalf : 2 ^ (s + 1) / 2 = 2 ^ s := by omega
  simp only [hhalf] at h
  generalize hroot : powMod 3 _ _ = root at h
  split at h
  · simp at h
  next hone =>
  split at h
  · simp at h
  next htwo =>
  simp only [pure_eq_ok, Except.ok.injEq] at h
  subst h
  have hcast : ∀ e : ℕ, ((powMod root (e : ℕ) (cgNtt128Prime : ℕ) : ℤ) : NttField) =
      (root : NttField) ^ e := by
    intro e
    rw [powMod_cast cast_cgNtt128Prime, Int.toNat_natCast]
  have h1 : (root : NttField) ^ 2 ^ (s + 1) = 1 := by
    rw [← hcast, not_not.mp hone, Int.cast_one]
  have h2 : (root : NttField) ^ 2 ^ s ≠ 1 := by
    rw [← hcast]
    intro heq
    have hq : (0 : ℤ) < (cgNtt128Prime : ℕ) := by exact_mod_cast prime_cgNtt128Prime.pos
    refine htwo (eq_of_cast_eq (powModNat_range hq _ _) ?_ (heq.trans Int.cast_one.symm))
    exact ⟨zero_le_one, by exact_mod_cast prime_cgNtt128Prime.one_lt⟩
  have hs := le_of_orderOf h1 h2
  refine ⟨hs, ?_⟩
  rw [← hroot, nttExponent _ hs, powMod_cast cast_cgNtt128Prime, Int.toNat_natCast, nttRoot]
  norm_num

theorem nttPrimitiveRoot_exists {env : Env} (henv : nttRuntimeEnabled env = true) {s : ℕ}
    (hs : s ≤ 64) : ∃ w, nttPrimitiveRoot env (2 ^ s) cgNtt128Prime = .ok w := by
  have hsup : nttDomainSupported env cgNtt128Prime (2 ^ s) = true :=
    nttDomainSupported_iff.mpr ⟨henv, rfl, s, rfl⟩
  cases s with
  | zero =>
    rw [pow_zero] at hsup ⊢
    exact ⟨1, by simp [nttPrimitiveRoot, hsup]⟩
  | succ s =>
    have hq : (0 : ℤ) < (cgNtt128Prime : ℕ) := by exact_mod_cast prime_cgNtt128Prime.pos
    have hne : 2 ^ (s + 1) ≠ 1 := by have := Nat.two_pow_pos s; omega
    have hhalf : 2 ^ (s + 1) / 2 = 2 ^ s := by omega
    have hroot : ((powMod 3 (((cgNtt128Prime : ℕ) - 1) / ((2 ^ (s + 1) : ℕ) : ℤ))
        (cgNtt128Prime : ℕ) : ℤ) : NttField) = nttRoot (s + 1) := by
      rw [nttExponent _ hs, powMod_cast cast_cgNtt128Prime, Int.toNat_natCast, nttRoot]
      norm_num
    unfold nttPrimitiveRoot
    simp only [hsup, Bool.not_true, Bool.false_eq_true, if_false, if_neg hne, hhalf]
    generalize powMod 3 _ _ = root at hroot
    have hcast : ∀ e : ℕ, ((powMod root (e : ℕ) (cgNtt128Prime : ℕ) : ℤ) : NttField) =
        nttRoot (s + 1) ^ e := by
      intro e
      rw [powMod_cast cast_cgNtt128Prime, Int.toNat_natCast, hroot]
    have h1 : powMod root ((2 ^ (s + 1) : ℕ) : ℤ) (cgNtt128Prime : ℕ) = 1 := by
      refine eq_of_cast_eq (powModNat_range hq _ _)
        ⟨zero_le_one, by exact_mod_cast prime_cgNtt128Prime.one_lt⟩ ?_
      rw [hcast, nttRoot_pow _ hs, Int.cast_one]
    have h2 : powMod root ((2 ^ s : ℕ) : ℤ) (cgNtt128Prime : ℕ) ≠ 1 := by
      intro heq
      have hh := hcast (2 ^ s)
      rw [heq, nttRoot_pow_half s (by omega), Int.cast_one] at hh
      exact one_ne_neg_one hh
    rw [if_neg (not_not.mpr h1), if_neg h2]
    exact ⟨root, rfl⟩

theorem nttDomainPoints_ok {env : Env} {s : ℕ} {points : List Mpz}
    (h : nttDomainPoints env (2 ^ s) cgNtt128Prime = .ok points) :
    s ≤ 64 ∧ points.length = 2 ^ s ∧ Reduced cgNtt128Prime points ∧
      ∀ i < 2 ^ s, ((points.getD i 0 : ℤ) : NttField) = nttRoot s ^ i := by
  rw [nttDomainPoints, if_neg (Nat.two_pow_pos s).ne'] at h
  obtain ⟨w, hw, h⟩ := bind_eq_ok.mp h
  obtain ⟨hs, hcast⟩ := nttPrimitiveRoot_ok hw
  simp only [pure_eq_ok, Except.ok.injEq] at h
  subst h
  have hq : (0 : ℤ) < (cgNtt128Prime : ℕ) := by exact_mod_cast prime_cgNtt128Prime.pos
  refine ⟨hs, List.length_iterate _ _ _, fun x hx => ?_, fun i hi => ?_⟩
  · obtain ⟨i, hi, rfl⟩ := List.getElem_of_mem hx
    rw [List.getElem_iterate]
    cases i with
    | zero =>
      rw [Function.iterate_zero_apply]
      exact ⟨zero_le_one, by exact_mod_cast prime_cgNtt128Prime.one_lt⟩
    | succ i =>
      rw [Function.iterate_succ_apply']
      exact emod_range hq _
  · rw [List.getD_eq_getElem _ _ (by rwa [List.length_iterate]), List.getElem_iterate]
    clear hi
    induction i with
    | zero => simp
    | succ i ih =>
      rw [Function.iterate_succ_apply', cast_emod cast_cgNtt128Prime, Int.cast_mul, ih, hcast,
        pow_succ]

theorem nttDomainPoints_exists {env : Env} (henv : nttRuntimeEnabled env = true) {s : ℕ}
    (hs : s ≤ 64) : ∃ points, nttDomainPoints env (2 ^ s) cgNtt128Prime = .ok points := by
  obtain ⟨w, hw⟩ := nttPrimitiveRoot_exists henv hs
  rw [nttDomainPoints, if_neg (Nat.two_pow_pos s).ne', hw]
  exact ⟨_, rfl⟩

end RfClassGroups
