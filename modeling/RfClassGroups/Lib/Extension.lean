import RfClassGroups.Lib.IdealClass

/-! Ideals of a ring `R` that lies in a larger ring with conductor `l`, and their extensions:
the extension keeps products and classes, and an ideal prime to `l` can be read off its
extension. -/

namespace IdealClass

section

variable {R S : Type*} [CommRing R] [CommRing S] {φ : R →+* S} {l : R}

theorem map_span_singleton (φ : R →+* S) (x : R) :
    (Ideal.span {x}).map φ = Ideal.span {φ x} := by
  rw [Ideal.map_span, Set.image_singleton]

/-- The multiples of `l` in the larger ring lie in the smaller one. -/
structure Conductor (φ : R →+* S) (l : R) : Prop where
  injective : Function.Injective φ
  absorbs : ∀ s, ∃ r, φ r = φ l * s

def PrimeTo (l : R) (I : Ideal R) : Prop := ∃ a ∈ I, IsCoprime a l

theorem PrimeTo.pow {I : Ideal R} (h : PrimeTo l I) (n : ℕ) : PrimeTo l (I ^ n) := by
  obtain ⟨a, ha, hcop⟩ := h
  exact ⟨a ^ n, Ideal.pow_mem_pow ha n, hcop.pow_left⟩

namespace Conductor

theorem scaled_mul (h : Conductor φ l) {I : Ideal R} {y : S} (hy : y ∈ I.map φ) :
    ∀ s, ∃ r ∈ I, φ r = φ l * (s * y) := by
  induction hy using Submodule.span_induction with
  | mem y hy =>
    intro s
    obtain ⟨x, hx, rfl⟩ := hy
    obtain ⟨t, ht⟩ := h.absorbs s
    exact ⟨t * x, I.mul_mem_left t hx, by rw [map_mul, ht, mul_assoc]⟩
  | zero =>
    intro s
    exact ⟨0, I.zero_mem, by rw [map_zero, mul_zero, mul_zero]⟩
  | add y z _ _ hy hz =>
    intro s
    obtain ⟨r, hr, hry⟩ := hy s
    obtain ⟨t, ht, htz⟩ := hz s
    exact ⟨r + t, I.add_mem hr ht, by rw [map_add, hry, htz, mul_add, mul_add]⟩
  | smul t y _ hy =>
    intro s
    obtain ⟨r, hr, hry⟩ := hy (s * t)
    exact ⟨r, hr, by rw [hry, smul_eq_mul, mul_assoc s]⟩

/-- What the extension has of the smaller ring was there before. -/
theorem mem_of_map (h : Conductor φ l) {I : Ideal R} (hI : PrimeTo l I) {x : R}
    (hx : φ x ∈ I.map φ) : x ∈ I := by
  obtain ⟨r, hr, hrx⟩ := h.scaled_mul hx 1
  have hlx : l * x = r := h.injective (by rw [map_mul, hrx, one_mul])
  obtain ⟨a, ha, u, v, huv⟩ := hI
  have hsum : x = u * x * a + v * r := by
    rw [← hlx]
    linear_combination -x * huv
  rw [hsum]
  exact I.add_mem (I.mul_mem_left _ ha) (I.mul_mem_left _ hr)

/-- An extension that is generated by an element of the smaller ring, which is prime to `l`
up to multiples of `l`, comes from a principal ideal. -/
theorem eq_span_of_map (h : Conductor φ l) {I : Ideal R} (hI : PrimeTo l I) {β n : R} {γ : S}
    (hmap : I.map φ = Ideal.span {φ β}) (hβ : φ β = φ n + φ l * γ) (hn : IsCoprime n l) :
    I = Ideal.span {β} := by
  apply le_antisymm
  · intro y hy
    have hmem : φ y ∈ Ideal.span {φ β} := hmap ▸ Ideal.mem_map_of_mem φ hy
    obtain ⟨s, hs⟩ := Ideal.mem_span_singleton'.mp hmem
    obtain ⟨t, ht⟩ := h.absorbs (γ * s)
    obtain ⟨t', ht'⟩ := h.absorbs s
    obtain ⟨u, v, huv⟩ := hn
    have hs' : φ (u * (y - t) + v * t') = s := by
      have hone := congrArg φ huv
      simp only [map_add, map_mul, map_sub, map_one, ht, ht', ← hs, hβ] at hone ⊢
      linear_combination s * hone
    refine Ideal.mem_span_singleton'.mpr ⟨u * (y - t) + v * t', h.injective ?_⟩
    rw [map_mul, hs', hs]
  · rw [Ideal.span_singleton_le_iff_mem]
    apply h.mem_of_map hI
    rw [hmap]
    exact Ideal.mem_span_singleton_self _

end Conductor

end

section

variable {R S : Type*} [CommRing R] [IsDomain R] [CommRing S] [IsDomain S] {φ : R →+* S}

/-- Ideals of one class have extensions of one class. -/
theorem of_map_eq (hφ : Function.Injective φ) {I J : Ideal R} (hI : Invertible I)
    (hJ : Invertible J) (hI' : Invertible (I.map φ)) (hJ' : Invertible (J.map φ))
    (h : of I = of J) : of (I.map φ) = of (J.map φ) := by
  obtain ⟨x, y, hx, hy, hxy⟩ := (of_eq_iff hI hJ).mp h
  have hmap := congrArg (Ideal.map φ) hxy
  rw [Ideal.map_mul, Ideal.map_mul, map_span_singleton, map_span_singleton] at hmap
  exact (of_eq_iff hI' hJ').mpr
    ⟨φ x, φ y, (map_ne_zero_iff φ hφ).mpr hx, (map_ne_zero_iff φ hφ).mpr hy, hmap⟩

/-- An invertible ideal of the class of the ring is principal. -/
theorem eq_span_of_of_eq_one {I : Ideal R} (hI : Invertible I) (h : of I = 1) :
    ∃ z, z ≠ 0 ∧ I = Ideal.span {z} := by
  have hone : of (Ideal.span {(1 : R)}) = 1 := of_span one_ne_zero
  obtain ⟨x, y, hx, hy, hxy⟩ :=
    (of_eq_iff hI (invertible_span one_ne_zero)).mp (h.trans hone.symm)
  rw [Ideal.span_singleton_mul_span_singleton, mul_one] at hxy
  have hmem : y ∈ Ideal.span {x} * I := hxy ▸ Ideal.mem_span_singleton_self y
  obtain ⟨z, -, hz⟩ := Ideal.mem_span_singleton_mul.mp hmem
  refine ⟨z, fun h0 => hy (by rw [← hz, h0, mul_zero]), ?_⟩
  rw [← hz, ← Ideal.span_singleton_mul_span_singleton] at hxy
  exact (Ideal.span_singleton_mul_right_inj hx).mp hxy

end

end IdealClass
