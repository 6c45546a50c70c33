import RfClassGroups.Lib.ConductorForm
import RfClassGroups.Lib.OrderExtension

/-! The classes of the smaller order that become principal in the larger one are those of the
conductor forms. -/

open IdealClass BinaryForm

namespace Suborder

variable {q d D : ℤ}

theorem exists_extend (h : Suborder q d D) {w : QuadraticOrder d} (hw : q ∣ w.im) :
    ∃ r, h.extend r = w := by
  obtain ⟨k, hk⟩ := hw
  refine ⟨⟨w.re - (1 - q) / 2 * k, k⟩, ?_⟩
  apply QuadraticAlgebra.ext
  · rw [re_extend]
    exact sub_add_cancel _ _
  · rw [im_extend, hk]

theorem dvd_im_extend (h : Suborder q d D) (r : QuadraticOrder D) : q ∣ (h.extend r).im :=
  ⟨r.im, rfl⟩

/-- The second generator of a conductor form, divided by `q`. -/
def slope (d L : ℤ) : QuadraticOrder d := ⟨(L - 1) / 2, 1⟩

theorem extend_conductor_root (h : Suborder q d D) {L : ℤ} (hL : L % 2 = 1) :
    h.extend ((conductorForm q d L).root D) = q * slope d L := by
  obtain ⟨hD2, -, -, -⟩ := h.constants
  have he := h.half
  have hq := h.odd
  have hL2 : 2 * ((L - 1) / 2) = L - 1 := by omega
  have hroot : 2 * ((L * q - 1) / 2) = L * q - 1 := by
    have hodd : L * q % 2 = 1 := by rw [Int.mul_emod, hL, hq]; rfl
    omega
  apply QuadraticAlgebra.ext
  · rw [re_extend]
    simp only [root, conductorForm, slope, QuadraticAlgebra.re_mul, QuadraticAlgebra.re_intCast,
      QuadraticAlgebra.im_intCast, Int.cast_id, hD2]
    apply mul_left_cancel₀ (two_ne_zero (α := ℤ))
    linear_combination hroot + he - q * hL2
  · rw [im_extend]
    simp [root, slope]

/-- Twice the second coordinate of a product, where the generator is `(u + v √d) / 2`. -/
theorem two_im_mul (h : Suborder q d D) (α z : QuadraticOrder d) :
    2 * (α * z).im = (2 * α.re + α.im) * z.im + α.im * (2 * z.re + z.im) := by
  obtain ⟨-, hd2, -, -⟩ := h.constants
  rw [QuadraticAlgebra.im_mul]
  linear_combination 2 * α.im * z.im * hd2

theorem not_dvd_two (h : Suborder q d D) (hq : Prime q) : ¬ q ∣ 2 := by
  intro hdvd
  obtain ⟨k, hk⟩ := hdvd
  have hk2 : k % 2 = 0 := by
    have hmod := congrArg (· % 2) hk
    simp only [Int.mul_emod q k, h.odd] at hmod
    omega
  obtain ⟨j, rfl⟩ : ∃ j, k = 2 * j := ⟨k / 2, by omega⟩
  exact hq.not_dvd_one ⟨j, by linarith⟩

/-- What the ideal of a conductor form is made of, where `α` generates the extension of `I`. -/
structure Generator (h : Suborder q d D) (I : Ideal (QuadraticOrder D)) (L : ℤ)
    (α : QuadraticOrder d) (β t : QuadraticOrder D) : Prop where
  map : I.map h.extend = Ideal.span {α}
  scaled : h.extend β = q * α
  scaled_mem : β ∈ I
  slope : h.extend t = α * slope d L
  slope_mem : t ∈ I

theorem exists_generator (h : Suborder q d D) (hq : Prime q) {I : Ideal (QuadraticOrder D)}
    (hprime : PrimeTo (q : QuadraticOrder D) I) {α : QuadraticOrder d}
    (hα : I.map h.extend = Ideal.span {α}) {L : ℤ} (hL : L % 2 = 1)
    (hslope : q ∣ 2 * α.re + α.im + α.im * L) : ∃ β t, h.Generator I L α β t := by
  obtain ⟨β, hβ⟩ := h.conductor.absorbs α
  rw [map_intCast] at hβ
  obtain ⟨t, ht⟩ : ∃ t, h.extend t = α * slope d L := by
    apply h.exists_extend
    have hL2 : 2 * ((L - 1) / 2) = L - 1 := by omega
    have hsum : 2 * (α * slope d L).im = 2 * α.re + α.im + α.im * L := by
      rw [h.two_im_mul]
      simp only [Suborder.slope]
      linear_combination α.im * hL2
    exact (hq.dvd_or_dvd (hsum ▸ hslope)).resolve_left (h.not_dvd_two hq)
  refine ⟨β, t, hα, hβ, ?_, ht, ?_⟩
  · apply h.conductor.mem_of_map hprime
    rw [hα, hβ]
    exact Ideal.mul_mem_left _ _ (Ideal.mem_span_singleton_self α)
  · apply h.conductor.mem_of_map hprime
    rw [hα, ht]
    exact Ideal.mul_mem_right _ _ (Ideal.mem_span_singleton_self α)

namespace Generator

variable {h : Suborder q d D} {I : Ideal (QuadraticOrder D)} {L : ℤ} {α : QuadraticOrder d}
  {β t : QuadraticOrder D}

theorem root_mul (hgen : h.Generator I L α β t) (hL : L % 2 = 1) :
    β * (conductorForm q d L).root D = ((q * q : ℤ) : QuadraticOrder D) * t := by
  apply h.conductor.injective
  rw [map_mul, map_mul, hgen.scaled, h.extend_conductor_root hL, hgen.slope, map_intCast]
  push_cast
  ring

theorem le (hgen : h.Generator I L α β t) (hL : L % 2 = 1) :
    Ideal.span {β} * (conductorForm q d L).ideal D ≤
      Ideal.span {((q * q : ℤ) : QuadraticOrder D)} * I := by
  have ha : ((conductorForm q d L).a : QuadraticOrder D) = ((q * q : ℤ) : QuadraticOrder D) := rfl
  rw [BinaryForm.ideal, span_pair_mul_span_singleton, Ideal.span_le, hgen.root_mul hL, ha]
  intro z hz
  rcases hz with rfl | rfl
  · rw [mul_comm β]
    exact Ideal.mul_mem_mul (Ideal.mem_span_singleton_self _) hgen.scaled_mem
  · exact Ideal.mul_mem_mul (Ideal.mem_span_singleton_self _) hgen.slope_mem

/-- An element of the ideal, in terms of the slope. -/
theorem exists_coordinates (hgen : h.Generator I L α β t) (hq : Prime q) (hL : L % 2 = 1)
    (hslope : q ∣ 2 * α.re + α.im + α.im * L) (hv : ¬ q ∣ α.im) {x : QuadraticOrder D}
    (hx : x ∈ I) : ∃ m n : ℤ, h.extend x = α * (m * Suborder.slope d L + q * n) := by
  have hL2 : 2 * ((L - 1) / 2) = L - 1 := by omega
  have hmem : h.extend x ∈ Ideal.span {α} := hgen.map ▸ Ideal.mem_map_of_mem _ hx
  obtain ⟨z, hz⟩ := Ideal.mem_span_singleton'.mp hmem
  have him := h.two_im_mul α z
  rw [mul_comm α z, hz] at him
  obtain ⟨e, he⟩ := h.dvd_im_extend x
  obtain ⟨s, hs⟩ := hslope
  have hmul : q ∣ α.im * 2 * (z.re - z.im * ((L - 1) / 2)) :=
    ⟨2 * e - s * z.im, by linear_combination -him + 2 * he - z.im * hs - α.im * z.im * hL2⟩
  have hcoord : q ∣ z.re - z.im * ((L - 1) / 2) := by
    rcases hq.dvd_or_dvd hmul with h' | h'
    · exact absurd ((hq.dvd_or_dvd h').resolve_right (h.not_dvd_two hq)) hv
    · exact h'
  obtain ⟨n, hn⟩ := hcoord
  refine ⟨z.im, n, ?_⟩
  have hzsum : z = z.im * Suborder.slope d L + q * n := by
    apply QuadraticAlgebra.ext
    · simp only [Suborder.slope, QuadraticAlgebra.re_add, QuadraticAlgebra.re_mul,
        QuadraticAlgebra.re_intCast, QuadraticAlgebra.im_intCast, Int.cast_id]
      linear_combination hn
    · simp [Suborder.slope]
  rw [← hz, mul_comm, ← hzsum]

theorem ge (hgen : h.Generator I L α β t) (hq : Prime q) (hL : L % 2 = 1)
    (hslope : q ∣ 2 * α.re + α.im + α.im * L) (hv : ¬ q ∣ α.im) :
    Ideal.span {((q * q : ℤ) : QuadraticOrder D)} * I ≤
      Ideal.span {β} * (conductorForm q d L).ideal D := by
  rw [Ideal.span_singleton_mul_le_iff]
  intro x hx
  obtain ⟨m, n, hmn⟩ := hgen.exists_coordinates hq hL hslope hv hx
  have hprod : ((q * q : ℤ) : QuadraticOrder D) * x =
      β * (n * (q * q : ℤ) + m * (conductorForm q d L).root D) := by
    apply h.conductor.injective
    rw [map_mul, map_mul, map_add, map_mul, map_mul, hgen.scaled, h.extend_conductor_root hL, hmn,
      map_intCast, map_intCast, map_intCast]
    push_cast
    ring
  rw [hprod]
  apply Ideal.mul_mem_mul (Ideal.mem_span_singleton_self _)
  apply add_mem
  · exact Ideal.mul_mem_left _ _ (Ideal.subset_span (Set.mem_insert _ _))
  · exact Ideal.mul_mem_left _ _ (Ideal.subset_span (Set.mem_insert_of_mem _ rfl))

end Generator

section

variable [Fact (D < 0)] [Fact (d < 0)]

theorem classOf_of_generator (h : Suborder q d D) (hq : Prime q) (hq0 : 0 < q) (hqd : q ∣ d)
    {g : BinaryForm} (hg : g.Proper D) {α : QuadraticOrder d} {β t : QuadraticOrder D} {m L : ℤ}
    (hgen : h.Generator (g.ideal D) L α β t) (hα : α ≠ 0) (hL : OddInverse q m L)
    (hslope : q ∣ 2 * α.re + α.im + α.im * L) (hv : ¬ q ∣ α.im) :
    classOf D g = classOf D (conductorForm q d L) := by
  have hproper := conductorForm_proper hq hq0 hqd h.residue h.eq hL
  refine ((of_eq_iff hproper.invertible hg.invertible).mpr
    ⟨β, ((q * q : ℤ) : QuadraticOrder D), ?_, ?_, ?_⟩).symm
  · intro h0
    have hscaled := hgen.scaled
    have hq' : (q : QuadraticOrder d) ≠ 0 := by exact_mod_cast hq.ne_zero
    rw [h0, map_zero] at hscaled
    exact hα ((mul_eq_zero.mp hscaled.symm).resolve_left hq')
  · exact_mod_cast mul_ne_zero hq.ne_zero hq.ne_zero
  · exact le_antisymm (hgen.le hL.odd) (hgen.ge hq hL.odd hslope hv)

/-- A form prime to `q` whose class becomes principal in the larger order has the class of the
order or that of a conductor form. -/
theorem classOf_kernel (h : Suborder q d D) (hq : Prime q) (hq0 : 0 < q) (hqd : q ∣ d)
    {g : BinaryForm} (hg : g.Proper D) (hcop : IsCoprime g.a q) (hone : h.extendClass g = 1) :
    classOf D g = 1 ∨ ∃ m L, OddInverse q m L ∧ classOf D g = classOf D (conductorForm q d L) := by
  have hprime : PrimeTo (q : QuadraticOrder D) (g.ideal D) := primeTo_ideal hcop
  obtain ⟨α, hα0, hα⟩ := eq_span_of_of_eq_one (h.invertible_map hg) hone
  by_cases hv : q ∣ α.im
  · left
    -- the generator itself lies in the smaller order
    obtain ⟨β, hβ⟩ := h.exists_extend hv
    obtain ⟨k, hk⟩ := hv
    have hαsum : α = α.re + q * ⟨0, k⟩ := by
      apply QuadraticAlgebra.ext
      · simp
      · simp [hk]
    have hn := h.coprime_of_generator hq hprime hα hαsum
    rw [← hβ] at hα
    have hspan := h.conductor.eq_span_of_map hprime (n := (α.re : QuadraticOrder D)) hα
      (by rw [map_intCast, map_intCast, hβ]; exact hαsum)
      (hn.map (Int.castRingHom (QuadraticOrder D)))
    rw [classOf, hspan, of_span]
    rintro rfl
    exact hα0 (by rw [← hβ, map_zero])
  · right
    obtain ⟨n, γ, hn⟩ := h.exists_frobenius hq hq0 hqd α
    have hu := h.coprime_of_generator hq (hprime.pow q.toNat) (h.map_pow_span hα q.toNat) hn
    have hu' : ¬ q ∣ 2 * α.re + α.im := by
      intro hdvd
      have hpos : q.toNat ≠ 0 := by omega
      have hpow : q ∣ (n * (2 * α.re + α.im)) ^ q.toNat :=
        dvd_pow (hdvd.mul_left n) hpos
      exact hq.not_isUnit (hu.isUnit_of_dvd' hpow dvd_rfl)
    obtain ⟨w, e, hw⟩ := (hq.coprime_iff_not_dvd.mpr hv).symm
    obtain ⟨L, hLodd, hL⟩ : ∃ L, L % 2 = 1 ∧ q ∣ L + (2 * α.re + α.im) * w := by
      have hq2 := h.odd
      rcases Int.emod_two_eq_zero_or_one (-((2 * α.re + α.im) * w)) with h0 | h1
      · exact ⟨-((2 * α.re + α.im) * w) + q, by omega, ⟨1, by ring⟩⟩
      · exact ⟨-((2 * α.re + α.im) * w), h1, ⟨0, by ring⟩⟩
    obtain ⟨s, hs⟩ := hL
    have hslope : q ∣ 2 * α.re + α.im + α.im * L :=
      ⟨α.im * s + e * (2 * α.re + α.im),
        by linear_combination α.im * hs - (2 * α.re + α.im) * hw⟩
    have hLunit : ¬ q ∣ L := by
      intro hdvd
      exact hu' ((dvd_add_left (hdvd.mul_left α.im)).mp hslope)
    obtain ⟨m, e', hm⟩ := (hq.coprime_iff_not_dvd.mpr hLunit).symm
    have hinv : OddInverse q m L := ⟨hLodd, ⟨-e', by linear_combination hm⟩⟩
    obtain ⟨β, t, hgen⟩ := h.exists_generator hq hprime hα hLodd hslope
    exact ⟨m, L, hinv, h.classOf_of_generator hq hq0 hqd hg hgen hα0 hinv hslope hv⟩

omit [Fact (D < 0)] in
/-- A conductor form becomes principal in the larger order. -/
theorem extendClass_conductorForm (h : Suborder q d D) (hq : Prime q) (hqd : q ∣ d) {m L : ℤ}
    (hL : OddInverse q m L) : h.extendClass (conductorForm q d L) = 1 := by
  have hodd := hL.odd
  have hc := conductorForm_c h.residue hL.odd
  have hroot := h.extend_conductor_root hL.odd
  have ha : ((conductorForm q d L).a : QuadraticOrder d) = q * q := by
    simp only [conductorForm]
    push_cast
    rfl
  -- the norm of the slope is prime to `q`
  obtain ⟨u, v, huv⟩ : IsCoprime ((L * L - d) / 4) q := by
    rw [isCoprime_comm, hq.coprime_iff_not_dvd]
    intro hdvd
    have hLL : q ∣ L * L := by
      have hsum := dvd_add (hdvd.mul_left 4) hqd
      rwa [hc, sub_add_cancel] at hsum
    rcases hq.dvd_or_dvd hLL with h' | h' <;> exact hL.not_dvd hq h'
  have hnorm : slope d L * (L - slope d L) = ((L * L - d) / 4 : ℤ) := by
    obtain ⟨-, hd2, -, hd4⟩ := h.constants
    have hL2 : 2 * ((L - 1) / 2) = L - 1 := by omega
    apply QuadraticAlgebra.ext
    · simp only [slope, QuadraticAlgebra.re_mul, QuadraticAlgebra.re_sub, QuadraticAlgebra.im_sub,
        QuadraticAlgebra.re_intCast, QuadraticAlgebra.im_intCast, Int.cast_id]
      apply mul_left_cancel₀ (four_ne_zero (α := ℤ))
      linear_combination -hd4 - hc - (2 * ((L - 1) / 2) - L - 1) * hL2
    · simp only [slope, QuadraticAlgebra.im_mul, QuadraticAlgebra.re_sub, QuadraticAlgebra.im_sub,
        QuadraticAlgebra.re_intCast, QuadraticAlgebra.im_intCast, Int.cast_id]
      linear_combination -hL2 - hd2
  have htop : Ideal.span {(q : QuadraticOrder d), slope d L} = ⊤ := by
    rw [Ideal.eq_top_iff_one]
    refine Ideal.mem_span_pair.mpr ⟨v, u * (L - slope d L), ?_⟩
    have hcast := congrArg (Int.cast : ℤ → QuadraticOrder d) huv
    push_cast at hcast
    linear_combination hcast + (u : QuadraticOrder d) * hnorm
  have hq0 : (q : QuadraticOrder d) ≠ 0 := by exact_mod_cast hq.ne_zero
  rw [extendClass, h.map_ideal, hroot, ha, ← span_pair_mul_span_singleton, htop, Ideal.mul_top,
    of_span hq0]

end

end Suborder
