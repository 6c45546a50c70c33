import RfClassGroups.Lib.Composition

/-! The forms `(q^2, L q, (L^2 - d) / 4)` of discriminant `q^2 d`, for a prime `q` that divides
`d`: the inverse of `L` modulo `q` is an additive name of the class. -/

namespace BinaryForm

def conductorForm (q d L : ℤ) : BinaryForm := ⟨q * q, L * q, (L * L - d) / 4⟩

section

variable {D q d : ℤ}

/-- An odd inverse of `m` modulo `q`. -/
structure OddInverse (q m L : ℤ) : Prop where
  odd : L % 2 = 1
  inverse : q ∣ L * m - 1

theorem OddInverse.not_dvd {m L : ℤ} (hq : Prime q) (h : OddInverse q m L) : ¬ q ∣ L := by
  intro hL
  have hone := (dvd_sub_right (hL.mul_right m)).mp h.inverse
  exact hq.not_dvd_one hone

theorem conductorForm_c (hd : d % 4 = 1) {L : ℤ} (hL : L % 2 = 1) :
    4 * ((L * L - d) / 4) = L * L - d := by
  apply Int.mul_ediv_cancel'
  obtain ⟨k, hk⟩ : ∃ k, L = 2 * k + 1 := ⟨L / 2, by omega⟩
  obtain ⟨l, hl⟩ : ∃ l, d = 4 * l + 1 := ⟨d / 4, by omega⟩
  exact ⟨k * k + k - l, by rw [hk, hl]; ring⟩

theorem conductorForm_disc (hd : d % 4 = 1) {L : ℤ} (hL : L % 2 = 1) :
    (conductorForm q d L).disc = q * q * d := by
  simp only [conductorForm, disc]
  linear_combination -q * q * conductorForm_c hd hL

theorem conductorForm_proper (hq : Prime q) (hq0 : 0 < q) (hqd : q ∣ d) (hd : d % 4 = 1)
    (hD : D = q * q * d) {m L : ℤ} (hL : OddInverse q m L) : (conductorForm q d L).Proper D := by
  refine ⟨mul_pos hq0 hq0, hD ▸ conductorForm_disc hd hL.odd, ?_⟩
  by_contra hne
  obtain ⟨r, hr, hdvd⟩ := Nat.exists_prime_and_dvd hne
  obtain ⟨ha, -, hc⟩ := ((conductorForm q d L).dvd_content_iff r).mp hdvd
  have hrq : (r : ℤ) ∣ q := by
    rcases (Nat.prime_iff_prime_int.mp hr).dvd_or_dvd ha with h | h <;> exact h
  have hqc : q ∣ (L * L - d) / 4 :=
    ((Nat.prime_iff_prime_int.mp hr).irreducible.associated_of_dvd hq.irreducible hrq).symm.dvd.trans hc
  have hqL : q ∣ L * L := by
    have hh := dvd_add (hqc.mul_left 4) hqd
    rwa [conductorForm_c hd hL.odd, sub_add_cancel] at hh
  rcases hq.dvd_or_dvd hqL with h | h <;> exact hL.not_dvd hq h

/-- Only the residue of `L` counts. -/
theorem conductorForm_equivalent (hq2 : q % 2 = 1) (hd : d % 4 = 1) {L L' : ℤ}
    (hL : L % 2 = 1) (hL' : L' % 2 = 1) (h : q ∣ L' - L) :
    Equivalent (conductorForm q d L) (conductorForm q d L') := by
  obtain ⟨k, hk⟩ := h
  have heven : k % 2 = 0 := by
    have hh := congrArg (· % 2) hk
    simp only [Int.mul_emod q k, hq2] at hh
    omega
  obtain ⟨l, rfl⟩ : ∃ l, k = 2 * l := ⟨k / 2, by omega⟩
  have htranslate := Equivalent.translate (conductorForm q d L) l
  convert htranslate using 1
  have hc := conductorForm_c hd hL
  have hc' := conductorForm_c hd hL'
  have hLL : L' = L + 2 * q * l := by linarith
  simp only [conductorForm, mk.injEq, true_and]
  refine ⟨by rw [hLL]; ring, ?_⟩
  apply mul_left_cancel₀ four_ne_zero
  rw [hc', hLL]
  linear_combination -hc

/-- Inverses of one number name one class. -/
theorem conductorForm_equivalent_of_inverse (hq : Prime q) (hq2 : q % 2 = 1) (hd : d % 4 = 1)
    {m L L' : ℤ} (hL : OddInverse q m L) (hL' : OddInverse q m L') :
    Equivalent (conductorForm q d L) (conductorForm q d L') := by
  apply conductorForm_equivalent hq2 hd hL.odd hL'.odd
  have hunit : ¬ q ∣ m := by
    intro h
    exact hq.not_dvd_one ((dvd_sub_right (h.mul_left L)).mp hL.inverse)
  have hmul : q ∣ (L' - L) * m := by
    have hsum : (L' - L) * m = L' * m - 1 - (L * m - 1) := by ring
    rw [hsum]
    exact dvd_sub hL'.inverse hL.inverse
  exact (hq.dvd_or_dvd hmul).resolve_right hunit

/-- The matrix that composes two of the forms. -/
def conductorMatrix (q L L' Bx Dx : ℤ) : CompositionMatrix where
  Ax := q
  Bx := Bx
  Cx := Bx - (L' - L) / 2
  Dx := Dx
  Ay := 0
  By := q
  Cy := q
  Dy := (L + L') / 2

theorem conductorMatrix_forms (hd : d % 4 = 1) {L L' Bx Dx : ℤ} (hL : L % 2 = 1) (hL' : L' % 2 = 1)
    (hBx : Bx * ((L + L') / 2) - Dx * q = (L' * L' - d) / 4) :
    (conductorMatrix q L L' Bx Dx).left = conductorForm q d L ∧
      (conductorMatrix q L L' Bx Dx).right = conductorForm q d L' ∧
      (conductorMatrix q L L' Bx Dx).form = conductorForm q d (L' - 2 * Bx) := by
  have hc := conductorForm_c hd hL
  have hc' := conductorForm_c hd hL'
  have hc'' := conductorForm_c hd (show (L' - 2 * Bx) % 2 = 1 by omega)
  have hs : 2 * ((L + L') / 2) = L + L' := by omega
  have ht : 2 * ((L' - L) / 2) = L' - L := by omega
  unfold conductorMatrix conductorForm CompositionMatrix.left CompositionMatrix.right
    CompositionMatrix.form
  generalize (L + L') / 2 = s at *
  generalize (L' - L) / 2 = t at *
  refine ⟨?_, ?_, ?_⟩
  · apply BinaryForm.ext <;> dsimp only
    · ring
    · apply mul_left_cancel₀ two_ne_zero
      linear_combination q * hs - q * ht
    · apply mul_left_cancel₀ four_ne_zero
      linear_combination 4 * hBx + hc' - hc - (L' - L) * hs - 2 * s * ht
  · apply BinaryForm.ext <;> dsimp only
    · ring
    · apply mul_left_cancel₀ two_ne_zero
      linear_combination q * hs + q * ht
    · linear_combination hBx
  · apply BinaryForm.ext <;> dsimp only
    · ring
    · apply mul_left_cancel₀ two_ne_zero
      linear_combination q * hs + q * ht
    · apply mul_left_cancel₀ four_ne_zero
      linear_combination 4 * hBx + hc' - hc'' - 2 * Bx * hs - 2 * Bx * ht

variable [Fact (D < 0)]

/-- The classes of two of the forms multiply as the inverses of their names add. -/
theorem classOf_conductorForm_add (hq : Prime q) (hq0 : 0 < q) (hq2 : q % 2 = 1) (hqd : q ∣ d)
    (hd : d % 4 = 1) (hD : D = q * q * d) {m m' L L' L'' : ℤ} (hL : OddInverse q m L)
    (hL' : OddInverse q m' L') (hL'' : OddInverse q (m + m') L'') :
    classOf D (conductorForm q d L'') =
      classOf D (conductorForm q d L) * classOf D (conductorForm q d L') := by
  have hs : 2 * ((L + L') / 2) = L + L' := by
    have hodd := hL.odd
    have hodd' := hL'.odd
    omega
  obtain ⟨x, hx⟩ := hL.inverse
  obtain ⟨x', hx'⟩ := hL'.inverse
  obtain ⟨x'', hx''⟩ := hL''.inverse
  have hsum : L + L' = L * L' * (m + m') - q * (L' * x + L * x') := by
    linear_combination -L' * hx - L * hx'
  have hunit : ¬ q ∣ L + L' := by
    intro hdvd
    have hprod : q ∣ L * L' * (m + m') :=
      (dvd_sub_left (dvd_mul_right q _)).mp (hsum ▸ hdvd)
    rcases hq.dvd_or_dvd hprod with h | h
    · rcases hq.dvd_or_dvd h with h | h
      · exact hL.not_dvd hq h
      · exact hL'.not_dvd hq h
    · have hone := (dvd_sub_right (h.mul_left L'')).mp hL''.inverse
      exact hq.not_dvd_one hone
  have hhalf : ¬ q ∣ (L + L') / 2 := fun hdvd => hunit (hs ▸ hdvd.mul_left 2)
  obtain ⟨u, v, huv⟩ := (hq.coprime_iff_not_dvd.mpr hhalf).symm
  have hc' := conductorForm_c hd hL'.odd
  have hBx : u * ((L' * L' - d) / 4) * ((L + L') / 2) - -(v * ((L' * L' - d) / 4)) * q =
      (L' * L' - d) / 4 := by
    linear_combination (L' * L' - d) / 4 * huv
  obtain ⟨hleft, hright, hform⟩ := conductorMatrix_forms hd hL.odd hL'.odd hBx
  generalize u * ((L' * L' - d) / 4) = Bx at *
  generalize -(v * ((L' * L' - d) / 4)) = Dx at *
  have hcompose := CompositionMatrix.classOf_form (M := conductorMatrix q L L' Bx Dx)
    (hleft ▸ conductorForm_proper hq hq0 hqd hd hD hL)
    (hright ▸ conductorForm_proper hq hq0 hqd hd hD hL')
  rw [hleft, hright, hform] at hcompose
  rw [← hcompose]
  apply (classOf_eq_of_equivalent (conductorForm_proper hq hq0 hqd hd hD hL'') _).symm
  apply conductorForm_equivalent hq2 hd hL''.odd
  · have hodd' := hL'.odd
    omega
  · have hmul : q ∣ (L' - 2 * Bx - L'') * (L + L') := by
      obtain ⟨e, he⟩ := hqd
      refine ⟨e - 4 * Dx - (L * L' * x'' - L'' * (L' * x + L * x')), ?_⟩
      linear_combination 2 * Bx * hs - 4 * hBx - hc' + he - L'' * hsum - L * L' * hx''
    exact (hq.dvd_or_dvd hmul).resolve_right hunit

/-- The forms of opposite names are inverse to each other. -/
theorem classOf_conductorForm_neg (hq : Prime q) (hq0 : 0 < q) (hq2 : q % 2 = 1) (hqd : q ∣ d)
    (hd : d % 4 = 1) (hD : D = q * q * d) {m m' L L' : ℤ} (hL : OddInverse q m L)
    (hL' : OddInverse q m' L') (hm : q ∣ m + m') :
    classOf D (conductorForm q d L) * classOf D (conductorForm q d L') = 1 := by
  have hproper := conductorForm_proper hq hq0 hqd hd hD hL
  have hmirror : (⟨(conductorForm q d L).a, -(conductorForm q d L).b, (conductorForm q d L).c⟩ :
      BinaryForm) = conductorForm q d (-L) := by
    simp only [conductorForm, neg_mul, mul_neg, neg_neg]
  have hodd : (-L) % 2 = 1 := by
    have hh := hL.odd
    omega
  have hunit : ¬ q ∣ m := by
    intro h
    exact hq.not_dvd_one ((dvd_sub_right (h.mul_left L)).mp hL.inverse)
  have hopposite : q ∣ L' - -L := by
    have hmul : q ∣ (L' - -L) * m := by
      have hsum : (L' - -L) * m = L' * (m + m') - (L' * m' - 1) + (L * m - 1) := by ring
      rw [hsum]
      exact dvd_add (dvd_sub (hm.mul_left L') hL'.inverse) hL.inverse
    exact (hq.dvd_or_dvd hmul).resolve_right hunit
  have hequiv := conductorForm_equivalent hq2 hd hodd hL'.odd hopposite
  rw [← hmirror] at hequiv
  rw [classOf_eq_of_equivalent hproper.mirror hequiv, classOf_mirror hproper, mul_inv_cancel]

end

end BinaryForm
