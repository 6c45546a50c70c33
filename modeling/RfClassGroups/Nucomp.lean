import RfClassGroups.Lib.Composition
import RfClassGroups.PartialEuclid
import RfClassGroups.Qfi

/-! Composition and duplication of forms. -/

open BinaryForm

namespace RfClassGroups.Bicycl

/-- `mpz_gcdext`: the greatest common divisor and its two multipliers. Of two equal absolute
values it takes the second. -/
def gcdext (a b : Mpz) : Mpz × Mpz × Mpz :=
  if a.natAbs = b.natAbs then (Int.gcd a b, 0, b.sign)
  else (Int.gcd a b, Int.gcdA a b, Int.gcdB a b)

theorem gcdext_spec (a b : Mpz) :
    ∃ u v, gcdext a b = ((Int.gcd a b : ℤ), u, v) ∧ (Int.gcd a b : ℤ) = a * u + b * v := by
  by_cases h : a.natAbs = b.natAbs
  · refine ⟨0, b.sign, by rw [gcdext, if_pos h], ?_⟩
    rw [Int.gcd_def, h, Nat.gcd_self, mul_zero, zero_add, Int.mul_sign_self]
  · exact ⟨Int.gcdA a b, Int.gcdB a b, by rw [gcdext, if_neg h], Int.gcd_eq_gcd_ab a b⟩

structure OpsAuxVars where
  s : Mpz
  m : Mpz
  Ax : Mpz
  Bx : Mpz
  By : Mpz
  Cy : Mpz
  Dy : Mpz

/-- The matrix of the variables at the call of `partial_euclid`. -/
def OpsAuxVars.matrix (v : OpsAuxVars) (Cx Dx : ℤ) : CompositionMatrix :=
  ⟨v.Ax, v.Bx, Cx, Dx, 0, v.By, v.Cy, v.Dy⟩

namespace QFI

/-- `s` and `m`, those of the inverse of `f2` if `negf2` is set. -/
def nucompHalves (f1 f2 : QFI) (negf2 : Bool) : Mpz × Mpz :=
  let s := (f1.b + f2.b) / 2
  let m := f2.b - s
  if negf2 then (-m, -s) else (s, m)

def nucompColumns (f1 f2 : QFI) (s m : Mpz) : Mpz × Mpz × Mpz :=
  let (F, u, v) := gcdext f1.a f2.a
  if F = 1 then (1, m * v, f1.a)
  else if s % F = 0 then (F, m * v, f1.a / F)
  else
    let (Ax, _, y) := gcdext F s
    let H := F / Ax
    let t0 := (f1.c % H * v + f2.c % H * u) % H
    let l := t0 * y % H
    let By := f1.a / Ax
    (Ax, (v * m + l * By) / H, By)

/-- The variables at the call of `partial_euclid`, with `Bx` reduced modulo `By`. -/
def nucompStart (f1 f2 : QFI) (negf2 : Bool) : OpsAuxVars :=
  let (s, m) := nucompHalves f1 f2 negf2
  let (Ax, Bx, By) := nucompColumns f1 f2 s m
  { s := s, m := m, Ax := Ax, Bx := Bx % By, By := By, Cy := f2.a / Ax, Dy := s / Ax }

def nucompFinish (f1 f2 : QFI) (v : OpsAuxVars) (e : EuclidResult) : QFI :=
  let Ay := -(e.u10 * v.Ax)
  let Cx := (e.a * v.Cy - v.m * e.u11) / v.By
  let Cy := if e.a = 0 then (f2.a * e.b - Ay * v.m) / f1.a else (Cx * e.b + v.m) / e.a
  let Dx := (e.a * v.Dy - f2.c * e.u11) / v.By
  let Dy := (v.Dy - Dx * e.u10) / e.u11
  let Ax := e.u11 * v.Ax
  reduction ⟨e.b * Cy - Ay * Dy, Ax * Dy + Ay * Dx - e.a * Cy - e.b * Cx, e.a * Cx - Ax * Dx⟩

def nucomp (euclid : ℕ → Mpz → Mpz → Option EuclidResult) (f1 f2 : QFI) (L : Mpz)
    (negf2 : Bool) : Option QFI :=
  let v := nucompStart f1 f2 negf2
  (euclid (PartialEuclid.absiz L.natAbs) v.Bx v.By).map (nucompFinish f1 f2 v)

/-- The variables of a duplication at the call of `partial_euclid`, where `Cx = Bx`,
`Cy = By` and `Ay = 0`. -/
def nuduplStart (f : QFI) : CompositionMatrix :=
  let (d, u, v) := gcdext f.a f.b
  let By := if d = 1 then f.a else f.a / d
  let Dy := if d = 1 then f.b else f.b / d
  let Dx := -(f.c * u)
  let Bx := f.c * v
  { Ax := d, Bx := Bx % By, Cx := Bx % By, Dx := Dx - Bx / By * Dy,
    Ay := 0, By := By, Cy := By, Dy := Dy }

def nuduplFinish (v : CompositionMatrix) (e : EuclidResult) : QFI :=
  let Ay := -(v.Ax * e.u10)
  let Ax := v.Ax * e.u11
  let Dx := v.Dx * e.u11 - v.Dy * e.u01
  let Dy := v.Dy * e.u00 - v.Dx * e.u10
  reduction ⟨e.b * e.b - Ay * Dy, Ax * Dy + Ay * Dx - 2 * (e.b * e.a), e.a * e.a - Ax * Dx⟩

def nudupl (euclid : ℕ → Mpz → Mpz → Option EuclidResult) (f : QFI) (L : Mpz) : Option QFI :=
  let v := nuduplStart f
  (euclid (PartialEuclid.absiz L.natAbs) v.Bx v.By).map (nuduplFinish v)

/-- The form that enters a composition: the second one is inverted on request. -/
def signed (f : QFI) (inv : Bool) : QFI := if inv then ⟨f.a, -f.b, f.c⟩ else f

/-- The divisions of the third column and of the fourth one are exact, for every choice of
the multipliers of the two greatest common divisors. -/
theorem columns_exact {A1 A2 S H u v x y l z m c1 c2 Bx : ℤ} (hH : H ≠ 0)
    (hF : u * A1 + v * A2 = H) (hG : x * H + y * S = 1) (hsm : S * m = A2 * c2 - A1 * c1)
    (hl : l = y * (v * c1 + u * c2) + H * z) (hB : H * Bx = v * m + l * A1) :
    (∃ Cx, Bx * A2 - m = A1 * Cx) ∧ ∃ Dx, Bx * S - c2 = A1 * Dx := by
  constructor
  · refine ⟨x * (l * A2 - u * m) + y * (c1 + A2 * (S * z - x * (v * c1 + u * c2))), ?_⟩
    apply mul_left_cancel₀ hH
    linear_combination A2 * hB + m * hF + A1 * (-(l * A2 - u * m) * hG + y * (A2 * S * hl +
      A2 * (v * c1 + u * c2) * hG - u * hsm + c1 * hF))
  · refine ⟨S * z - x * (v * c1 + u * c2), ?_⟩
    apply mul_left_cancel₀ hH
    linear_combination S * hB + S * A1 * hl + v * hsm + c2 * hF + A1 * (v * c1 + u * c2) * hG

theorem first_column_exact {A1 A2 S H u v x y l z m c1 c2 : ℤ}
    (hF : u * A1 + v * A2 = H) (hG : x * H + y * S = 1) (hsm : S * m = A2 * c2 - A1 * c1)
    (hl : l = y * (v * c1 + u * c2) + H * z) : H ∣ v * m + l * A1 := by
  refine ⟨x * (v * m + l * A1) + y * (c2 + A1 * (S * z - x * (v * c1 + u * c2))), ?_⟩
  linear_combination -(v * m + l * A1) * hG + y * (A1 * S * hl + A1 * (v * c1 + u * c2) * hG +
    v * hsm + c2 * hF)

/-- What the first two columns are for: the other entries of a composition matrix with the
given minors exist. -/
structure Columns (f g : BinaryForm) (s m Ax Bx By : ℤ) : Prop where
  Ax_pos : 0 < Ax
  left_a : f.a = Ax * By
  right_a : g.a = Ax * (g.a / Ax)
  half : s = Ax * (s / Ax)
  third : ∃ Cx, Bx * (g.a / Ax) - m = By * Cx
  fourth : ∃ Dx, Bx * (s / Ax) - g.c = By * Dx

theorem columns_of {f g : BinaryForm} {s m G H A1 A2 S u v x y l z Bx : ℤ} (hG : 0 < G)
    (hH : H ≠ 0) (hf : f.a = G * A1) (hg : g.a = G * A2) (hs : s = G * S)
    (hF : u * f.a + v * g.a = G * H) (hxy : x * H + y * S = 1)
    (hsm : s * m = g.a * g.c - f.a * f.c) (hl : l = y * (v * f.c + u * g.c) + H * z)
    (hB : H * Bx = v * m + l * A1) : Columns f g s m G Bx A1 := by
  have hG0 := hG.ne'
  have hF' : u * A1 + v * A2 = H := by
    apply mul_left_cancel₀ hG0
    linear_combination hF - u * hf - v * hg
  have hsm' : S * m = A2 * g.c - A1 * f.c := by
    apply mul_left_cancel₀ hG0
    linear_combination hsm - m * hs + g.c * hg - f.c * hf
  have hgdiv : g.a / G = A2 := by rw [hg, Int.mul_ediv_cancel_left _ hG0]
  have hsdiv : s / G = S := by rw [hs, Int.mul_ediv_cancel_left _ hG0]
  obtain ⟨hthird, hfourth⟩ := columns_exact hH hF' hxy hsm' hl hB
  exact ⟨hG, hf, by rw [hgdiv, hg], by rw [hsdiv, hs], by rwa [hgdiv], by rwa [hsdiv]⟩

/-- The multiplier `l` is computed modulo `H`. -/
theorem exists_multiplier (c1 c2 u v y H : ℤ) :
    ∃ z, (c1 % H * v + c2 % H * u) % H * y % H = y * (v * c1 + u * c2) + H * z := by
  have h1 : c1 % H * v + c2 % H * u ≡ v * c1 + u * c2 [ZMOD H] := by
    rw [mul_comm v, mul_comm u]
    exact ((Int.mod_modEq c1 H).mul_right v).add ((Int.mod_modEq c2 H).mul_right u)
  have h2 : (c1 % H * v + c2 % H * u) % H * y % H ≡ y * (v * c1 + u * c2) [ZMOD H] := by
    rw [mul_comm y]
    exact (Int.mod_modEq _ H).trans (((Int.mod_modEq _ H).trans h1).mul_right y)
  obtain ⟨z, hz⟩ := (Int.modEq_iff_dvd.mp h2.symm)
  exact ⟨z, by linarith⟩

theorem nucompColumns_spec {f g : BinaryForm} {s m : ℤ} (hf : 0 < f.a)
    (hsm : s * m = g.a * g.c - f.a * f.c) :
    Columns f g s m (nucompColumns f g s m).1 (nucompColumns f g s m).2.1
      (nucompColumns f g s m).2.2 := by
  obtain ⟨u, v, hext, hF⟩ := gcdext_spec f.a g.a
  have hFpos : 0 < Int.gcd f.a g.a := Int.gcd_pos_of_ne_zero_left _ hf.ne'
  obtain ⟨A1, hA1⟩ := Int.gcd_dvd_left f.a g.a
  obtain ⟨A2, hA2⟩ := Int.gcd_dvd_right f.a g.a
  rw [nucompColumns, hext]
  generalize Int.gcd f.a g.a = F at *
  have hFz : (0 : ℤ) < F := by exact_mod_cast hFpos
  have hA1div : f.a / F = A1 := by rw [hA1, Int.mul_ediv_cancel_left _ hFz.ne']
  by_cases h1 : (F : ℤ) = 1
  · simp only [if_pos h1]
    rw [h1] at hF
    have hbezout : u * f.a + v * g.a = 1 * 1 := by linarith
    have hone : (1 : ℤ) * 1 + 0 * s = 1 := by ring
    exact columns_of (z := 0) (l := 0) one_pos one_ne_zero (by ring) (by ring) (by ring) hbezout
      hone hsm (by ring) (by ring)
  · by_cases h2 : s % F = 0
    · simp only [if_neg h1, if_pos h2, hA1div]
      obtain ⟨S, hS⟩ := Int.dvd_of_emod_eq_zero h2
      have hbezout : u * f.a + v * g.a = F * 1 := by linarith
      have hone : (1 : ℤ) * 1 + 0 * S = 1 := by ring
      exact columns_of (z := 0) (l := 0) hFz one_ne_zero hA1 hA2 hS hbezout hone hsm (by ring)
        (by ring)
    · simp only [if_neg h1, if_neg h2]
      obtain ⟨x, y, hext', hG⟩ := gcdext_spec F s
      have hGpos : 0 < Int.gcd F s := Int.gcd_pos_of_ne_zero_left _ hFz.ne'
      obtain ⟨H, hH⟩ := Int.gcd_dvd_left (F : ℤ) s
      obtain ⟨S, hS⟩ := Int.gcd_dvd_right (F : ℤ) s
      rw [hext']
      generalize Int.gcd F s = G at *
      have hGz : (0 : ℤ) < G := by exact_mod_cast hGpos
      have hHdiv : (F : ℤ) / G = H := by rw [hH, Int.mul_ediv_cancel_left _ hGz.ne']
      have hH0 : H ≠ 0 := by
        rintro rfl
        rw [hH, mul_zero] at hFz
        exact lt_irrefl _ hFz
      have hxy : x * H + y * S = 1 := by
        apply mul_left_cancel₀ hGz.ne'
        linear_combination x * hH.symm + y * hS.symm - hG
      have hfa : f.a = G * (H * A1) := by rw [hA1, hH, mul_assoc]
      have hga : g.a = G * (H * A2) := by rw [hA2, hH, mul_assoc]
      have hBy : f.a / G = H * A1 := by rw [hfa, Int.mul_ediv_cancel_left _ hGz.ne']
      obtain ⟨z, hz⟩ := exists_multiplier f.c g.c u v y H
      have hF' : u * f.a + v * g.a = G * H := by linarith
      have hcofactors : u * (H * A1) + v * (H * A2) = H :=
        mul_left_cancel₀ hGz.ne' (by linear_combination hF' - u * hfa - v * hga)
      have hsm' : S * m = H * A2 * g.c - H * A1 * f.c :=
        mul_left_cancel₀ hGz.ne' (by linear_combination hsm - m * hS + g.c * hga - f.c * hfa)
      obtain ⟨Bx, hBx⟩ := first_column_exact hcofactors hxy hsm' hz
      rw [hHdiv, hBy]
      rw [hBx, Int.mul_ediv_cancel_left _ hH0]
      exact columns_of hGz hH0 hfa hga hS hF' hxy hsm hz hBx.symm

theorem halves_parity {D : ℤ} {f g : BinaryForm} (hf : f.disc = D) (hg : g.disc = D) :
    2 * ((f.b + g.b) / 2) = f.b + g.b := by
  have hfb := b_parity hf
  have hgb := b_parity hg
  omega

theorem nucompHalves_spec {D : ℤ} {f g : BinaryForm} (hf : f.disc = D) (hg : g.disc = D)
    (negf2 : Bool) :
    (nucompHalves f g negf2).1 - (nucompHalves f g negf2).2 = f.b ∧
      (nucompHalves f g negf2).1 + (nucompHalves f g negf2).2 = (signed g negf2).b := by
  have hhalf := halves_parity hf hg
  cases negf2 with
  | false =>
    constructor
    · show (f.b + g.b) / 2 - (g.b - (f.b + g.b) / 2) = f.b
      linarith
    · show (f.b + g.b) / 2 + (g.b - (f.b + g.b) / 2) = g.b
      linarith
  | true =>
    constructor
    · show -(g.b - (f.b + g.b) / 2) - -((f.b + g.b) / 2) = f.b
      linarith
    · show -(g.b - (f.b + g.b) / 2) + -((f.b + g.b) / 2) = -g.b
      linarith

theorem signed_disc (f : BinaryForm) (inv : Bool) : (signed f inv).disc = f.disc := by
  cases inv with
  | false => rfl
  | true =>
    simp only [signed, disc, if_true]
    ring

theorem signed_a (f : BinaryForm) (inv : Bool) : (signed f inv).a = f.a := by
  cases inv <;> rfl

theorem signed_c (f : BinaryForm) (inv : Bool) : (signed f inv).c = f.c := by
  cases inv <;> rfl

theorem signed_proper {D : ℤ} {f : BinaryForm} (hf : f.Proper D) (inv : Bool) :
    (signed f inv).Proper D := by
  cases inv with
  | false => exact hf
  | true => exact hf.mirror

theorem nucompStart_spec {D : ℤ} {f g : BinaryForm} (hf : f.disc = D) (hg : g.disc = D)
    (hfa : 0 < f.a) (negf2 : Bool) :
    0 < (nucompStart f g negf2).By ∧ 0 ≤ (nucompStart f g negf2).Bx ∧
      (nucompStart f g negf2).Bx < (nucompStart f g negf2).By ∧ ∃ Cx Dx,
      ((nucompStart f g negf2).matrix Cx Dx).left = f ∧
      ((nucompStart f g negf2).matrix Cx Dx).right = signed g negf2 ∧
      (nucompStart f g negf2).m = (nucompStart f g negf2).Bx * (nucompStart f g negf2).Cy -
        Cx * (nucompStart f g negf2).By := by
  obtain ⟨hsub, hadd⟩ := nucompHalves_spec hf hg negf2
  have hdisc : (signed g negf2).disc = f.disc := by rw [signed_disc, hf, hg]
  have hv : nucompStart f g negf2 =
      let s := (nucompHalves f g negf2).1
      let m := (nucompHalves f g negf2).2
      let p := nucompColumns f g s m
      ⟨s, m, p.1, p.2.1 % p.2.2, p.2.2, g.a / p.1, s / p.1⟩ := rfl
  rw [hv]
  generalize (nucompHalves f g negf2).1 = s at *
  generalize (nucompHalves f g negf2).2 = m at *
  have hsm : s * m = g.a * g.c - f.a * f.c := by
    simp only [disc, signed_a, signed_c, ← hsub, ← hadd] at hdisc
    linarith
  obtain ⟨hAx, hleft, hright, hhalf, ⟨Cx, hCx⟩, ⟨Dx, hDx⟩⟩ := nucompColumns_spec hfa hsm
  dsimp only
  generalize (nucompColumns f g s m).1 = Ax at *
  generalize (nucompColumns f g s m).2.1 = Bx at *
  generalize (nucompColumns f g s m).2.2 = By at *
  generalize g.a / Ax = Cy at *
  generalize s / Ax = Dy at *
  have hBy : 0 < By := by
    rw [hleft] at hfa
    exact pos_of_mul_pos_right hfa hAx.le
  have hmod := Int.mul_ediv_add_emod Bx By
  refine ⟨hBy, Int.emod_nonneg _ hBy.ne', Int.emod_lt_of_pos _ hBy, Cx - Bx / By * Cy,
    Dx - Bx / By * Dy, ?_, ?_, ?_⟩
  · apply BinaryForm.ext <;> simp only [OpsAuxVars.matrix, CompositionMatrix.left]
    · linarith
    · linear_combination hsub - hhalf - hCx - Cy * hmod
    · apply mul_left_cancel₀ (mul_pos hAx hBy).ne'
      linear_combination -Ax * Dy * hCx + Ax * Cy * hDx + m * hhalf - g.c * hright +
        f.c * hleft - hsm
  · apply BinaryForm.ext <;> simp only [OpsAuxVars.matrix, CompositionMatrix.right]
    · rw [signed_a]
      linarith
    · linear_combination hadd - hhalf + hCx + Cy * hmod
    · rw [signed_c]
      linear_combination Dy * hmod + hDx
  · linear_combination -hCx - Cy * hmod

/-- After the partial reduction the other columns come from the two orthogonality
relations, by exact divisions. -/
theorem nucompFinish_eq {f g : BinaryForm} {v : OpsAuxVars} {e : EuclidResult} {Cx Dx : ℤ}
    (hf : 0 < f.a) (hBy : 0 < v.By) (hleft : (v.matrix Cx Dx).left = f)
    (hra : (v.matrix Cx Dx).right.a = g.a) (hrc : (v.matrix Cx Dx).right.c = g.c)
    (hm : v.m = v.Bx * v.Cy - Cx * v.By) (he : e.Contract v.Bx v.By) :
    nucompFinish f g v e =
      reduction ((v.matrix Cx Dx).rows e.u11 (-e.u01) (-e.u10) e.u00).form := by
  obtain ⟨hbx, hby, hdet, -, h11⟩ := he
  have hla := congrArg BinaryForm.a hleft
  simp only [OpsAuxVars.matrix, CompositionMatrix.left, CompositionMatrix.right] at hla hra hrc
  have hBx' : e.u11 * v.Bx - e.u01 * v.By = e.a := by
    linear_combination -e.u11 * hbx + e.u01 * hby + e.a * hdet
  have hBy' : -e.u10 * v.Bx + e.u00 * v.By = e.b := by
    linear_combination e.u10 * hbx - e.u00 * hby + e.b * hdet
  have hCx : (e.a * v.Cy - v.m * e.u11) / v.By = e.u11 * Cx - e.u01 * v.Cy := by
    have hh : e.a * v.Cy - v.m * e.u11 = v.By * (e.u11 * Cx - e.u01 * v.Cy) := by
      linear_combination -v.Cy * hBx' - e.u11 * hm
    rw [hh, Int.mul_ediv_cancel_left _ hBy.ne']
  have hDx : (e.a * v.Dy - g.c * e.u11) / v.By = e.u11 * Dx - e.u01 * v.Dy := by
    have hh : e.a * v.Dy - g.c * e.u11 = v.By * (e.u11 * Dx - e.u01 * v.Dy) := by
      linear_combination -v.Dy * hBx' + e.u11 * hrc
    rw [hh, Int.mul_ediv_cancel_left _ hBy.ne']
  have hDy : (v.Dy - (e.u11 * Dx - e.u01 * v.Dy) * e.u10) / e.u11 =
      -e.u10 * Dx + e.u00 * v.Dy := by
    have hh : v.Dy - (e.u11 * Dx - e.u01 * v.Dy) * e.u10 = e.u11 * (-e.u10 * Dx + e.u00 * v.Dy) := by
      linear_combination -v.Dy * hdet
    rw [hh, Int.mul_ediv_cancel_left _ h11.ne']
  have hCy : (if e.a = 0 then (g.a * e.b - -(e.u10 * v.Ax) * v.m) / f.a
      else ((e.u11 * Cx - e.u01 * v.Cy) * e.b + v.m) / e.a) = -e.u10 * Cx + e.u00 * v.Cy := by
    by_cases hz : e.a = 0
    · rw [if_pos hz]
      have hh : g.a * e.b - -(e.u10 * v.Ax) * v.m = f.a * (-e.u10 * Cx + e.u00 * v.Cy) := by
        linear_combination -e.b * hra + e.u10 * v.Ax * hm + (-e.u10 * Cx + e.u00 * v.Cy) * hla -
          v.Ax * v.Cy * hBy'
      rw [hh, Int.mul_ediv_cancel_left _ hf.ne']
    · rw [if_neg hz]
      have hh : (e.u11 * Cx - e.u01 * v.Cy) * e.b + v.m = e.a * (-e.u10 * Cx + e.u00 * v.Cy) := by
        linear_combination hm + (-e.u10 * Cx + e.u00 * v.Cy) * hBx' -
          (e.u11 * Cx - e.u01 * v.Cy) * hBy' - (v.Bx * v.Cy - Cx * v.By) * hdet
      rw [hh, Int.mul_ediv_cancel_left _ hz]
  simp only [nucompFinish, hCx, hDx, hDy, hCy]
  congr 1
  apply BinaryForm.ext <;> simp only [CompositionMatrix.form, CompositionMatrix.rows,
    OpsAuxVars.matrix]
  · linear_combination -(-e.u10 * Cx + e.u00 * v.Cy) * hBy'
  · linear_combination (-e.u10 * Cx + e.u00 * v.Cy) * hBx' + (e.u11 * Cx - e.u01 * v.Cy) * hBy'
  · linear_combination -(e.u11 * Cx - e.u01 * v.Cy) * hBx'

variable {D : ℤ} [Fact (D < 0)]

theorem classOf_signed {f : BinaryForm} (hf : f.Proper D) (inv : Bool) :
    classOf D (signed f inv) = if inv then (classOf D f)⁻¹ else classOf D f := by
  cases inv with
  | false => rfl
  | true => exact classOf_mirror hf

theorem reduction_rows_spec {M : CompositionMatrix} {f g : BinaryForm} (hf : f.Proper D)
    (hg : g.Proper D) (hleft : M.left = f) (hright : M.right = g) {p q r s : ℤ}
    (hdet : p * s - q * r = 1) :
    (reduction (M.rows p q r s).form).Proper D ∧ (reduction (M.rows p q r s).form).Reduced ∧
      classOf D (reduction (M.rows p q r s).form) = classOf D f * classOf D g := by
  have hl := M.left_rows hdet
  have hr := M.right_rows hdet
  rw [hleft] at hl
  rw [hright] at hr
  generalize M.rows p q r s = N at *
  subst hl
  subst hr
  have hproper := CompositionMatrix.proper_form hf hg
  obtain ⟨hred, hequiv⟩ := reduction_spec hproper.positive
  refine ⟨hproper.of_equivalent hequiv, hred, ?_⟩
  rw [classOf_eq_of_equivalent hproper hequiv, CompositionMatrix.classOf_form hf hg]

/-- With a call of `partial_euclid` that meets its contract, the result is the reduced form
of the product of the classes, or of the quotient. -/
theorem nucompFinish_spec {f g : BinaryForm} (hf : f.Proper D) (hg : g.Proper D) (negf2 : Bool)
    {e : EuclidResult}
    (he : e.Contract (nucompStart f g negf2).Bx (nucompStart f g negf2).By) :
    (nucompFinish f g (nucompStart f g negf2) e).Proper D ∧
      (nucompFinish f g (nucompStart f g negf2) e).Reduced ∧
      classOf D (nucompFinish f g (nucompStart f g negf2) e) =
        classOf D f * if negf2 then (classOf D g)⁻¹ else classOf D g := by
  obtain ⟨hBy, -, -, Cx, Dx, hleft, hright, hm⟩ := nucompStart_spec hf.disc hg.disc hf.pos negf2
  rw [nucompFinish_eq hf.pos hBy hleft (by rw [hright, signed_a]) (by rw [hright, signed_c]) hm he,
    ← classOf_signed hg]
  exact reduction_rows_spec hf (signed_proper hg negf2) hleft hright
    (by linear_combination he.det)

theorem nuduplStart_spec {f : BinaryForm} (hfa : 0 < f.a) :
    0 < (nuduplStart f).By ∧ 0 ≤ (nuduplStart f).Bx ∧ (nuduplStart f).Bx < (nuduplStart f).By ∧
      (nuduplStart f).left = f ∧ (nuduplStart f).right = f := by
  obtain ⟨u, v, hext, hd⟩ := gcdext_spec f.a f.b
  have hdpos : 0 < Int.gcd f.a f.b := Int.gcd_pos_of_ne_zero_left _ hfa.ne'
  obtain ⟨A, hA⟩ := Int.gcd_dvd_left f.a f.b
  obtain ⟨B, hB⟩ := Int.gcd_dvd_right f.a f.b
  rw [nuduplStart, hext]
  generalize Int.gcd f.a f.b = d at *
  have hdz : (0 : ℤ) < d := by exact_mod_cast hdpos
  have hBy : (if (d : ℤ) = 1 then f.a else f.a / d) = A := by
    by_cases h1 : (d : ℤ) = 1
    · rw [if_pos h1, hA, h1, one_mul]
    · rw [if_neg h1, hA, Int.mul_ediv_cancel_left _ hdz.ne']
  have hDy : (if (d : ℤ) = 1 then f.b else f.b / d) = B := by
    by_cases h1 : (d : ℤ) = 1
    · rw [if_pos h1, hB, h1, one_mul]
    · rw [if_neg h1, hB, Int.mul_ediv_cancel_left _ hdz.ne']
  dsimp only
  rw [hBy, hDy]
  have hApos : 0 < A := by
    rw [hA] at hfa
    exact pos_of_mul_pos_right hfa hdz.le
  have huv : u * A + v * B = 1 := by
    apply mul_left_cancel₀ hdz.ne'
    linear_combination -hd - u * hA - v * hB
  have hmod := Int.mul_ediv_add_emod (f.c * v) A
  refine ⟨hApos, Int.emod_nonneg _ hApos.ne', Int.emod_lt_of_pos _ hApos, ?_, ?_⟩
  · apply BinaryForm.ext <;> simp only [CompositionMatrix.left]
    · linarith
    · linarith
    · linear_combination B * hmod + f.c * huv
  · apply BinaryForm.ext <;> simp only [CompositionMatrix.right]
    · linarith
    · linarith
    · linear_combination B * hmod + f.c * huv

theorem nuduplFinish_eq {f : BinaryForm} {e : EuclidResult}
    (he : e.Contract (nuduplStart f).Bx (nuduplStart f).By) :
    nuduplFinish (nuduplStart f) e =
      reduction ((nuduplStart f).rows e.u11 (-e.u01) (-e.u10) e.u00).form := by
  obtain ⟨hbx, hby, hdet, -, -⟩ := he
  have hCx : (nuduplStart f).Cx = (nuduplStart f).Bx := rfl
  have hCy : (nuduplStart f).Cy = (nuduplStart f).By := rfl
  have hAy : (nuduplStart f).Ay = 0 := rfl
  generalize nuduplStart f = v at *
  have hBx' : e.u11 * v.Bx - e.u01 * v.By = e.a := by
    linear_combination -e.u11 * hbx + e.u01 * hby + e.a * hdet
  have hBy' : -e.u10 * v.Bx + e.u00 * v.By = e.b := by
    linear_combination e.u10 * hbx - e.u00 * hby + e.b * hdet
  simp only [nuduplFinish, ← hBx', ← hBy']
  congr 1
  apply BinaryForm.ext <;> simp only [CompositionMatrix.form, CompositionMatrix.rows, hCx, hCy, hAy]
  · ring
  · ring
  · ring

theorem nuduplFinish_spec {f : BinaryForm} (hf : f.Proper D) {e : EuclidResult}
    (he : e.Contract (nuduplStart f).Bx (nuduplStart f).By) :
    (nuduplFinish (nuduplStart f) e).Proper D ∧ (nuduplFinish (nuduplStart f) e).Reduced ∧
      classOf D (nuduplFinish (nuduplStart f) e) = classOf D f * classOf D f := by
  obtain ⟨-, -, -, hleft, hright⟩ := nuduplStart_spec hf.pos
  rw [nuduplFinish_eq he]
  exact reduction_rows_spec hf hf hleft hright (by linear_combination he.det)

end QFI

/-- An implementation of `partial_euclid` that keeps the contract of its comment. -/
structure Euclid where
  run : ℕ → Mpz → Mpz → EuclidResult
  contract : ∀ n a b, 0 ≤ a → a < b → (run n a b).Contract a b

namespace ClassGroup

open RfClassGroups.Bicycl.QFI

variable {cl : ClassGroup}

/-- The class that a form stands for. -/
noncomputable def Elt.toClass (x : cl.Elt) : FormClass cl.discriminant :=
  classOf cl.discriminant x.form

theorem Elt.ext_form {x y : cl.Elt} (h : x.form = y.form) : x = y := by
  cases x
  cases y
  cases h
  rfl

theorem Elt.toClass_injective : Function.Injective (@Elt.toClass cl) :=
  fun _ _ h => Elt.ext_form (Elt.eq_of_classOf h)

def oneElt (cl : ClassGroup) : cl.Elt := ⟨cl.one, cl.one_spec.1, cl.one_spec.2⟩

def Elt.neg (x : cl.Elt) : cl.Elt := ⟨x.form.neg, (neg_elt x).1, (neg_elt x).2.1⟩

theorem nucomp_contract (E : Euclid) (n : ℕ) (x y : cl.Elt) (negf2 : Bool) :
    (E.run n (nucompStart x.form y.form negf2).Bx (nucompStart x.form y.form negf2).By).Contract
      (nucompStart x.form y.form negf2).Bx (nucompStart x.form y.form negf2).By := by
  obtain ⟨-, h0, hlt, -⟩ := nucompStart_spec x.proper.disc y.proper.disc x.proper.pos negf2
  exact E.contract n _ _ h0 hlt

theorem nudupl_contract (E : Euclid) (n : ℕ) (x : cl.Elt) :
    (E.run n (nuduplStart x.form).Bx (nuduplStart x.form).By).Contract
      (nuduplStart x.form).Bx (nuduplStart x.form).By := by
  obtain ⟨-, h0, hlt, -⟩ := nuduplStart_spec x.proper.pos
  exact E.contract n _ _ h0 hlt

/-- `ClassGroup::nucomp` and `ClassGroup::nucompinv`. -/
def nucompElt (E : Euclid) (x y : cl.Elt) (negf2 : Bool) : cl.Elt :=
  let v := nucompStart x.form y.form negf2
  let e := E.run (PartialEuclid.absiz cl.defaultNucompBound.natAbs) v.Bx v.By
  have h := nucompFinish_spec x.proper y.proper negf2 (nucomp_contract E _ x y negf2)
  ⟨nucompFinish x.form y.form v e, h.1, h.2.1⟩

def nuduplElt (E : Euclid) (x : cl.Elt) : cl.Elt :=
  let v := nuduplStart x.form
  let e := E.run (PartialEuclid.absiz cl.defaultNucompBound.natAbs) v.Bx v.By
  have h := nuduplFinish_spec x.proper (nudupl_contract E _ x)
  ⟨nuduplFinish v e, h.1, h.2.1⟩

theorem toClass_one (cl : ClassGroup) : cl.oneElt.toClass = 1 := cl.classOf_one

theorem toClass_neg (x : cl.Elt) : x.neg.toClass = x.toClass⁻¹ := (neg_elt x).2.2

theorem toClass_nucomp (E : Euclid) (x y : cl.Elt) (negf2 : Bool) :
    (nucompElt E x y negf2).toClass = x.toClass * if negf2 then y.toClass⁻¹ else y.toClass :=
  (nucompFinish_spec x.proper y.proper negf2 (nucomp_contract E _ x y negf2)).2.2

theorem toClass_nudupl (E : Euclid) (x : cl.Elt) :
    (nuduplElt E x).toClass = x.toClass * x.toClass :=
  (nuduplFinish_spec x.proper (nudupl_contract E _ x)).2.2

/-- Duplication returns the very form that composition of the form with itself returns, and
the way `partial_euclid` reduces does not show. -/
theorem nudupl_eq_nucomp (E E' : Euclid) (x : cl.Elt) :
    nuduplElt E x = nucompElt E' x x false := by
  apply Elt.toClass_injective
  rw [toClass_nudupl, toClass_nucomp]
  rfl

theorem absiz_pos {L : Mpz} (hL : L ≠ 0) : 1 ≤ PartialEuclid.absiz L.natAbs := by
  rw [PartialEuclid.absiz, if_neg (Int.natAbs_ne_zero.mpr hL)]
  exact Nat.le_add_left 1 _

theorem orderedPair_of_lt {a b : Mpz} (h0 : 0 ≤ a) (h : a < b) : orderedPair a b = (a, b) := by
  apply if_neg
  rw [not_lt]
  apply PartialEuclid.absiz_le
  exact (Int.natAbs_lt_natAbs_of_nonneg_of_lt h0 h).trans (PartialEuclid.lt_pow_absiz b.natAbs)

/-- The limb-level composition returns the reduced form of the product, where the common
divisor of `a1`, `m` and `c2` fits in the target and no state of the loop drops a limb. -/
theorem nucomp_regular {hgcd2 : ℕ → ℕ → ℕ → ℕ → Option HgcdMatrix1}
    (hlaw : PartialEuclid.Hgcd2Law hgcd2) (x y : cl.Elt) (negf2 : Bool) {L : Mpz} (hL : L ≠ 0)
    (hreg : ∀ s, PartialEuclid.Visited hgcd2 (PartialEuclid.absiz L.natAbs)
      (nucompStart x.form y.form negf2).Bx (nucompStart x.form y.form negf2).By s →
      PartialEuclid.absiz L.natAbs < s.n → s.Regular hgcd2)
    (hgcd : PartialEuclid.absiz (Int.gcd (Int.gcd x.form.a
      (nucompHalves x.form y.form negf2).2) y.form.c) ≤ PartialEuclid.absiz L.natAbs) :
    ∃ r : cl.Elt, QFI.nucomp (partialEuclid hgcd2) x.form y.form L negf2 = some r.form ∧
      r.toClass = x.toClass * if negf2 then y.toClass⁻¹ else y.toClass := by
  obtain ⟨-, h0, hlt, Cx, Dx, hleft, hright, hm⟩ :=
    nucompStart_spec x.proper.disc y.proper.disc x.proper.pos negf2
  have hdivisor := CompositionMatrix.gcd_second_column
    (M := (nucompStart x.form y.form negf2).matrix Cx Dx) (by rw [hleft, x.proper.primitive])
  rw [hleft, hright, signed_c] at hdivisor
  simp only [OpsAuxVars.matrix] at hdivisor
  rw [← hm] at hdivisor
  have hhalf : (nucompStart x.form y.form negf2).m = (nucompHalves x.form y.form negf2).2 := rfl
  rw [hhalf] at hdivisor
  obtain ⟨e, he, hcontract, -⟩ := partialEuclid_contract hlaw (absiz_pos hL)
    (nucompStart x.form y.form negf2).Bx (nucompStart x.form y.form negf2).By
    (by rwa [orderedPair_of_lt h0 hlt]) (by rwa [hdivisor])
  obtain ⟨hproper, hred, hclass⟩ := nucompFinish_spec x.proper y.proper negf2 hcontract
  refine ⟨⟨_, hproper, hred⟩, ?_, hclass⟩
  rw [QFI.nucomp, he]
  rfl

def classGroup23 : ClassGroup := ⟨-23, by decide, by decide⟩

def form23 : classGroup23.Elt :=
  ⟨⟨2, 1, 3⟩, ⟨by decide, by decide, by decide⟩, ⟨by decide, by decide, by decide, by decide⟩⟩

def classGroup130 : ClassGroup :=
  ⟨-1361129467683753854960303074149645942839, by decide, by decide⟩

def wideForm : classGroup130.Elt :=
  ⟨⟨2 ^ 64 + 7, -13, 2 ^ 64 + 8⟩, ⟨by decide, by decide, by decide⟩,
    ⟨by decide, by decide, by decide, by decide⟩⟩

def narrowForm : classGroup130.Elt :=
  ⟨⟨2, -1, 170141183460469231870037884268705742855⟩, ⟨by decide, by decide, by decide⟩,
    ⟨by decide, by decide, by decide, by decide⟩⟩

/-- The loop starts with 3 and `2 ^ 64 + 7` and makes one step to numbers of one limb. -/
theorem nucomp_regular_wide : ∃ r : classGroup130.Elt,
    QFI.nucomp (partialEuclid fun _ _ _ _ => none) wideForm.form narrowForm.form 6074000999 false =
      some r.form ∧ r.toClass = wideForm.toClass * narrowForm.toClass := by
  have hstart : (nucompStart wideForm.form narrowForm.form false).Bx = 3 ∧
      (nucompStart wideForm.form narrowForm.form false).By = 2 ^ 64 + 7 := by decide +kernel
  have htarget : PartialEuclid.absiz (6074000999 : Mpz).natAbs = 1 := by decide
  refine nucomp_regular (fun _ _ _ _ _ _ _ _ _ _ _ h => by simp at h) wideForm narrowForm false
    (by decide) ?_ (by decide +kernel)
  intro s hs hn
  rw [hstart.1, hstart.2, htarget] at hs
  rw [htarget] at hn
  rcases visited_three hs with rfl | hle
  · constructor
    · unfold PartialEuclid.State.Stale
      decide +kernel
    · unfold PartialEuclid.State.Drops
      decide +kernel
  · omega

end ClassGroup

end RfClassGroups.Bicycl
