import Mathlib.GroupTheory.Index
import Mathlib.SetTheory.Cardinal.NatCard

/-! Two homomorphisms of a finite group with one range have equinumerous
fibres, so a permutation of the domain carries one to the other. -/

namespace Fibers

variable {G H : Type*} [AddGroup G] [AddGroup H]

def fiberEquivKer (f : G →+ H) (x₀ : G) : {x // f x = f x₀} ≃ f.ker where
  toFun x := ⟨-x₀ + x.1, by rw [AddMonoidHom.mem_ker, map_add, map_neg, x.2, neg_add_cancel]⟩
  invFun k := ⟨x₀ + k.1, by rw [map_add, f.mem_ker.mp k.2, add_zero]⟩
  left_inv x := by simp
  right_inv k := by simp

theorem nonempty_kerEquiv [Finite G] {f f' : G →+ H} (h : f.range = f'.range) :
    Nonempty (f.ker ≃ f'.ker) := by
  have hcard : ∀ g : G →+ H, Nat.card g.ker * Nat.card g.range = Nat.card G := fun g => by
    rw [← AddSubgroup.index_ker, AddSubgroup.card_mul_index]
  have : Finite f.range := Finite.of_surjective f.rangeRestrict f.rangeRestrict_surjective
  have hker := (hcard f).trans (hcard f').symm
  rw [← h] at hker
  exact Finite.card_eq.mp (Nat.eq_of_mul_eq_mul_right Nat.card_pos hker)

theorem nonempty_fiberEquiv [Finite G] {f f' : G →+ H} (h : f.range = f'.range) (y : H) :
    Nonempty ({x // f x = y} ≃ {x // f' x = y}) := by
  by_cases hy : y ∈ f.range
  · have hy' : y ∈ f'.range := h ▸ hy
    obtain ⟨x, rfl⟩ := hy
    obtain ⟨x', hx'⟩ := hy'
    obtain ⟨e⟩ := nonempty_kerEquiv h
    have e' := fiberEquivKer f' x'
    rw [hx'] at e'
    exact ⟨(fiberEquivKer f x).trans (e.trans e'.symm)⟩
  · have hempty : IsEmpty {x // f x = y} := ⟨fun x => hy ⟨x.1, x.2⟩⟩
    have hempty' : IsEmpty {x // f' x = y} := ⟨fun x => hy (h ▸ ⟨x.1, x.2⟩)⟩
    exact ⟨Equiv.equivOfIsEmpty _ _⟩

/-- A permutation of the domain that carries one homomorphism to the other. -/
theorem exists_perm_of_range_eq [Finite G] {f f' : G →+ H} (h : f.range = f'.range) :
    ∃ e : G ≃ G, ∀ x, f x = f' (e x) := by
  let e := fun y => (nonempty_fiberEquiv h y).some
  exact ⟨Equiv.ofFiberEquiv e, fun x => (Equiv.ofFiberEquiv_map e x).symm⟩

end Fibers
