import Mathlib.Algebra.Group.Nat.Defs
import Mathlib.Logic.Function.Basic

namespace Verif

-- A register of a device. A write sets the writable bits, clears those of the clearing
-- bits that it has as ones, and leaves the others as they are.
structure Register (w : Nat) where
  value : BitVec w
  writable : BitVec w
  clearing : BitVec w

namespace Register

variable {w : Nat} (r : Register w) (u v : BitVec w)

def write : Register w :=
  { r with value := r.value &&& ~~~(r.writable ||| r.clearing &&& v) ||| v &&& r.writable }

@[simp] theorem write_writable : (r.write v).writable = r.writable := rfl

@[simp] theorem write_clearing : (r.write v).clearing = r.clearing := rfl

theorem getLsbD_write (j : Nat) :
    (r.write v).value.getLsbD j = if r.writable.getLsbD j then v.getLsbD j
      else r.value.getLsbD j && !(r.clearing.getLsbD j && v.getLsbD j) := by
  by_cases hj : j < w
  · simp only [write, BitVec.getLsbD_or, BitVec.getLsbD_and, BitVec.getLsbD_not, hj, decide_true,
      Bool.true_and]
    cases r.writable.getLsbD j <;> simp
  · simp [BitVec.getLsbD_of_ge _ _ (Nat.le_of_not_lt hj)]

variable {r}

-- What a write did is undone by writing what the register held.
theorem write_restores (h : r.clearing = 0#w) : (r.write u).write r.value = r := by
  obtain ⟨value, writable, clearing⟩ := r
  simp only [write, Register.mk.injEq, and_true]
  refine BitVec.eq_of_getLsbD_eq fun j hj => ?_
  have hclear : clearing.getLsbD j = false := by
    rw [show clearing = 0#w from h]
    exact BitVec.getLsbD_zero
  simp only [BitVec.getLsbD_or, BitVec.getLsbD_and, BitVec.getLsbD_not, hj, decide_true,
    Bool.true_and, hclear]
  cases value.getLsbD j <;> cases writable.getLsbD j <;> simp

-- The writable bits are those that can be read back as ones.
theorem write_allOnes (h : r.clearing = 0#w) :
    (r.write (BitVec.allOnes w)).value = r.value ||| r.writable := by
  refine BitVec.eq_of_getLsbD_eq fun j hj => ?_
  rw [getLsbD_write, h, BitVec.getLsbD_or]
  cases r.writable.getLsbD j <;> simp [hj]

end Register

-- The mask of the bits from `k` on stands for the size 2 ^ k.
theorem toNat_not_mask {w k : Nat} {mask : BitVec w} (hk : k < w)
    (h : ∀ j < w, mask.getLsbD j = decide (k ≤ j)) : (~~~mask + 1#w).toNat = 2 ^ k := by
  have hnot : ~~~mask = BitVec.ofNat w (2 ^ k - 1) := by
    refine BitVec.eq_of_getLsbD_eq fun j hj => ?_
    rw [BitVec.getLsbD_not, h j hj, BitVec.getLsbD_ofNat, Nat.testBit_two_pow_sub_one]
    simp only [hj, decide_true, Bool.true_and, ← decide_not, Nat.not_le]
  have hpos := Nat.two_pow_pos k
  have hlt : 2 ^ k < 2 ^ w := Nat.pow_lt_pow_right (by decide) hk
  rw [hnot, ← BitVec.ofNat_add, Nat.sub_add_cancel hpos, BitVec.toNat_ofNat,
    Nat.mod_eq_of_lt hlt]

end Verif
