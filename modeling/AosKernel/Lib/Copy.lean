import Mathlib.Algebra.Group.Nat.Defs
import Mathlib.Logic.Function.Basic

namespace Verif

section Copy

variable {α : Type} {dst src n : Nat}

-- A copy of `n` values one at a time, the first one first.
def copyUp (m : Nat → α) (dst src : Nat) : Nat → Nat → α
  | 0 => m
  | n + 1 => copyUp (Function.update m dst (m src)) (dst + 1) (src + 1) n

-- The same with the last one first.
def copyDown (m : Nat → α) (dst src : Nat) : Nat → Nat → α
  | 0 => m
  | n + 1 => copyDown (Function.update m (dst + n) (m (src + n))) dst src n

-- What a copy amounts to where no value is written before it is read.
def moved (m : Nat → α) (dst src n : Nat) (x : Nat) : α :=
  if dst ≤ x ∧ x < dst + n then m (x - dst + src) else m x

theorem moved_in (m : Nat → α) {x : Nat} (h : dst ≤ x) (h' : x < dst + n) :
    moved m dst src n x = m (x - dst + src) :=
  if_pos ⟨h, h'⟩

theorem moved_out (m : Nat → α) {x : Nat} (h : x < dst ∨ dst + n ≤ x) :
    moved m dst src n x = m x :=
  if_neg (by omega)

-- Going up is right where the destination is below the source, or behind it.
theorem copyUp_eq (m : Nat → α) (h : dst ≤ src ∨ src + n ≤ dst) (x : Nat) :
    copyUp m dst src n x = moved m dst src n x := by
  induction n generalizing m dst src with
  | zero => rw [copyUp, moved_out m (by omega)]
  | succ n ih =>
      rw [copyUp, ih _ (by omega)]
      by_cases hin : dst + 1 ≤ x ∧ x < dst + 1 + n
      · rw [moved_in _ hin.1 hin.2, moved_in m (by omega) (by omega),
          Function.update_of_ne (by omega)]
        apply congrArg m
        omega
      · rw [moved_out _ (by omega)]
        by_cases hfirst : x = dst
        · subst hfirst
          rw [Function.update_self, moved_in m (Nat.le_refl _) (by omega), Nat.sub_self,
            Nat.zero_add]
        · rw [Function.update_of_ne hfirst, moved_out m (by omega)]

-- Going down is right where it is above the source, or ends before it.
theorem copyDown_eq (m : Nat → α) (h : src ≤ dst ∨ dst + n ≤ src) (x : Nat) :
    copyDown m dst src n x = moved m dst src n x := by
  induction n generalizing m with
  | zero => rw [copyDown, moved_out m (by omega)]
  | succ n ih =>
      rw [copyDown, ih _ (by omega)]
      by_cases hin : dst ≤ x ∧ x < dst + n
      · rw [moved_in _ hin.1 hin.2, moved_in m (by omega) (by omega),
          Function.update_of_ne (by omega)]
      · rw [moved_out _ (by omega)]
        by_cases hlast : x = dst + n
        · subst hlast
          rw [Function.update_self, moved_in m (by omega) (by omega), Nat.add_sub_cancel_left,
            Nat.add_comm n src]
        · rw [Function.update_of_ne hlast, moved_out m (by omega)]

end Copy

end Verif
