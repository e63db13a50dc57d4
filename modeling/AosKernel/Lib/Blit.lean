import Mathlib.Algebra.Group.Nat.Defs
import Mathlib.Data.List.Basic

namespace Verif

-- The number that bytes stand for, lowest one first.
def leNat : List UInt8 → Nat
  | [] => 0
  | b :: bytes => b.toNat + 256 * leNat bytes

theorem leNat_lt (bytes : List UInt8) : leNat bytes < 256 ^ bytes.length := by
  induction bytes with
  | nil => exact Nat.one_pos
  | cons b bytes ih =>
      have hb : b.toNat < 256 := b.toNat_lt
      rw [leNat, List.length_cons, Nat.pow_succ]
      omega

-- Memory whose addresses are the numbers below `2 ^ 64`, where what follows the last
-- address is the first one again.
section Memory

variable {α : Type} {base len x y : Nat} {m : Nat → α} {src : Nat → α}

-- How far behind `base` the address `x` is.
def behind (base x : Nat) : Nat := (x + 2 ^ 64 - base) % 2 ^ 64

-- `len` values written from `base` on.
def blit (m : Nat → α) (base len : Nat) (src : Nat → α) (x : Nat) : α :=
  if behind base x < len then src (behind base x) else m x

theorem behind_lt (base x : Nat) : behind base x < 2 ^ 64 := Nat.mod_lt _ (Nat.two_pow_pos 64)

theorem blit_in (h : behind base x < len) : blit m base len src x = src (behind base x) := if_pos h

theorem blit_out (h : len ≤ behind base x) : blit m base len src x = m x :=
  if_neg (Nat.not_lt.mpr h)

end Memory

end Verif
