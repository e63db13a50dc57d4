import Mathlib.Algebra.Group.Nat.Defs
import Mathlib.Data.BitVec

namespace Verif

-- Byte-addressed memory.
abbrev Bytes := Nat → BitVec 8

namespace Bytes

-- The little-endian word at `a`.
def readWord (m : Bytes) (a : Nat) : BitVec 64 :=
  m (a + 7) ++ m (a + 6) ++ m (a + 5) ++ m (a + 4) ++ m (a + 3) ++ m (a + 2) ++ m (a + 1) ++ m a

def writeWord (m : Bytes) (a : Nat) (w : BitVec 64) : Bytes := fun x =>
  if a ≤ x ∧ x < a + 8 then w.extractLsb' (8 * (x - a)) 8 else m x

-- memset of `size` bytes to 0.
def clear (m : Bytes) (a size : Nat) : Bytes := fun x =>
  if a ≤ x ∧ x < a + size then 0 else m x

-- Words pushed on a stack that grows down from `sp`, the first one on top of it.
def pushWords (m : Bytes) (sp : Nat) : List (BitVec 64) → Bytes
  | [] => m
  | w :: rest => pushWords (writeWord m (sp - 8) w) (sp - 8) rest

theorem writeWord_byte (m : Bytes) (a : Nat) (w : BitVec 64) {i : Nat} (hi : i < 8) :
    writeWord m a w (a + i) = w.extractLsb' (8 * i) 8 := by
  rw [writeWord, if_pos (by omega), Nat.add_sub_cancel_left]

theorem writeWord_other (m : Bytes) (a : Nat) (w : BitVec 64) {x : Nat} (hx : x < a ∨ a + 8 ≤ x) :
    writeWord m a w x = m x := by
  rw [writeWord, if_neg (by omega)]

theorem readWord_writeWord (m : Bytes) (a : Nat) (w : BitVec 64) :
    readWord (writeWord m a w) a = w := by
  have hzero := writeWord_byte m a w (show 0 < 8 by decide)
  rw [Nat.add_zero] at hzero
  unfold readWord
  rw [writeWord_byte m a w (show 7 < 8 by decide), writeWord_byte m a w (show 6 < 8 by decide),
    writeWord_byte m a w (show 5 < 8 by decide), writeWord_byte m a w (show 4 < 8 by decide),
    writeWord_byte m a w (show 3 < 8 by decide), writeWord_byte m a w (show 2 < 8 by decide),
    writeWord_byte m a w (show 1 < 8 by decide), hzero,
    BitVec.extractLsb'_append_extractLsb'_eq_extractLsb' (show 8 * 7 = 8 * 6 + 8 from rfl),
    BitVec.extractLsb'_append_extractLsb'_eq_extractLsb' (show 8 * 6 = 8 * 5 + 8 from rfl),
    BitVec.extractLsb'_append_extractLsb'_eq_extractLsb' (show 8 * 5 = 8 * 4 + 8 from rfl),
    BitVec.extractLsb'_append_extractLsb'_eq_extractLsb' (show 8 * 4 = 8 * 3 + 8 from rfl),
    BitVec.extractLsb'_append_extractLsb'_eq_extractLsb' (show 8 * 3 = 8 * 2 + 8 from rfl),
    BitVec.extractLsb'_append_extractLsb'_eq_extractLsb' (show 8 * 2 = 8 * 1 + 8 from rfl),
    BitVec.extractLsb'_append_extractLsb'_eq_extractLsb' (show 8 * 1 = 8 * 0 + 8 from rfl)]
  exact BitVec.extractLsb'_eq_self

-- A word depends on its eight bytes only.
theorem readWord_congr {m m' : Bytes} {a : Nat} (h : ∀ i < 8, m (a + i) = m' (a + i)) :
    readWord m a = readWord m' a := by
  have hzero := h 0 (by decide)
  rw [Nat.add_zero] at hzero
  simp only [readWord, h 7 (by decide), h 6 (by decide), h 5 (by decide), h 4 (by decide),
    h 3 (by decide), h 2 (by decide), h 1 (by decide), hzero]

theorem readWord_writeWord_apart (m : Bytes) {a b : Nat} (w : BitVec 64)
    (h : a + 8 ≤ b ∨ b + 8 ≤ a) : readWord (writeWord m a w) b = readWord m b :=
  readWord_congr fun i hi => writeWord_other m a w (by omega)

theorem pushWords_other (m : Bytes) (sp : Nat) (words : List (BitVec 64)) {x : Nat}
    (hfit : 8 * words.length ≤ sp) (hx : x < sp - 8 * words.length ∨ sp ≤ x) :
    pushWords m sp words x = m x := by
  induction words generalizing m sp with
  | nil => rfl
  | cons w rest ih =>
      simp only [List.length_cons] at hfit hx
      rw [pushWords, ih _ _ (by omega) (by omega), writeWord_other m _ w (by omega)]

-- The words pushed are found below `sp`, each where it was put.
theorem readWord_pushWords (m : Bytes) (sp : Nat) (words : List (BitVec 64))
    (hfit : 8 * words.length ≤ sp) {i : Nat} {w : BitVec 64} (hw : words[i]? = some w) :
    readWord (pushWords m sp words) (sp - 8 * (i + 1)) = w := by
  induction words generalizing m sp i with
  | nil => simp at hw
  | cons v rest ih =>
      simp only [List.length_cons] at hfit
      cases i with
      | zero =>
          simp only [List.getElem?_cons_zero, Option.some.injEq] at hw
          subst hw
          rw [pushWords, ← readWord_writeWord m (sp - 8) v]
          refine readWord_congr fun j hj => ?_
          rw [pushWords_other _ _ _ (by omega) (by omega), readWord_writeWord]
      | succ i =>
          rw [List.getElem?_cons_succ] at hw
          rw [pushWords, show sp - 8 * (i + 1 + 1) = sp - 8 - 8 * (i + 1) by omega]
          exact ih _ _ (by omega) hw

end Bytes

end Verif
