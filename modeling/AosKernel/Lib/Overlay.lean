import Mathlib.Algebra.Group.Nat.Defs
import Mathlib.Data.List.Basic

namespace Verif

variable {α : Type}

-- `data` written over a list from position `pos` on.
def overlay (l : List α) (pos : Nat) (data : List α) : List α :=
  l.take pos ++ data ++ l.drop (pos + data.length)

@[simp] theorem overlay_nil (l : List α) (pos : Nat) : overlay l pos [] = l := by
  simp [overlay]

theorem length_overlay {l data : List α} {pos : Nat} (h : pos + data.length ≤ l.length) :
    (overlay l pos data).length = l.length := by
  simp only [overlay, List.length_append, List.length_take, List.length_drop]
  omega

-- Writing commutes with cutting the list behind the written positions.
theorem take_overlay {l data : List α} {pos n : Nat} (hn : pos + data.length ≤ n)
    (hl : n ≤ l.length) : (overlay l pos data).take n = overlay (l.take n) pos data := by
  have hlen : (l.take pos ++ data).length = pos + data.length := by
    simp only [List.length_append, List.length_take]
    omega
  have htake : (l.take n).take pos = l.take pos := by
    rw [List.take_take, Nat.min_eq_left (by omega)]
  rw [overlay, overlay, htake, List.take_append, hlen, List.take_of_length_le (by omega),
    List.drop_take]

-- A write at the front shows in full.
theorem take_overlay_zero (l data : List α) : (overlay l 0 data).take data.length = data := by
  rw [overlay, List.take_zero, List.nil_append, List.take_left]

end Verif
