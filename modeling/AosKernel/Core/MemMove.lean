import AosKernel.Core.Ram
import AosKernel.Lib.StringMove

namespace AosKernel.Core

open Verif

-- Memory and the direction flag, which a call leaves to its caller.
structure CopyState where
  bytes : Bytes
  df : Bool

namespace CopyState

-- The string instructions, with the operands in their registers.
def load (c : CopyState) (dest src n : Nat) : StringMove (BitVec 8) :=
  ⟨dest, src, n, c.df, c.bytes⟩

def store (s : StringMove (BitVec 8)) : CopyState := ⟨s.mem, s.df⟩

-- The returned pointer and the state after the call. The asm has `dest` as
-- an operand that is read and written, so what is returned is RDI.
def memcpy (c : CopyState) (dest src n : Nat) : Nat × CopyState :=
  if dest = 0 ∨ src = 0 then (0, c)
  else if n = 0 ∨ dest = src then (dest, c)
  else
    let s := (c.load dest src n).cld.repMovsb
    (s.rdi, store s)

-- Going down, the operands are the copies `d` and `s` of the pointers.
def memmove (c : CopyState) (dest src n : Nat) : Nat × CopyState :=
  if dest = 0 ∨ src = 0 then (0, c)
  else if n = 0 ∨ dest = src then (dest, c)
  else if dest < src then c.memcpy dest src n
  else
    let s := (c.load (dest + n - 1) (src + n - 1) n).std.repMovsb.cld
    (dest, store s)

section Copies

variable (c : CopyState) {dest src n : Nat}

theorem memcpy_eq (hdest : dest ≠ 0) (hsrc : src ≠ 0) (hn : n ≠ 0) (hne : dest ≠ src)
    (hd : dest + n ≤ 2 ^ 64) (hs : src + n ≤ 2 ^ 64) :
    c.memcpy dest src n = ((dest + n) % 2 ^ 64, ⟨copyUp c.bytes dest src n, false⟩) := by
  have hdest' : dest % 2 ^ 64 = dest := Nat.mod_eq_of_lt (by omega)
  have hsrc' : src % 2 ^ 64 = src := Nat.mod_eq_of_lt (by omega)
  have hrun := StringMove.repeatMovsb_up (s := (c.load dest src n).cld) rfl rfl hdest'.symm
    hsrc'.symm hd hs
  have hrep : (c.load dest src n).cld.repMovsb = _ := hrun
  rw [memcpy, if_neg (by omega), if_neg (by omega)]
  simp only [hrep, store]
  rfl

theorem memmove_up (hdest : dest ≠ 0) (hsrc : src ≠ 0) (hn : n ≠ 0) (hlt : dest < src)
    (hd : dest + n ≤ 2 ^ 64) (hs : src + n ≤ 2 ^ 64) :
    c.memmove dest src n = ((dest + n) % 2 ^ 64, ⟨copyUp c.bytes dest src n, false⟩) := by
  rw [memmove, if_neg (by omega), if_neg (by omega), if_pos hlt,
    memcpy_eq c hdest hsrc hn (Nat.ne_of_lt hlt) hd hs]

theorem memmove_down (hdest : dest ≠ 0) (hsrc : src ≠ 0) (hn : n ≠ 0) (hlt : src < dest) :
    c.memmove dest src n = (dest, ⟨copyDown c.bytes dest src n, false⟩) := by
  have hrun := StringMove.repeatMovsb_down (s := (c.load (dest + n - 1) (src + n - 1) n).std)
    rfl rfl rfl rfl (Nat.pos_of_ne_zero hdest) (Nat.pos_of_ne_zero hsrc)
  have hrep : (c.load (dest + n - 1) (src + n - 1) n).std.repMovsb = _ := hrun
  rw [memmove, if_neg (by omega), if_neg (by omega), if_neg (by omega)]
  simp only [hrep, store]
  rfl

-- Nothing is copied.
theorem memcpy_idle (hdest : dest ≠ 0) (hsrc : src ≠ 0) (h : n = 0 ∨ dest = src) :
    c.memcpy dest src n = (dest, c) := by
  rw [memcpy, if_neg (by omega), if_pos h]

theorem memmove_idle (hdest : dest ≠ 0) (hsrc : src ≠ 0) (h : n = 0 ∨ dest = src) :
    c.memmove dest src n = (dest, c) := by
  rw [memmove, if_neg (by omega), if_pos h]

theorem moved_idle (h : n = 0 ∨ dest = src) (x : Nat) : moved c.bytes dest src n x = c.bytes x := by
  unfold moved
  split
  · apply congrArg c.bytes
    omega
  · rfl

-- Whatever the overlap, [dest, dest + n) gets the bytes of [src, src + n), and
-- no other byte changes.
theorem memmove_bytes (hdest : dest ≠ 0) (hsrc : src ≠ 0) (hd : dest + n ≤ 2 ^ 64)
    (hs : src + n ≤ 2 ^ 64) (x : Nat) :
    (c.memmove dest src n).2.bytes x = moved c.bytes dest src n x := by
  by_cases hidle : n = 0 ∨ dest = src
  · rw [memmove_idle c hdest hsrc hidle, moved_idle c hidle]
  · obtain ⟨hn, hne⟩ := not_or.mp hidle
    rcases Nat.lt_or_gt_of_ne hne with hlt | hlt
    · rw [memmove_up c hdest hsrc hn hlt hd hs]
      exact copyUp_eq c.bytes (.inl (Nat.le_of_lt hlt)) x
    · rw [memmove_down c hdest hsrc hn hlt]
      exact copyDown_eq c.bytes (.inl (Nat.le_of_lt hlt)) x

-- The memory is that of the copy without registers.
theorem memmove_ram (r : Ram) (df : Bool) (hdest : dest ≠ 0) (hsrc : src ≠ 0)
    (hd : dest + n ≤ 2 ^ 64) (hs : src + n ≤ 2 ^ 64) :
    (CopyState.memmove ⟨r.bytes, df⟩ dest src n).2.bytes = (r.memmove dest src n).bytes := by
  funext x
  rw [memmove_bytes ⟨r.bytes, df⟩ hdest hsrc hd hs, Ram.memmove_bytes r hdest hsrc]

-- The bytes of [src, src + n) are in [dest, dest + n), no other byte has
-- changed, the direction flag is clear and the destination is returned.
structure Moves (c : CopyState) (dest src n : Nat) (result : Nat × CopyState) : Prop where
  bytes : ∀ x, result.2.bytes x = moved c.bytes dest src n x
  df : result.2.df = false
  returned : result.1 = dest

theorem moves_idle (h : n = 0 ∨ dest = src) :
    Moves c dest src n (dest, c) ↔ c.df = false :=
  ⟨fun hmoves => hmoves.df, fun hdf => ⟨fun x => (moved_idle c h x).symm, hdf, rfl⟩⟩

-- After a copy that goes up the returned pointer is past the destination.
theorem not_moves_up (hn : n ≠ 0) (hdest : dest ≠ 0) (hd : dest + n ≤ 2 ^ 64) (c' : CopyState) :
    ¬ Moves c dest src n ((dest + n) % 2 ^ 64, c') := by
  intro h
  have hreturned : (dest + n) % 2 ^ 64 = dest := h.returned
  omega

theorem memmove_moves (hdest : dest ≠ 0) (hsrc : src ≠ 0) (hd : dest + n ≤ 2 ^ 64)
    (hs : src + n ≤ 2 ^ 64) :
    Moves c dest src n (c.memmove dest src n) ↔
      n ≠ 0 ∧ src < dest ∨ (n = 0 ∨ dest = src) ∧ c.df = false := by
  by_cases hidle : n = 0 ∨ dest = src
  · have hlow : ¬ (n ≠ 0 ∧ src < dest) := by omega
    rw [memmove_idle c hdest hsrc hidle, moves_idle c hidle, or_iff_right hlow,
      and_iff_right hidle]
  · obtain ⟨hn, hne⟩ := not_or.mp hidle
    rw [or_iff_left (mt And.left hidle), and_iff_right hn]
    rcases Nat.lt_or_gt_of_ne hne with hlt | hlt
    · rw [memmove_up c hdest hsrc hn hlt hd hs]
      exact iff_of_false (not_moves_up c hn hdest hd _) (Nat.not_lt_of_gt hlt)
    · rw [memmove_down c hdest hsrc hn hlt]
      exact iff_of_true ⟨copyDown_eq c.bytes (.inl (Nat.le_of_lt hlt)), rfl, rfl⟩ hlt

theorem memcpy_moves (hdest : dest ≠ 0) (hsrc : src ≠ 0) (hd : dest + n ≤ 2 ^ 64)
    (hs : src + n ≤ 2 ^ 64) :
    Moves c dest src n (c.memcpy dest src n) ↔ (n = 0 ∨ dest = src) ∧ c.df = false := by
  by_cases hidle : n = 0 ∨ dest = src
  · rw [memcpy_idle c hdest hsrc hidle, moves_idle c hidle, and_iff_right hidle]
  · obtain ⟨hn, hne⟩ := not_or.mp hidle
    rw [memcpy_eq c hdest hsrc hn hne hd hs]
    exact iff_of_false (not_moves_up c hn hdest hd _) (mt And.left hidle)

-- memmove does what it should exactly where it goes down or copies nothing,
-- and memcpy, of ranges that are apart, where it copies nothing.
theorem copies_return_dest_iff (hdest : dest ≠ 0) (hsrc : src ≠ 0) (hd : dest + n ≤ 2 ^ 64)
    (hs : src + n ≤ 2 ^ 64) :
    (Moves c dest src n (c.memmove dest src n) ↔
        n ≠ 0 ∧ src < dest ∨ (n = 0 ∨ dest = src) ∧ c.df = false) ∧
      (Span.Apart ⟨dest, n⟩ ⟨src, n⟩ →
        (Moves c dest src n (c.memcpy dest src n) ↔ n = 0 ∧ c.df = false)) := by
  refine ⟨memmove_moves c hdest hsrc hd hs, fun hapart => ?_⟩
  have hnone : n = 0 ∨ dest = src ↔ n = 0 := by
    rw [Span.apart_cases] at hapart
    simp only [Span.limit] at hapart
    omega
  rw [memcpy_moves c hdest hsrc hd hs, hnone]

theorem copies_return_dest_iff_up :
    (¬ Moves ⟨fun _ => 0, false⟩ 1 2 1 (CopyState.memmove ⟨fun _ => 0, false⟩ 1 2 1)) ∧
      ¬ Moves ⟨fun _ => 0, false⟩ 1 2 1 (CopyState.memcpy ⟨fun _ => 0, false⟩ 1 2 1) := by
  have h := copies_return_dest_iff ⟨fun _ => 0, false⟩ (show 1 ≠ 0 by decide)
    (show 2 ≠ 0 by decide) (show 1 + 1 ≤ 2 ^ 64 by decide) (show 2 + 1 ≤ 2 ^ 64 by decide)
  rw [h.1, h.2 (by decide)]
  decide

-- Two bytes moved down by one: the pointer behind them is returned.
theorem memmove_returns_end :
    (CopyState.memmove ⟨fun x => BitVec.ofNat 8 x, false⟩ 0x1000 0x1001 2).1 = 0x1002 ∧
      ¬ Moves ⟨fun x => BitVec.ofNat 8 x, false⟩ 0x1000 0x1001 2
        (CopyState.memmove ⟨fun x => BitVec.ofNat 8 x, false⟩ 0x1000 0x1001 2) := by
  have hreturned :
      (CopyState.memmove ⟨fun x => BitVec.ofNat 8 x, false⟩ 0x1000 0x1001 2).1 = 0x1002 := by
    decide
  refine ⟨hreturned, fun h => ?_⟩
  have hdest := h.returned
  rw [hreturned] at hdest
  cases hdest

end Copies

end CopyState

end AosKernel.Core
