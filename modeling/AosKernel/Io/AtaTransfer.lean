import AosKernel.Io.AtaPio
import Mathlib.Data.List.Basic

namespace AosKernel.Io

open Verif

-- No data command is under way.
def AtaBus.Quiet (b : AtaBus) : Prop := b.phase = .idle ∨ b.phase = .flushing

-- The first `n` sectors from `lba` on have been moved, sector `i` from or to the offset
-- `512 * i`.
structure Moved (write : Bool) (lba n : Nat) (b t : AtaBus) : Prop where
  moved : t.moved = b.moved ++ (List.range n).map fun i => (lba + i, 512 * i)
  buffer : ∀ x, t.buffer x =
    if write = false ∧ x < 512 * n then b.media (lba + x / 512) (x % 512) else b.buffer x
  media : ∀ sector, t.media sector =
    if write = true ∧ lba ≤ sector ∧ sector < lba + n then
      fun j => b.buffer (512 * (sector - lba) + j)
    else b.media sector

-- Waiting moves no data.
structure Waits (b b' : AtaBus) : Prop where
  media : b'.media = b.media
  buffer : b'.buffer = b.buffer
  moved : b'.moved = b.moved

section Wait

variable {cmd : AtaCommand} {k : Nat}

theorem Waits.refl (b : AtaBus) : Waits b b := ⟨rfl, rfl, rfl⟩

theorem Waits.trans {b b' b'' : AtaBus} (h : Waits b b') (h' : Waits b' b'') : Waits b b'' :=
  ⟨h'.media.trans h.media, h'.buffer.trans h.buffer, h'.moved.trans h.moved⟩

end Wait

section Transfer

variable {lba n : Nat} {b : AtaBus}

theorem Moved.zero (write : Bool) (lba : Nat) (b : AtaBus) : Moved write lba 0 b b := by
  refine ⟨by simp, fun x => ?_, fun sector => ?_⟩
  · rw [if_neg (by omega)]
  · rw [if_neg (by omega)]

theorem Moved.waits {write : Bool} {s s' : AtaBus} (h : Moved write lba n b s)
    (hwaits : Waits s s') : Moved write lba n b s' :=
  ⟨hwaits.moved.trans h.moved, fun x => (congrFun hwaits.buffer x).trans (h.buffer x),
    fun sector => (congrFun hwaits.media sector).trans (h.media sector)⟩

end Transfer

section SetUp

variable {b : AtaBus} {dp : AtaDp}

end SetUp

section Ready

variable {cmd : AtaCommand}

end Ready

-- Moving is about the data that were there before the call.
theorem Moved.answers {write : Bool} {lba n : Nat} {b t : AtaBus} {clock : List Bool}
    {reads : List (AtaEvent × BitVec 8)} :
    Moved write lba n { b with clock := clock, reads := reads } t ↔ Moved write lba n b t :=
  ⟨fun h => ⟨h.moved, h.buffer, h.media⟩, fun h => ⟨h.moved, h.buffer, h.media⟩⟩

end AosKernel.Io
