import AosKernel.Lib.Words

namespace AosKernel.Io

open Verif

def ATA_SR_BSY : BitVec 8 := 0x80

def ATA_SR_DRQ : BitVec 8 := 0x08

def ATA_SR_ERR : BitVec 8 := 0x01

-- A register that remembers the value before the last one.
structure TwoDeep where
  prev : BitVec 8
  cur : BitVec 8

def TwoDeep.push (r : TwoDeep) (v : BitVec 8) : TwoDeep := ⟨r.cur, v⟩

-- A data command of a drive: its first sector and its number of sectors.
structure AtaCommand where
  write : Bool
  lba : Nat
  total : Nat

-- What a drive is doing. In a data command it is busy with the sector `k`, or has it
-- ready and asks for the transfer.
inductive AtaPhase
  | idle
  | flushing
  | busy (cmd : AtaCommand) (k : Nat)
  | ready (cmd : AtaCommand) (k : Nat)

-- What a drive may do until its status is read.
inductive AtaEvent
  | stay
  | advance
  | fail

-- The drive that the call selects, the buffer of the host, and the sectors that have
-- been moved with their offsets in the buffer. `clock` answers whether a second has
-- passed, and `reads` what the drive does until a status read and the bits that mean
-- nothing.
structure AtaBus where
  sectorCount : TwoDeep
  lbaLow : TwoDeep
  lbaMid : TwoDeep
  lbaHigh : TwoDeep
  phase : AtaPhase
  err : Bool
  media : Nat → Nat → BitVec 8
  buffer : Bytes
  moved : List (Nat × Nat)
  clock : List Bool
  reads : List (AtaEvent × BitVec 8)

namespace AtaBus

-- The values that the command register makes of the others. 0 stands for 65536 sectors.
def count (b : AtaBus) : Nat :=
  let n := b.sectorCount.prev.toNat * 256 + b.sectorCount.cur.toNat
  if n = 0 then 65536 else n

def lba (b : AtaBus) : Nat :=
  b.lbaHigh.prev.toNat * 2 ^ 40 + b.lbaMid.prev.toNat * 2 ^ 32 + b.lbaLow.prev.toNat * 2 ^ 24 +
    b.lbaHigh.cur.toNat * 2 ^ 16 + b.lbaMid.cur.toNat * 2 ^ 8 + b.lbaLow.cur.toNat

-- The bits beside BSY mean nothing while it is set, but the drive does not ask for a
-- transfer.
def status (b : AtaBus) (noise : BitVec 8) : BitVec 8 :=
  match b.phase with
  | .busy _ _ | .flushing => ATA_SR_BSY ||| (noise &&& 0x77)
  | .ready _ _ => ATA_SR_DRQ ||| (noise &&& 0x76)
  | .idle => (noise &&& 0x76) ||| if b.err then ATA_SR_ERR else 0

-- The sector that the drive has ready goes over the data register.
def next (cmd : AtaCommand) (k : Nat) : AtaPhase :=
  if cmd.write = false ∧ k + 1 = cmd.total then .idle else .busy cmd (k + 1)

end AtaBus

end AosKernel.Io
