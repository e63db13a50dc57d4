import AosKernel.Lib.Span

namespace AosKernel.Io

open Verif

def AHCI_MAX_PRD_LENGTH : Nat := 4 * 1024 * 1024

def AHCI_MAX_SECTORS_PER_CMD : Nat := 0xFFFF

def SATA_MAX_PRDT_STATIC_ENTRIES : Nat := 256

structure SataHbaPrdtEntry where
  dba : Nat
  dbau : Nat
  dbc : Nat
  ioc : Nat

namespace SataHbaPrdtEntry

-- The memory an entry describes. `dbc` is one less than its length.
def span (e : SataHbaPrdtEntry) : Span := ⟨e.dbau <<< 32 + e.dba, e.dbc + 1⟩

end SataHbaPrdtEntry

structure SataHbaCmdHdr where
  cfl : Nat
  w : Nat
  prdtl : Nat

structure SataFisRegH2d where
  fisType : Nat
  c : Nat
  command : Nat
  lba0 : Nat
  lba1 : Nat
  lba2 : Nat
  device : Nat
  lba3 : Nat
  lba4 : Nat
  lba5 : Nat
  countl : Nat
  counth : Nat
  deriving Inhabited

-- sizeof(struct sata_fis_reg_h2d)
def sizeofSataFisRegH2d : Nat := 20

namespace SataFisRegH2d

-- The first sector a command addresses.
def lba (fis : SataFisRegH2d) : Nat :=
  fis.lba0 + fis.lba1 <<< 8 + fis.lba2 <<< 16 + fis.lba3 <<< 24 + fis.lba4 <<< 32 +
    fis.lba5 <<< 40

-- How many it addresses. A count field of 0 stands for 65536.
def sectors (fis : SataFisRegH2d) : Nat :=
  if fis.countl + fis.counth <<< 8 = 0 then 65536 else fis.countl + fis.counth <<< 8

def span (fis : SataFisRegH2d) : Span := ⟨fis.lba, fis.sectors⟩

end SataFisRegH2d

-- A block of memory as avmf_alloc answers, with zeros for a failure.
structure DmaBlock (bytes : Nat) where
  virt : Nat
  phys : Nat
  content : Nat → UInt8
  fits : phys ≠ 0 → phys + bytes ≤ 2 ^ 64

-- What a pass of the waiting loops reads from the port and the clock.
structure SataReading where
  tfd : Nat
  ci : Nat
  irq : Nat
  ms : Nat

-- What the port, the clock and the allocator answer during one command. `back` is
-- what the device leaves in the block.
structure SataRun where
  msBusy : Nat
  busy : List SataReading
  sact : Nat
  ci : Nat
  block : ∀ bytes, DmaBlock bytes
  ms : Nat
  polls : List SataReading
  back : Nat → UInt8

structure SataPortState where
  active : Bool
  slots : Nat

-- The arguments of sata_exec_cmd that its commands share.
structure SataRequest where
  command : Nat
  fisType : Nat
  write : Bool
  hasData : Bool
  hasLba : Bool
  hasCount : Bool

-- A command written to the port: its header, its table, and the block of memory
-- behind it when it is issued and when it is done.
structure SataIssued where
  slot : Nat
  hdr : SataHbaCmdHdr
  cfis : SataFisRegH2d
  prdtEntry : List SataHbaPrdtEntry
  out : Nat → UInt8
  back : Nat → UInt8

namespace SataIssued

-- The chunks of memory the device goes through.
def chunks (c : SataIssued) : List Span :=
  (c.prdtEntry.take c.hdr.prdtl).map SataHbaPrdtEntry.span

def sectors (c : SataIssued) : Span := c.cfis.span

end SataIssued

-- The memory that callers' buffers are in, and the commands issued so far.
structure SataState where
  mem : Nat → UInt8
  issued : List SataIssued

-- A difference of two values of the clock, a uint64_t.
def elapsed (now since : Nat) : Nat := (now + 2 ^ 64 - since) % 2 ^ 64

-- sata_busy_wait. `none`, here and below, is a wait that goes on.
def sataBusyWait (timeout ctime : Nat) : List SataReading → Option Bool
  | [] => none
  | r :: rest =>
      if r.tfd &&& (0x80 ||| 0x08) ≠ 0 ∧ elapsed ctime timeout < 1000 then
        sataBusyWait timeout r.ms rest
      else some (elapsed ctime timeout < 1000)

def sataFindCmdslot (port : SataPortState) (sact ci : Nat) : Option Nat :=
  if port.slots = 0 ∨ port.slots > 32 then none
  else (List.range port.slots).find? fun i => (sact ||| ci) &&& (1 <<< i) = 0

-- The wait for a command in sata_exec_cmd_internal. It ends well, or with a timeout
-- or a disk error.
def sataWait (slot timeout : Nat) : List SataReading → Option Bool
  | [] => none
  | r :: rest =>
      if elapsed r.ms timeout > 1000 then some false
      else if r.ci &&& (1 <<< slot) = 0 then some true
      else if r.irq &&& (1 <<< 30) ≠ 0 then some false
      else sataWait slot timeout rest

-- PRDT entries for `bytes` bytes.
def prdtCount (bytes : Nat) : Nat := (bytes + (AHCI_MAX_PRD_LENGTH - 1)) / AHCI_MAX_PRD_LENGTH

def chunkSize (bytesRemaining : Nat) : Nat :=
  if bytesRemaining > AHCI_MAX_PRD_LENGTH then AHCI_MAX_PRD_LENGTH else bytesRemaining

theorem chunkSize_eq (bytesRemaining : Nat) :
    chunkSize bytesRemaining = min bytesRemaining (2 ^ 22) := by
  unfold chunkSize AHCI_MAX_PRD_LENGTH
  split <;> omega

-- The loop of sata_exec_cmd_internal over the PRDT entries.
def fillPrdt (prdtCount bytesRemaining currentAddress prdtIdx : Nat) : List SataHbaPrdtEntry :=
  if bytesRemaining > 0 then
    { dba := currentAddress &&& 0xFFFFFFFF
      dbau := (currentAddress >>> 32) % 2 ^ 32
      dbc := (chunkSize bytesRemaining - 1) % 2 ^ 22
      ioc := if prdtIdx = prdtCount - 1 then 1 else 0 } ::
      fillPrdt prdtCount (bytesRemaining - chunkSize bytesRemaining)
        (currentAddress + chunkSize bytesRemaining) (prdtIdx + 1)
  else []
termination_by bytesRemaining
decreasing_by
  have hchunk := chunkSize_eq bytesRemaining
  omega

def buildFis (req : SataRequest) (lba count : Nat) : SataFisRegH2d :=
  let fis : SataFisRegH2d := default
  let fis := { fis with fisType := req.fisType, c := 1, command := req.command }
  let fis :=
    if req.hasLba then
      { fis with
        lba0 := lba % 2 ^ 8
        lba1 := (lba >>> 8) % 2 ^ 8
        lba2 := (lba >>> 16) % 2 ^ 8
        lba3 := (lba >>> 24) % 2 ^ 8
        lba4 := (lba >>> 32) % 2 ^ 8
        lba5 := (lba >>> 40) % 2 ^ 8
        device := 1 <<< 6 }
    else fis
  if req.hasCount then { fis with countl := count &&& 0xFF, counth := (count >>> 8) &&& 0xFF }
  else fis

-- memcpy of `n` bytes to `dst`. The source is a block of its own.
def memcpy (dst : Nat) (src : Nat → UInt8) (n : Nat) (mem : Nat → UInt8) (x : Nat) : UInt8 :=
  if dst ≤ x ∧ x < dst + n then src (x - dst) else mem x

-- The header, the table and the block of a command, as sata_exec_cmd_internal
-- fills them.
def buildCmd (req : SataRequest) (run : SataRun) (slot lba count buffer : Nat)
    (mem : Nat → UInt8) : SataIssued :=
  let bytes := count * 512
  let block := run.block bytes
  { slot
    hdr :=
      { cfl := sizeofSataFisRegH2d / 4
        w := if req.write then 1 else 0
        prdtl := if req.hasData then prdtCount bytes % 2 ^ 16 else 0 }
    cfis := buildFis req lba count
    prdtEntry := if req.hasData then fillPrdt (prdtCount bytes) bytes block.phys 0 else []
    out := if req.write ∧ buffer ≠ 0 then
      memcpy 0 (fun i => mem (buffer + i)) bytes block.content else block.content
    back := run.back }

def sataExecCmdInternal (port : SataPortState) (req : SataRequest) (run : SataRun)
    (lba count buffer : Nat) (s : SataState) : Option (Bool × SataState) :=
  if !port.active then some (false, s) else
  let bytes := count * 512
  if prdtCount bytes > 0xFFFF ∨ prdtCount bytes > SATA_MAX_PRDT_STATIC_ENTRIES then
    some (false, s)
  else
  match sataBusyWait run.msBusy run.msBusy run.busy with
  | none => none
  | some false => some (false, s)
  | some true =>
  match sataFindCmdslot port run.sact run.ci with
  | none => some (false, s)
  | some slot =>
  if req.hasData ∧ ((run.block bytes).virt = 0 ∨ (run.block bytes).phys = 0) then
    some (false, s)
  else
  let s := { s with issued := s.issued ++ [buildCmd req run slot lba count buffer s.mem] }
  match sataWait slot run.ms run.polls with
  | none => none
  | some false => some (false, s)
  | some true =>
  if req.hasData ∧ !req.write ∧ buffer ≠ 0 then
    some (true, { s with mem := memcpy buffer run.back bytes s.mem })
  else some (true, s)

-- The most sectors sata_exec_cmd gives to one of several commands.
def maxSectorsPerCmd : Nat :=
  let maxBytesPerCmd := SATA_MAX_PRDT_STATIC_ENTRIES * AHCI_MAX_PRD_LENGTH
  let maxSectors := maxBytesPerCmd / 512
  if maxSectors > AHCI_MAX_SECTORS_PER_CMD then AHCI_MAX_SECTORS_PER_CMD else maxSectors

-- The loop of sata_exec_cmd over its commands.
def sataExecCmds (port : SataPortState) (req : SataRequest) :
    List SataRun → Nat → Nat → Nat → SataState → Option (Bool × SataState)
  | [], remainingSectors, _, _, s => if remainingSectors = 0 then some (true, s) else none
  | run :: runs, remainingSectors, currentLba, currentBuffer, s =>
      if remainingSectors = 0 then some (true, s) else
      let sectorsThisCmd :=
        if remainingSectors > maxSectorsPerCmd then maxSectorsPerCmd else remainingSectors
      match sataExecCmdInternal port req run currentLba (sectorsThisCmd % 2 ^ 32) currentBuffer s with
      | some (true, s) =>
          sataExecCmds port req runs (remainingSectors - sectorsThisCmd)
            (currentLba + sectorsThisCmd)
            (if req.hasData then currentBuffer + sectorsThisCmd * 512 else currentBuffer) s
      | stop => stop

def sataExecCmd (port : SataPortState) (req : SataRequest) (runs : List SataRun)
    (lba count buffer : Nat) (s : SataState) : Option (Bool × SataState) :=
  if !port.active then some (false, s) else
  let bytes := count * 512
  if prdtCount bytes > 0xFFFF ∨ prdtCount bytes > SATA_MAX_PRDT_STATIC_ENTRIES then
    sataExecCmds port req runs count lba buffer s
  else
    match runs with
    | [] => none
    | run :: _ => sataExecCmdInternal port req run lba count buffer s

end AosKernel.Io
