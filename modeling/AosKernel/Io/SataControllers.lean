import AosKernel.Io.BarMapping
import AosKernel.Io.SataCommand
import AosKernel.Lib.Blocks

namespace AosKernel.Io.Ahci

open Verif Verif.Exec Mm

def KSATA_MAX_PORTS : Nat := 32
def KSATA_ALLOC_STEP : Nat := 16
def KSATA_MAX_CONTROLLERS : Nat := 256

def SATA_PORT_SIGNATURE : Nat := 0x00000101
def ATAPI_PORT_SIGNATURE : Nat := 0xEB140101

structure PcieDevice where
  bus : Nat
  slot : Nat
  func : Nat
  deriving DecidableEq

-- struct sata_port_state. A pointer that is not set is 0.
structure PortState extends SataPortState where
  cltVirts : Nat
  clbVirt : Nat
  clbPhys : Nat
  fisVirt : Nat
  fisPhys : Nat

def PortState.zero : PortState := ⟨⟨false, 0⟩, 0, 0, 0, 0, 0⟩

structure SataController where
  idx : Nat
  valid : Bool
  sataDevice : PcieDevice
  foundSata : Bool
  hbaMem : Option MapRange
  maxCommandSlots : Nat
  portStates : Nat → PortState
  portsAvailable : Nat → Bool

namespace SataController

def setState (ksc : SataController) (i : Nat) (state : PortState) : SataController :=
  { ksc with portStates := Function.update ksc.portStates i state }

def setAvailable (ksc : SataController) (i : Nat) (available : Bool) : SataController :=
  { ksc with portsAvailable := Function.update ksc.portsAvailable i available }

end SataController

-- What a block from avmf_alloc is used for: the controllers, the pointers to a port's
-- command tables, its command headers with the two halves of `ctba`, the FIS that it
-- receives, a command table, and a model name.
inductive SataContent
  | controllers (cap : Nat) (array : Nat → SataController)
  | clt (virts : Nat → Nat)
  | cmdHdrs (ctba : Nat → Nat × Nat)
  | fis
  | cmdTable
  | model (text : List UInt8)

structure SataBlock where
  phys : Nat
  content : SataContent

-- The registers of a port that have an address in them, by halves.
structure PortRegs where
  clb : Nat
  clbu : Nat
  fb : Nat
  fbu : Nat

-- The memory of the driver, its variables, the registers of the ports, and what the
-- allocator will answer: an address and its physical address.
structure SataMemory where
  heap : Nat → Option SataBlock
  allocs : List (Option (Nat × Nat))
  controllers : Nat
  controllerCount : Nat
  controllerCap : Nat
  regs : PcieDevice → Nat → PortRegs

-- An access to memory that is not in use or is in use for something else, a block given
-- back that is not in use, and an allocator that hands out what is in use.
inductive Fault
  | access (addr : Nat)
  | release (addr : Nat)
  | allocator

abbrev SataM := Exec Fault SataMemory

section Memory

def SataMemory.put (s : SataMemory) (a : Nat) (b : Option SataBlock) : SataMemory :=
  { s with heap := Function.update s.heap a b }

-- The block with what is put in it at once.
def avmfAlloc (content : SataContent) : SataM (Nat × Nat) := do
  let s ← get
  match s.allocs with
  | [] => return (0, 0)
  | none :: rest =>
      set { s with allocs := rest }
      return (0, 0)
  | some (virt, phys) :: rest =>
      if virt = 0 ∨ phys ≥ 2 ^ 64 ∨ (s.heap virt).isSome then throw .allocator
      set { s with allocs := rest, heap := Function.update s.heap virt (some ⟨phys, content⟩) }
      return (virt, phys)

def avmfFree (a : Nat) : SataM Unit := do
  if ((← get).heap a).isNone then throw (.release a)
  modify fun s => s.put a none

def avmfFreeIfAny (a : Nat) : SataM Unit := if a ≠ 0 then avmfFree a else pure ()

def loadClt (clt j : Nat) : SataM Nat := do
  match (← get).heap clt with
  | some ⟨_, .clt virts⟩ => return virts j
  | _ => throw (.access clt)

def storeClt (clt j virt : Nat) : SataM Unit := do
  match (← get).heap clt with
  | some ⟨phys, .clt virts⟩ =>
      modify fun s => s.put clt (some ⟨phys, .clt (Function.update virts j virt)⟩)
  | _ => throw (.access clt)

-- A command list has room for 32 headers.
def storeCmdHdr (clb i : Nat) (ctba : Nat × Nat) : SataM Unit := do
  match (← get).heap clb with
  | some ⟨phys, .cmdHdrs hdrs⟩ =>
      if i ≥ 32 then throw (.access clb)
      modify fun s => s.put clb (some ⟨phys, .cmdHdrs (Function.update hdrs i ctba)⟩)
  | _ => throw (.access clb)

def loadController (i : Nat) : SataM SataController := do
  let s ← get
  match s.heap s.controllers with
  | some ⟨_, .controllers cap array⟩ =>
      if i ≥ cap then throw (.access s.controllers)
      return array i
  | _ => throw (.access s.controllers)

def storeController (i : Nat) (ksc : SataController) : SataM Unit := do
  let s ← get
  match s.heap s.controllers with
  | some ⟨phys, .controllers cap array⟩ =>
      if i ≥ cap then throw (.access s.controllers)
      set (s.put s.controllers (some ⟨phys, .controllers cap (Function.update array i ksc)⟩))
  | _ => throw (.access s.controllers)

-- The lower and the upper half of a physical address.
def halves (phys : Nat) : Nat × Nat := (phys % 2 ^ 32, phys / 2 ^ 32)

end Memory

section Ports

-- What a port and the waits for it answer while its controller is set up. `stopped` is
-- what sata_port_stop returns, `idle` and `started` what sata_busy_wait does.
structure PortAnswers where
  ssts : Nat
  sstsAfterReset : Nat
  sig : Nat
  sstsAtInit : Nat
  stopped : Bool
  idle : Bool
  started : Bool

def portDet (ssts : Nat) : Nat := ssts &&& 0x0F
def portIpm (ssts : Nat) : Nat := ssts >>> 8 &&& 0x0F

-- The command tables among `js` that there are.
def freeCmdTables (clt : Nat) : List Nat → SataM Unit
  | [] => pure ()
  | j :: js => do
      let virt ← loadClt clt j
      if virt ≠ 0 then
        avmfFree virt
        storeClt clt j 0
      freeCmdTables clt js

-- Whether there was memory for all the command tables.
def allocCmdTables (clt clb : Nat) : List Nat → SataM Bool
  | [] => return true
  | i :: is => do
      let (virt, phys) ← avmfAlloc .cmdTable
      if virt = 0 then return false
      storeClt clt i virt
      storeCmdHdr clb i (halves phys)
      allocCmdTables clt clb is

def PortState.freed (state : PortState) : PortState :=
  { state with cltVirts := 0, clbVirt := 0, fisVirt := 0 }

-- What sata_port_init does where it fails with everything allocated.
def freePort (slots : Nat) (state : PortState) : SataM PortState := do
  freeCmdTables state.cltVirts (List.range slots)
  avmfFree state.cltVirts
  avmfFree state.clbVirt
  avmfFree state.fisVirt
  return state.freed

def SataMemory.setRegs (s : SataMemory) (device : PcieDevice) (port : Nat) (regs : PortRegs) :
    SataMemory :=
  { s with regs := Function.update s.regs device (Function.update (s.regs device) port regs) }

def sataPortInit (device : PcieDevice) (slots port : Nat) (a : PortAnswers) (state : PortState) :
    SataM (Bool × PortState) := do
  if portDet a.sstsAtInit ≠ 3 ∨ portIpm a.sstsAtInit ≠ 1 then return (false, state)
  if !a.stopped then return (false, state)
  if !a.idle then return (false, state)
  let (clt, _) ← avmfAlloc (.clt fun _ => 0)
  let state := { state with slots := slots, cltVirts := clt }
  if clt = 0 then return (false, state)
  let (clb, clbPhys) ← avmfAlloc (.cmdHdrs fun _ => (0, 0))
  let state := { state with clbVirt := clb, clbPhys := clbPhys }
  if clb = 0 then
    avmfFree clt
    return (false, { state with cltVirts := 0 })
  let (fis, fisPhys) ← avmfAlloc .fis
  let state := { state with fisVirt := fis, fisPhys := fisPhys }
  if fis = 0 then
    avmfFree clt
    avmfFree clb
    return (false, { state with cltVirts := 0, clbVirt := 0 })
  if !(← allocCmdTables clt clb (List.range slots)) then
    return (false, ← freePort slots state)
  modify fun s => s.setRegs device port
    ⟨(halves clbPhys).1, (halves clbPhys).2, (halves fisPhys).1, (halves fisPhys).2⟩
  if !a.started then return (false, ← freePort slots state)
  return (true, { state with active := true })

def freeClt (state : PortState) : SataM Unit :=
  if state.cltVirts ≠ 0 then do
    freeCmdTables state.cltVirts (List.range state.slots)
    avmfFree state.cltVirts
  else pure ()

-- The ports among `is` are stopped and their memory is given back.
def destroyPorts : List Nat → SataController → SataM SataController
  | [], ksc => return ksc
  | i :: is, ksc => do
      let state := ksc.portStates i
      freeClt state
      avmfFreeIfAny state.clbVirt
      avmfFreeIfAny state.fisVirt
      destroyPorts is ((ksc.setState i { state.freed with active := false }).setAvailable i false)

def sataDestroy (ksc : SataController) : SataM SataController := do
  let ksc ← destroyPorts (List.range KSATA_MAX_PORTS) ksc
  modify fun s => if ksc.idx = (s.controllerCount + 2 ^ 64 - 1) % 2 ^ 64 then
    { s with controllerCount := s.controllerCount - 1 } else s
  return { ksc with foundSata := false, valid := false }

end Ports

section Init

-- What a controller and its ports answer, and what the memory of a new array has in it.
structure InitAnswers where
  config : Bars.PciConfig
  junk : Nat → SataController
  reset : Bool
  cap : Nat
  pi : Nat
  ports : Nat → PortAnswers

-- Whether sata_init sets the port up.
def PortAnswers.drive (a : PortAnswers) : Bool :=
  portDet a.ssts = 3 ∧ portDet a.sstsAfterReset = 3 ∧
    (a.sig = SATA_PORT_SIGNATURE ∨ a.sig = ATAPI_PORT_SIGNATURE) ∧ portIpm a.sstsAfterReset = 1

-- The loop over the ports: whether all that were set up are, and how many these are.
def initPorts (a : InitAnswers) : List Nat → Nat → SataController →
    SataM (Bool × Nat × SataController)
  | [], found, ksc => return (true, found, ksc)
  | i :: is, found, ksc => do
      if a.pi.testBit i ∧ (a.ports i).drive then
        let (ok, state) ← sataPortInit ksc.sataDevice ksc.maxCommandSlots i (a.ports i)
          (ksc.portStates i)
        let ksc := ksc.setState i state
        if !ok then return (false, found, ksc)
        initPorts a is (found + 1) (ksc.setAvailable i true)
      else initPorts a is found ksc

-- What sata_init does with the controller once it has its place in the array.
def initController (a : InitAnswers) (ksc : SataController) : SataM (Bool × SataController) := do
  let hbaMem := (Bars.sataMapBar.value ⟨a.config, [], []⟩).join
  if hbaMem.isNone then return (false, ← sataDestroy ksc)
  let ksc := { ksc with hbaMem := hbaMem }
  if !a.reset then return (false, ← sataDestroy ksc)
  if !a.cap.testBit 31 then return (false, ← sataDestroy ksc)
  let ksc := { ksc with maxCommandSlots := (a.cap >>> 8 &&& 0x1F) + 1 }
  let ports := (a.cap &&& 0x1F) + 1
  if ports > KSATA_MAX_PORTS then return (false, ← sataDestroy ksc)
  let (ok, found, ksc) ← initPorts a (List.range ports) 0 ksc
  if !ok then return (false, ← sataDestroy ksc)
  if found > 0 then return (true, { ksc with foundSata := true, valid := true })
  return (false, ← sataDestroy ksc)

-- Whether there is room in the array for one more controller.
def makeRoom (junk : Nat → SataController) : SataM Bool := do
  let s ← get
  if s.controllers = 0 then
    let (array, _) ← avmfAlloc (.controllers KSATA_ALLOC_STEP junk)
    if array = 0 then return false
    modify fun s => { s with
      controllers := array, controllerCap := KSATA_ALLOC_STEP, controllerCount := 0 }
    return true
  else if s.controllerCount ≥ s.controllerCap then
    if s.controllerCount ≥ KSATA_MAX_CONTROLLERS then return false
    match s.heap s.controllers with
    | some ⟨_, .controllers _ old⟩ =>
        let (array, _) ← avmfAlloc (.controllers (s.controllerCap + KSATA_ALLOC_STEP) fun i =>
          if i < s.controllerCount then old i else junk i)
        if array = 0 then return false
        avmfFree s.controllers
        modify fun t => { t with
          controllers := array, controllerCap := s.controllerCap + KSATA_ALLOC_STEP }
        return true
    | _ => throw (.access s.controllers)
  else return true

def newController (idx : Nat) (device : PcieDevice) : SataController :=
  ⟨idx, false, device, false, none, 0, fun _ => .zero, fun _ => false⟩

-- The index is the one that the module gets, whether the controller comes up or not.
def sataInit (device : PcieDevice) (a : InitAnswers) : SataM (Bool × Option Nat) := do
  if !(← makeRoom a.junk) then return (false, none)
  let idx := (← get).controllerCount
  storeController idx (newController idx device)
  modify fun s => { s with controllerCount := s.controllerCount + 1 }
  let (ok, ksc) ← initController a (← loadController idx)
  storeController idx ksc
  return (ok, some idx)

-- A name of 0 is none.
structure BlockDevice where
  blockCount : Nat
  blockSize : Nat
  name : Nat

-- `identified` is what sata_get_info gives, by words. The struct has the 48-bit capacity
-- at word 103.
def sataGetBlockDevice (cidx portId : Nat) (identified : Option (Nat → Nat)) :
    SataM (Option BlockDevice) := do
  if cidx ≥ (← get).controllerCount ∨ portId ≥ KSATA_MAX_PORTS then return none
  let ksc ← loadController cidx
  if !ksc.foundSata ∨ !ksc.valid then return none
  if !(ksc.portStates portId).active then return none
  match identified with
  | none => return none
  | some words =>
      let blockCount := words 106 <<< 48 ||| words 105 <<< 32 ||| words 104 <<< 16 ||| words 103
      let text := (List.range 20).flatMap fun i =>
        [UInt8.ofNat (words (27 + i) >>> 8), UInt8.ofNat (words (27 + i) &&& 0xFF)]
      let (model, _) ← avmfAlloc (.model (text ++ [0]))
      return some ⟨blockCount, 512, model⟩

end Init

end AosKernel.Io.Ahci
