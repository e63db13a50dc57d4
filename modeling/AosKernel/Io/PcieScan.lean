import Mathlib.Data.Nat.Bitwise
import AosKernel.Io.Pcie
import AosKernel.Lib.FirstMatch

namespace AosKernel.Io

open Verif.FirstMatch

def PCI_MAX_BUS : Nat := 256
def PCI_MAX_SLOT : Nat := 32
def PCI_MAX_FUNC : Nat := 8

structure PcieAddress where
  bus : Nat
  slot : Nat
  func : Nat

-- What a search stores behind its pointers.
structure PcieFound where
  address : PcieAddress
  bar0 : UInt32

-- What a search asks for: pcie_find compares the class only, pcie_find_ex the
-- subclass and the programming interface as well, pcie_find_rex the revision too.
structure PcieTarget where
  targetClass : UInt8
  subclass : Option UInt8
  progif : Option UInt8
  revision : Option UInt8
  vendor : Option UInt16

def classOf (classData : UInt32) : UInt8 := (classData >>> 24).toUInt8
def subclassOf (classData : UInt32) : UInt8 := (classData >>> 16).toUInt8
def progifOf (classData : UInt32) : UInt8 := (classData >>> 8).toUInt8
def revisionOf (classData : UInt32) : UInt8 := classData.toUInt8

def PcieTarget.vendorOk (t : PcieTarget) (vendor : UInt16) : Bool :=
  vendor ≠ 0xFFFF && t.vendor.all (vendor == ·)

def PcieTarget.classOk (t : PcieTarget) (classData : UInt32) : Bool :=
  classOf classData == t.targetClass && t.subclass.all (subclassOf classData == ·) &&
    t.progif.all (progifOf classData == ·) && t.revision.all (revisionOf classData == ·)

section Scan

variable (mcfgTable : Option (List AcpiMcfgEntry))

-- The first and the last bus of each segment.
def busRanges : List (Nat × Nat) :=
  match mcfgTable with
  | none => [(0, PCI_MAX_BUS - 1)]
  | some entries => entries.map fun e => (e.startBus, e.endBus)

-- `b = start_bus .. end_bus`
def busesOf (range : Nat × Nat) : List Nat := List.range' range.1 (range.2 + 1 - range.1)

def maxFuncs (hdr : UInt32) : Nat :=
  if (hdr >>> 16) &&& 0xFF &&& 0x80 ≠ 0 then PCI_MAX_FUNC else 1

def pcieProbe (t : PcieTarget) (a : PcieAddress) : StateM PcieSpace (Option PcieFound) := do
  let data ← pcieRead mcfgTable a.bus a.slot a.func 0
  if t.vendorOk data.toUInt16 then
    let classData ← pcieRead mcfgTable a.bus a.slot a.func 0x08
    if t.classOk classData then
      let bar0 ← pcieRead mcfgTable a.bus a.slot a.func 0x10
      return some ⟨a, bar0⟩
    else return none
  else return none

-- The loops of the three searches.
def pcieScan (t : PcieTarget) : StateM PcieSpace (Option PcieFound) :=
  (busRanges mcfgTable).findSomeM? fun range =>
    (busesOf range).findSomeM? fun b =>
      (List.range PCI_MAX_SLOT).findSomeM? fun s => do
        let hdr ← pcieRead mcfgTable b s 0 0x0C
        (List.range (maxFuncs hdr)).findSomeM? fun f => pcieProbe mcfgTable t ⟨b, s, f⟩

def pcieFind (targetClass : UInt8) (targetVendor : UInt16) (useVendor : Bool) :
    StateM PcieSpace (Option PcieFound) :=
  pcieScan mcfgTable ⟨targetClass, none, none, none, if useVendor then some targetVendor else none⟩

def pcieFindEx (targetClass targetSubclass targetProgifclass : UInt8) (targetVendor : UInt16)
    (useVendor : Bool) : StateM PcieSpace (Option PcieFound) :=
  pcieScan mcfgTable ⟨targetClass, some targetSubclass, some targetProgifclass, none,
    if useVendor then some targetVendor else none⟩

def pcieFindRex (targetClass targetSubclass targetProgifclass targetRevision : UInt8)
    (targetVendor : UInt16) (useVendor : Bool) : StateM PcieSpace (Option PcieFound) :=
  pcieScan mcfgTable ⟨targetClass, some targetSubclass, some targetProgifclass,
    some targetRevision, if useVendor then some targetVendor else none⟩

-- The dword of a function that a read answers.
def PcieSpace.register (m : PcieSpace) (a : PcieAddress) (offset : Nat) : UInt32 :=
  m.dword (pcieReadAt mcfgTable a.bus a.slot a.func offset)

-- It is there and is what is asked for.
structure PcieTarget.Matches (t : PcieTarget) (m : PcieSpace) (a : PcieAddress) : Prop where
  present : (m.register mcfgTable a 0).toUInt16 ≠ 0xFFFF
  vendor : ∀ v ∈ t.vendor, (m.register mcfgTable a 0).toUInt16 = v
  targetClass : classOf (m.register mcfgTable a 0x08) = t.targetClass
  subclass : ∀ c ∈ t.subclass, subclassOf (m.register mcfgTable a 0x08) = c
  progif : ∀ c ∈ t.progif, progifOf (m.register mcfgTable a 0x08) = c
  revision : ∀ r ∈ t.revision, revisionOf (m.register mcfgTable a 0x08) = r

end Scan

section Answers

variable {mcfgTable : Option (List AcpiMcfgEntry)} {t : PcieTarget} {m : PcieSpace}
  {a : PcieAddress}

end Answers

end AosKernel.Io
