import Mathlib.Algebra.Group.Nat.Defs
import Mathlib.Logic.Function.Basic

namespace AosKernel.Core

-- The address of an AOS_Module.
abbrev ModuleRef := Nat

inductive ModuleType
  | driver
  | other
  deriving DecidableEq

-- What the registry uses of an AOS_Module. A flag is set where it is 1.
structure AosModule where
  type : ModuleType
  registered : Bool
  targetClass : Nat
  targetSubclass : Nat
  targetProgifclass : Nat
  targetUseProgifclass : Nat
  targetRevision : Nat
  targetUseRevision : Nat
  targetVendor : Nat
  targetUseVendor : Nat

-- What a driver is looked for by.
structure DriverFilter where
  deviceClass : Nat
  subclass : Nat
  useSubclass : Nat
  progif : Nat
  useProgif : Nat
  revision : Nat
  useRevision : Nat
  vendor : Nat
  useVendor : Nat

-- The tests that every lookup makes.
def AosModule.applicable (mod : AosModule) (f : DriverFilter) : Bool :=
  mod.type == .driver && mod.targetClass == f.deviceClass &&
    !(f.useSubclass == 1 && mod.targetSubclass != f.subclass) &&
    !(f.useProgif == 1 && mod.targetUseProgifclass == 1 && mod.targetProgifclass != f.progif) &&
    !(f.useRevision == 1 && mod.targetUseRevision == 1 && mod.targetRevision != f.revision) &&
    !(f.useVendor == 1 && mod.targetUseVendor == 1 && mod.targetVendor != f.vendor)

-- A NULL pointer is followed.
inductive ModuleFault
  | null
  deriving DecidableEq

-- `registeredModules` is the table, as long as it is allocated, with NULL in its holes.
structure Registry where
  modules : ModuleRef → AosModule
  registeredModules : Option (List (Option ModuleRef))
  registeredModuleCount : Nat
  registeredModuleCap : Nat
  freed : List ModuleRef

namespace Registry

-- The part of the table that every loop goes through.
def slots (s : Registry) : List (Option ModuleRef) :=
  (s.registeredModules.getD []).take s.registeredModuleCount

def setSlot (s : Registry) (i : Nat) (module : Option ModuleRef) : Registry :=
  { s with registeredModules := s.registeredModules.map fun table => table.set i module }

def markRegistered (s : Registry) (module : ModuleRef) : Registry :=
  { s with
    modules := Function.update s.modules module { s.modules module with registered := true } }

end Registry

namespace Registry

-- A larger table with what the old one has. `fresh` is what its memory holds.
def grow (fresh : Nat → Option ModuleRef) (s : Registry) : Registry :=
  { s with
    registeredModuleCap := s.registeredModuleCap + 16
    registeredModules := some <| (List.range (s.registeredModuleCap + 16)).map fun i =>
      match s.registeredModules with
      | some table => if i < s.registeredModuleCount then table.getD i none else fresh i
      | none => fresh i }

def push (module : ModuleRef) (s : Registry) : Registry :=
  ({ s with registeredModuleCount := s.registeredModuleCount + 1 }.setSlot
    s.registeredModuleCount (some module)).markRegistered module

end Registry

-- `fresh` is what avmf_alloc gives for a table.
def moduleRegister (fresh : Option (Nat → Option ModuleRef)) (module : ModuleRef) (s : Registry) :
    Bool × Registry :=
  match s.slots.findIdx? fun slot => slot.isNone with
  | some i => (true, (s.setSlot i (some module)).markRegistered module)
  | none =>
      if s.registeredModules.isNone || decide (s.registeredModuleCount ≥ s.registeredModuleCap) then
        match fresh with
        | none => (false, s)
        | some fresh => (true, (s.grow fresh).push module)
      else (true, s.push module)

-- The loop of module_unregister over the slots.
def clearSlots (module : ModuleRef) (s : Registry) : Registry :=
  { s with
    registeredModules := s.registeredModules.map fun table =>
      (table.take s.registeredModuleCount).map
          (fun slot => if slot = some module then none else slot) ++
        table.drop s.registeredModuleCount }

def moduleUnregister (module : ModuleRef) (s : Registry) : Registry := clearSlots module s

def moduleUnregisterDealloc (module : ModuleRef) (s : Registry) : Registry :=
  { clearSlots module s with
    freed := s.freed ++ List.replicate (s.slots.count (some module)) module }

-- The loop of a lookup over the table, with `found` matches so far. It answers which
-- modules it has looked into, and the one it has found.
def driverLoop (modules : ModuleRef → AosModule) (f : DriverFilter) (loopIdx : Nat) :
    List (Option ModuleRef) → Nat → Except ModuleFault (List ModuleRef × Option ModuleRef)
  | [], _ => .ok ([], none)
  | none :: _, _ => .error .null
  | some mod :: rest, found =>
      if !(modules mod).applicable f then
        (driverLoop modules f loopIdx rest found).map fun (reads, r) => (mod :: reads, r)
      else if loopIdx ≠ found then
        (driverLoop modules f loopIdx rest (found + 1)).map fun (reads, r) => (mod :: reads, r)
      else .ok ([mod], some mod)

def moduleGetApplicableRegisteredDriver (loopIdx : Nat) (f : DriverFilter) (s : Registry) :
    Except ModuleFault (List ModuleRef × Option ModuleRef) :=
  driverLoop s.modules f loopIdx s.slots 0

-- The same with a copy of what is found, where avmf_alloc has memory for it.
def moduleGetApplicableRegisteredDriverAlloced (loopIdx : Nat) (f : DriverFilter) (alloc : Bool)
    (s : Registry) : Except ModuleFault (Option AosModule) :=
  (driverLoop s.modules f loopIdx s.slots 0).map fun (_, r) =>
    r.bind fun mod => if alloc then some (s.modules mod) else none

def moduleAlreadyInitialized (module : ModuleRef) (s : Registry) : Bool :=
  s.slots.any fun slot => slot == some module

end AosKernel.Core
