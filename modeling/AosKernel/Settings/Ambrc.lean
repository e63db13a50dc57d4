import Mathlib.Algebra.Group.Nat.Defs
import Mathlib.Data.List.Basic

namespace AosKernel.Settings

def AMBRC_MAGIC : BitVec 64 := 0x0A130B180C000000
def CURRENT_AMBRC_VERSION : BitVec 64 := 0x0000000000010000
def AMBRC_MAX_KERNELS : Nat := 12

-- enum VMemColors.
abbrev Color := BitVec 32

structure AmbrcDisplay where
  bgColor : Color
  fgColor : Color
  selectedBgColor : Color
  selectedFgColor : Color
  ambrcBgColor : Color
  ambrcFgColor : Color
  ambrcSelectedBgColor : Color
  ambrcSelectedFgColor : Color
  errorFgColor : Color
  showSettingsAtTop : BitVec 8
  splashDuration : BitVec 32
  deriving DecidableEq

structure AmbrcBootInfo where
  defaultOsIdx : BitVec 16
  safeOsIdx : BitVec 16
  panicOsIdx : BitVec 16
  timeout : BitVec 16
  crashVerificationMode : BitVec 16
  deriving DecidableEq

structure AmbrcKernelInfo where
  loadAddr : BitVec 64
  entryPoint : BitVec 64
  safeModeFlags : BitVec 8
  deriving DecidableEq

structure Ambrc where
  magic : BitVec 64
  version : BitVec 64
  display : AmbrcDisplay
  bootInfo : AmbrcBootInfo
  kernelInfo : Vector AmbrcKernelInfo AMBRC_MAX_KERNELS
  crc32 : BitVec 32
  deriving DecidableEq

-- The low `n` bytes of a word as they stand in memory.
def littleEndian {w : Nat} (n : Nat) (x : BitVec w) : List (BitVec 8) :=
  (List.range n).map fun i => x.extractLsb' (8 * i) 8

def AmbrcDisplay.bytes (d : AmbrcDisplay) : List (BitVec 8) :=
  [d.bgColor, d.fgColor, d.selectedBgColor, d.selectedFgColor, d.ambrcBgColor, d.ambrcFgColor,
    d.ambrcSelectedBgColor, d.ambrcSelectedFgColor, d.errorFgColor].flatMap (littleEndian 4) ++
  [d.showSettingsAtTop] ++ littleEndian 4 d.splashDuration

def AmbrcBootInfo.bytes (b : AmbrcBootInfo) : List (BitVec 8) :=
  [b.defaultOsIdx, b.safeOsIdx, b.panicOsIdx, b.timeout, b.crashVerificationMode].flatMap
    (littleEndian 2)

def AmbrcKernelInfo.bytes (k : AmbrcKernelInfo) : List (BitVec 8) :=
  littleEndian 8 k.loadAddr ++ littleEndian 8 k.entryPoint ++ [k.safeModeFlags]

-- The packed structure in memory.
def Ambrc.bytes (a : Ambrc) : List (BitVec 8) :=
  littleEndian 8 a.magic ++ littleEndian 8 a.version ++ a.display.bytes ++ a.bootInfo.bytes ++
    a.kernelInfo.toList.flatMap AmbrcKernelInfo.bytes ++ littleEndian 4 a.crc32

-- generate_crc32_table: the entry `i`.
def crc32Table (i : BitVec 32) : BitVec 32 :=
  (List.range 8).foldl
    (fun crc _ => if crc &&& 1 ≠ 0 then (crc >>> 1) ^^^ 0xEDB88320 else crc >>> 1) i

def calculateCrc32 (data : List (BitVec 8)) : BitVec 32 :=
  data.foldl (fun (crc : BitVec 32) b => (crc >>> 8) ^^^ crc32Table ((crc ^^^ b.setWidth 32) &&& 0xFF))
    (0xFFFFFFFF : BitVec 32) ^^^ 0xFFFFFFFF

-- The checksum is taken over the structure with crc32 = 0.
def Ambrc.checksum (a : Ambrc) : BitVec 32 := calculateCrc32 { a with crc32 := 0 }.bytes

-- What get_ambrc wants of the structure at 0x500.
def Ambrc.accepted (a : Ambrc) : Bool :=
  a.magic == AMBRC_MAGIC && a.checksum == a.crc32 && a.version == CURRENT_AMBRC_VERSION

-- def_ambrc; backup_ambrc starts with the same values. init_backup_ambrc sets crc32.
def defAmbrc : Ambrc where
  magic := AMBRC_MAGIC
  version := CURRENT_AMBRC_VERSION
  display :=
    { bgColor := 0
      fgColor := 7
      selectedBgColor := 7
      selectedFgColor := 0
      ambrcBgColor := 0
      ambrcFgColor := 7
      ambrcSelectedBgColor := 7
      ambrcSelectedFgColor := 0
      errorFgColor := 0
      showSettingsAtTop := 0
      splashDuration := 1 }
  bootInfo :=
    { defaultOsIdx := 0
      safeOsIdx := 0
      panicOsIdx := 0
      timeout := 0
      crashVerificationMode := 3 }
  kernelInfo := .replicate _ ⟨0, 0, 0⟩
  crc32 := 0

-- The structure with the checksum that the save writes.
def Ambrc.sign (a : Ambrc) : Ambrc := { a with crc32 := a.checksum }

-- Where get_ambrc points: at 0x500, or at backup_ambrc.
inductive Slot
  | base
  | backup
  deriving DecidableEq

-- The configurations in memory, the static data of ambrc.c, and what has been
-- written to the blocks of the drive, latest first.
structure Memory where
  base : Ambrc
  backup : Ambrc
  activeKIdx : Fin AMBRC_MAX_KERNELS
  changesMade : Bool
  written : List Ambrc

namespace Memory

def slot (s : Memory) : Slot := if s.base.accepted then .base else .backup

def read (s : Memory) : Slot → Ambrc
  | .base => s.base
  | .backup => s.backup

def getAmbrc (s : Memory) : Ambrc := s.read s.slot

def store (s : Memory) (a : Ambrc) : Slot → Memory
  | .base => { s with base := a }
  | .backup => { s with backup := a }

end Memory

-- kernel_info[idx] = info.
def Ambrc.setKernel (a : Ambrc) (idx : Fin AMBRC_MAX_KERNELS) (info : AmbrcKernelInfo) : Ambrc :=
  { a with kernelInfo := a.kernelInfo.set idx info }

-- ambrc_reset_tab.
def ambrcResetTab (a : Ambrc) (activeKIdx : Fin AMBRC_MAX_KERNELS) (tab : Nat) : Ambrc :=
  match tab with
  | 0 => { a with display := defAmbrc.display }
  | 1 => { a with bootInfo := defAmbrc.bootInfo }
  | 2 => a.setKernel activeKIdx defAmbrc.kernelInfo[activeKIdx]
  | _ => a

-- color_ptr[row], for the rows of the colours.
def AmbrcDisplay.modifyColor (d : AmbrcDisplay) (row : Nat) (f : Color → Color) : AmbrcDisplay :=
  match row with
  | 0 => { d with bgColor := f d.bgColor }
  | 1 => { d with fgColor := f d.fgColor }
  | 2 => { d with selectedBgColor := f d.selectedBgColor }
  | 3 => { d with selectedFgColor := f d.selectedFgColor }
  | 4 => { d with ambrcBgColor := f d.ambrcBgColor }
  | 5 => { d with ambrcFgColor := f d.ambrcFgColor }
  | 6 => { d with ambrcSelectedBgColor := f d.ambrcSelectedBgColor }
  | 7 => { d with ambrcSelectedFgColor := f d.ambrcSelectedFgColor }
  | 8 => { d with errorFgColor := f d.errorFgColor }
  | _ => d

-- The bounds check of the boot info tab.
def stepIndex (val : BitVec 16) (max : Nat) (dir : Int) : BitVec 16 :=
  if dir > 0 ∧ val.toNat < max then val + 1
  else if dir < 0 ∧ val.toNat > 0 then val - 1
  else val

def setDisplay (d : AmbrcDisplay) (row : Nat) (dir : Int) : AmbrcDisplay :=
  match row with
  | 9 => { d with showSettingsAtTop := if d.showSettingsAtTop = 0 then 1 else 0 }
  | 10 =>
      if dir > 0 then { d with splashDuration := d.splashDuration + 1 }
      else if dir < 0 ∧ d.splashDuration.toNat > 0 then
        { d with splashDuration := d.splashDuration - 1 }
      else d
  | _ => d.modifyColor row fun color => (color + BitVec.ofInt 32 dir) &&& 0xF

def setBootInfo (b : AmbrcBootInfo) (row : Nat) (dir : Int) : Option AmbrcBootInfo :=
  match row with
  | 0 => some { b with defaultOsIdx := stepIndex b.defaultOsIdx AMBRC_MAX_KERNELS dir }
  | 1 => some { b with safeOsIdx := stepIndex b.safeOsIdx AMBRC_MAX_KERNELS dir }
  | 2 => some { b with panicOsIdx := stepIndex b.panicOsIdx AMBRC_MAX_KERNELS dir }
  | 3 => some { b with timeout := stepIndex b.timeout 64 dir }
  | 4 => some { b with crashVerificationMode := stepIndex b.crashVerificationMode 3 dir }
  | _ => none

def stepKernel (k : Fin AMBRC_MAX_KERNELS) (dir : Int) : Fin AMBRC_MAX_KERNELS :=
  if h : dir > 0 ∧ k.val < AMBRC_MAX_KERNELS - 1 then ⟨k.val + 1, by omega⟩
  else if dir < 0 ∧ k.val > 0 then ⟨k.val - 1, by omega⟩
  else k

-- ambrc_set_data: the configuration and the active kernel, `none` where it
-- returns before changes_made is set.
def ambrcSetData (a : Ambrc) (activeKIdx : Fin AMBRC_MAX_KERNELS) (tab row : Nat) (dir : Int) :
    Option (Ambrc × Fin AMBRC_MAX_KERNELS) :=
  match tab with
  | 0 => some ({ a with display := setDisplay a.display row dir }, activeKIdx)
  | 1 => (setBootInfo a.bootInfo row dir).map fun b => ({ a with bootInfo := b }, activeKIdx)
  | 2 =>
      let k := a.kernelInfo[activeKIdx]
      let offset := BitVec.ofInt 64 (dir * 0x1000)
      match row with
      | 0 => some (a, stepKernel activeKIdx dir)
      | 1 => some (a.setKernel activeKIdx { k with loadAddr := k.loadAddr + offset }, activeKIdx)
      | 2 => some (a.setKernel activeKIdx { k with entryPoint := k.entryPoint + offset }, activeKIdx)
      | _ => none
  | _ => some (a, activeKIdx)

end AosKernel.Settings
