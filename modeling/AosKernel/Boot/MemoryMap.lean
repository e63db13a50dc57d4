import AosKernel.Mm.Region
import Mathlib.Data.Nat.Bitwise
import Mathlib.Logic.Function.Basic

namespace AosKernel.Boot

open Verif Mm

def UNIBOOT_MINIMUM_REQUIRED_KERNEL_SPACE_PAGES : Nat := 128

-- The sizes of uniboot_boot_info, uniboot_smmap and uniboot_smmap_entry.
def sizeofBootInfo : Nat := 280
def sizeofSmmap : Nat := 80
def sizeofSmmapEntry : Nat := 32

-- uint64_t sums and differences wrap.
def add64 (a b : Nat) : Nat := (a + b) % 2 ^ 64
def sub64 (a b : Nat) : Nat := (a + 2 ^ 64 - b) % 2 ^ 64

theorem add64_eq {a b : Nat} (h : a + b < 2 ^ 64) : add64 a b = a + b := Nat.mod_eq_of_lt h

theorem sub64_eq {a b : Nat} (hb : b ≤ a) (ha : a < 2 ^ 64) : sub64 a b = a - b := by
  unfold sub64
  rw [show a + 2 ^ 64 - b = a - b + 2 ^ 64 by omega, Nat.add_mod_right]
  exact Nat.mod_eq_of_lt (by omega)

def alignDown (value : Nat) : Nat := value / PAGE_SIZE * PAGE_SIZE

theorem alignDown_le (value : Nat) : alignDown value ≤ value := Nat.div_mul_le_self _ _

theorem le_alignUpPage (value : Nat) : value ≤ alignUpPage value := by
  unfold alignUpPage PAGE_SIZE
  omega

-- The memory types of a descriptor; the vendor's own are `other`.
inductive EfiMemoryType
  | reservedMemoryType
  | loaderCode
  | loaderData
  | bootServicesCode
  | bootServicesData
  | runtimeServicesCode
  | runtimeServicesData
  | conventionalMemory
  | unusableMemory
  | acpiReclaimMemory
  | acpiMemoryNVS
  | memoryMappedIO
  | memoryMappedIOPortSpace
  | palCode
  | persistentMemory
  | other (type : Nat)
  deriving DecidableEq, Repr

-- A descriptor of the firmware's map. It describes memory that exists, which
-- ends below 2^64.
structure EfiDescriptor where
  type : EfiMemoryType
  physicalStart : Nat
  virtualStart : Nat
  numberOfPages : Nat
  fits : physicalStart + numberOfPages * 0x1000 < 2 ^ 64
  deriving DecidableEq, Repr

namespace EfiDescriptor

def size (d : EfiDescriptor) : Nat := d.numberOfPages * 0x1000
def limit (d : EfiDescriptor) : Nat := d.physicalStart + d.size

theorem limit_lt (d : EfiDescriptor) : d.limit < 2 ^ 64 := d.fits

def Contains (d : EfiDescriptor) (s : Span) : Prop := d.physicalStart ≤ s.base ∧ s.limit ≤ d.limit

instance (d : EfiDescriptor) (s : Span) : Decidable (d.Contains s) := by
  unfold Contains
  infer_instance

end EfiDescriptor

inductive SmmapType
  | unusable
  | reserved
  | acpiNvs
  | acpiReclaim
  | unibootStructs
  | free
  deriving DecidableEq, Repr

structure SmmapEntry where
  type : SmmapType
  physStart : Nat
  virtStart : Nat
  size : Nat
  deriving DecidableEq, Repr

namespace SmmapEntry

def limit (e : SmmapEntry) : Nat := add64 e.physStart e.size

end SmmapEntry

def smmapType : EfiMemoryType → SmmapType
  | .conventionalMemory | .loaderCode | .loaderData | .bootServicesCode | .bootServicesData
  | .persistentMemory => .free
  | .acpiReclaimMemory => .acpiReclaim
  | .acpiMemoryNVS => .acpiNvs
  | .unusableMemory => .unusable
  | _ => .reserved

-- The entry that a round of the loop starts with.
def EfiDescriptor.entry (d : EfiDescriptor) : SmmapEntry :=
  ⟨smmapType d.type, d.physicalStart, d.virtualStart, d.size⟩

-- Both tests also compare the structure's address with the virtual range.
def PerfectFit (structure_ : Span) (e : SmmapEntry) : Prop :=
  (structure_.base = e.physStart ∧ add64 structure_.base structure_.size = e.limit) ∨
    (structure_.base = e.virtStart ∧
      add64 structure_.base structure_.size = add64 e.virtStart e.size)

instance (s : Span) (e : SmmapEntry) : Decidable (PerfectFit s e) := by
  unfold PerfectFit
  infer_instance

def Holds (structure_ : Span) (e : SmmapEntry) : Prop :=
  (e.physStart ≤ structure_.base ∧ add64 structure_.base structure_.size ≤ e.limit) ∨
    (e.virtStart ≤ structure_.base ∧
      add64 structure_.base structure_.size ≤ add64 e.virtStart e.size)

instance (s : Span) (e : SmmapEntry) : Decidable (Holds s e) := by
  unfold Holds
  infer_instance

-- What the loop over the descriptors changes: the array behind SMMAP, how many
-- of its entries are in use and which of them last_entry points to. The entry
-- under construction, `e` in the source, is the one at `mcount`: until it is
-- counted, the fragments may be written over it.
structure Conversion where
  mmap : Nat → SmmapEntry
  mcount : Nat
  last : Option Nat

namespace Conversion

def write (c : Conversion) (i : Nat) (e : SmmapEntry) : Conversion :=
  { c with mmap := Function.update c.mmap i e }

-- mmap[mcount++] = e
def push (c : Conversion) (e : SmmapEntry) : Conversion :=
  { c.write c.mcount e with mcount := c.mcount + 1 }

def grow (c : Conversion) (i size : Nat) : Conversion :=
  c.write i { c.mmap i with size := add64 (c.mmap i).size size }

-- last_entry ends where a piece starts and has its type. A piece without a
-- virtual address continues an entry without one.
def Continues (last : SmmapEntry) (physStart virtStart descVirt : Nat) (type : SmmapType) :
    Prop :=
  physStart = last.limit ∧
    (virtStart = add64 last.virtStart last.size ∨ (descVirt = 0 ∧ last.virtStart = 0)) ∧
      type = last.type

instance (last : SmmapEntry) (p v d : Nat) (t : SmmapType) :
    Decidable (Continues last p v d t) := by
  unfold Continues
  infer_instance

-- The end of a round that cuts nothing out: grow last_entry or count `e`.
def append (c : Conversion) : Conversion :=
  let e := c.mmap c.mcount
  match c.last with
  | some i =>
      if Continues (c.mmap i) e.physStart e.virtStart e.virtStart e.type then c.grow i e.size
      else { c with last := some c.mcount, mcount := c.mcount + 1 }
  | none => { c with last := some c.mcount, mcount := c.mcount + 1 }

-- The piece of the descriptor in front of the structure.
def firstFragment (c : Conversion) (d : EfiDescriptor) (overlapStart : Nat) : Conversion :=
  let e := c.mmap c.mcount
  let fragment := ⟨e.type, d.physicalStart, d.virtualStart, sub64 overlapStart d.physicalStart⟩
  if d.physicalStart < overlapStart then
    match c.last with
    | some i =>
        if Continues (c.mmap i) d.physicalStart d.virtualStart e.virtStart e.type then
          c.grow i (sub64 overlapStart d.physicalStart)
        else c.push fragment
    | none => c.push fragment
  else c

-- The structure's own pages. The second result is idx1.
def secondFragment (c : Conversion) (overlapStart overlapEnd : Nat) : Conversion × Nat :=
  let fragment := ⟨.unibootStructs, overlapStart, 0, sub64 overlapEnd overlapStart⟩
  match c.last with
  | some i =>
      if overlapStart = (c.mmap i).limit ∧ .unibootStructs = (c.mmap i).type then
        (c.grow i (sub64 overlapEnd overlapStart), 0)
      else (c.push fragment, c.mcount + 1)
  | none => (c.push fragment, c.mcount + 1)

-- The piece behind the structure. Its type is read from slot `e`.
def thirdFragment (c : Conversion) (e : Nat) (d : EfiDescriptor) (overlapEnd idx1 : Nat) :
    Conversion × Nat :=
  if overlapEnd < d.limit then
    (c.push ⟨(c.mmap e).type, overlapEnd, 0, sub64 d.limit overlapEnd⟩, c.mcount + 1)
  else (c, idx1)

def setLast (c : Conversion) (idx1 : Nat) : Conversion :=
  if 0 < idx1 then { c with last := some (idx1 - 1) } else c

-- The code at fragment_entry_due_to_overlap.
def fragmentEntry (c : Conversion) (d : EfiDescriptor) (ubStart ubEnd : Nat) : Conversion :=
  let overlapStart := max d.physicalStart ubStart
  let overlapEnd := min d.limit ubEnd
  let (second, idx1) := (c.firstFragment d overlapStart).secondFragment overlapStart overlapEnd
  let (third, idx1) := second.thirdFragment c.mcount d overlapEnd idx1
  third.setLast idx1

end Conversion

-- A boot: the map that the loader reads, where its allocations are and where
-- the linker has put __bss_end. The pages of an allocation end below 2^64.
structure BootLayout where
  descriptors : List EfiDescriptor
  kernelImage : Span
  kernelSpace : Nat
  uniBootCore : Nat
  smmap : Nat
  bssEnd : Nat
  core_fits : alignUpPage (uniBootCore + sizeofBootInfo) < 2 ^ 64
  smmap_fits : alignUpPage (smmap +
    (sizeofSmmap + sizeofSmmapEntry * 5 * descriptors.length)) < 2 ^ 64
  bss_fits : alignUpPage (bssEnd + 0x1000000) < 2 ^ 64

namespace BootLayout

-- The kernel space has 16 times the minimum of pages.
def kernelSpaceSpan (b : BootLayout) : Span :=
  ⟨b.kernelSpace, UNIBOOT_MINIMUM_REQUIRED_KERNEL_SPACE_PAGES * 16 * 0x1000⟩

def coreSpan (b : BootLayout) : Span := ⟨b.uniBootCore, sizeofBootInfo⟩

-- map_size / desc_size is the number of descriptors.
def smmapSize (b : BootLayout) : Nat :=
  sizeofSmmap + sizeofSmmapEntry * 5 * b.descriptors.length

def smmapSpan (b : BootLayout) : Span := ⟨b.smmap, b.smmapSize⟩

end BootLayout

-- One round of btl_main's conversion loop.
def convertDescriptor (core smmap : Span) (c : Conversion) (d : EfiDescriptor) : Conversion :=
  let e := d.entry
  let c := c.write c.mcount e
  if PerfectFit core e ∨ PerfectFit smmap e then
    (c.write c.mcount { e with type := .unibootStructs }).append
  else if Holds core e then
    c.fragmentEntry d (alignDown core.base) (alignUpPage core.limit)
  else if Holds smmap e then
    c.fragmentEntry d (alignDown smmap.base) (alignUpPage smmap.limit)
  else c.append

-- SMMAP's pages as the allocation left them.
def emptySmmap : Conversion := ⟨fun _ => ⟨.unusable, 0, 0, 0⟩, 0, none⟩

def convertFrom (core smmap : Span) (c : Conversion) (ds : List EfiDescriptor) : Conversion :=
  ds.foldl (convertDescriptor core smmap) c

-- The entries that the kernel finds: m->entries and m->count.
def BootLayout.convert (b : BootLayout) : List SmmapEntry :=
  let c := convertFrom b.coreSpan b.smmapSpan emptySmmap b.descriptors
  (List.range c.mcount).map c.mmap

-- A range [base_phys[i], limit_phys[i]).
structure PhysRange where
  base : Nat
  limit : Nat
  deriving DecidableEq, Repr

def PhysRange.Mem (x : Nat) (r : PhysRange) : Prop := r.base ≤ x ∧ x < r.limit

-- The end of what pager_init keeps from the allocator.
def BootLayout.privilaged (b : BootLayout) : Nat := alignUpPage (b.bssEnd + 0x1000000)

-- One round of the loop over the entries. Both arrays of pager_init have 256
-- slots: what follows a write behind them is not modelled.
def initEntry (privilaged : Nat) (ranges : List PhysRange) (e : SmmapEntry) :
    Option (List PhysRange) :=
  let add (start : Nat) : Option (List PhysRange) :=
    if ranges.length < 256 then some (ranges ++ [⟨start, e.limit⟩]) else none
  if e.size = 0 then some ranges
  else if e.type = .free then
    if e.physStart < privilaged then
      if e.size ≤ privilaged - e.physStart then some ranges else add privilaged
    else add e.physStart
  else some ranges

-- The ranges that pager_init passes to avmf_init.
def pagerRanges (privilaged : Nat) (entries : List SmmapEntry) : Option (List PhysRange) :=
  entries.foldlM (initEntry privilaged) []

end AosKernel.Boot
