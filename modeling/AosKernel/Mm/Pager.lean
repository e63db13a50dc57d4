import AosKernel.Lib.Radix
import AosKernel.Mm.Avmf

namespace AosKernel.Mm

open Verif

abbrev PhysAddr := BitVec 64
abbrev PageEntry := BitVec 64
abbrev Index := BitVec 9

-- A write of pager.c to a page that holds, or is to hold, a table.
inductive TableWrite
  | zero (table : PhysAddr)
  | link (table : PhysAddr) (i : Index) (target : PhysAddr)
  | leaf (table : PhysAddr) (i : Index) (e : PageEntry)

def TableWrite.page : TableWrite → PhysAddr
  | .zero table => table
  | .link table _ _ => table
  | .leaf table _ _ => table

-- The static data of pager.c and the physical memory in which page tables
-- stand. `table` is kernel_pml4.table, NULL before pager_init; `loaded` says
-- that mapped_pml4 points to kernel_pml4. The identity map and the direct map
-- are two ways to reach the same memory, so entries go by the physical address
-- of their table. No processor has more than 52 physical address bits.
-- `tables` and `writes` are histories for the proofs: the pages that
-- alloc_page_table was given, and the writes to tables, latest first.
structure Pager where
  table : Option PhysAddr
  loaded : Bool
  ready : Bool
  cpuPhysBits : Nat
  cpuPhysBits_le : cpuPhysBits ≤ 52
  firstPagemaps : Nat
  firstPagemapsEnd : Nat
  firstPagemapsPtr : Nat
  entries : Radix.Store PhysAddr Index PageEntry
  tables : List PhysAddr
  writes : List TableWrite

abbrev KernelState := MmState Pager
abbrev Kernel (α : Type) := Exec Halt KernelState α

def idxPml4 (virt : BitVec 64) : Index := virt.extractLsb' 39 9
def idxPdpt (virt : BitVec 64) : Index := virt.extractLsb' 30 9
def idxPd (virt : BitVec 64) : Index := virt.extractLsb' 21 9
def idxPt (virt : BitVec 64) : Index := virt.extractLsb' 12 9

def present (e : PageEntry) : Bool := e &&& PAGE_PRESENT != 0
def huge (e : PageEntry) : Bool := e &&& PAGE_HUGE != 0

-- The address parts the code takes of an entry for either page size.
def pageAddr (e : PageEntry) : PhysAddr := e &&& ~~~ 0xFFF
def hugeAddr (e : PageEntry) : PhysAddr := e &&& ~~~ 0x1FFFFF

def linkEntry (table : PhysAddr) : PageEntry := table ||| PAGE_PRESENT ||| PAGE_RW
def leafEntry (phys flags : BitVec 64) : PageEntry :=
  pageAddr phys ||| (flags &&& 0xFFF) ||| PAGE_PRESENT
def hugeEntry (phys flags : BitVec 64) : PageEntry :=
  hugeAddr phys ||| (flags &&& 0xFFF) ||| PAGE_PRESENT

-- `phys & ~((1ULL << cpu_phys_bits) - 1)`
def beyondCpu (bits : Nat) (phys : PhysAddr) : Bool := phys &&& ~~~ (1#64 <<< bits - 1) != 0

def readEntry (table : PhysAddr) (i : Index) : Kernel PageEntry :=
  return (← get).rest.entries table i

-- The table at `a` gets the entry `e`, which maps a page or nothing.
def Pager.write (p : Pager) (a : PhysAddr) (i : Index) (e : PageEntry) : Pager :=
  { p with entries := Radix.put p.entries a i e, writes := .leaf a i e :: p.writes }

-- The table at `a` gets an entry for the table at `b`.
def Pager.writeLink (p : Pager) (a : PhysAddr) (i : Index) (b : PhysAddr) : Pager :=
  { p with entries := Radix.put p.entries a i (linkEntry b), writes := .link a i b :: p.writes }

def Pager.zero (p : Pager) (a : PhysAddr) : Pager :=
  { p with entries := Radix.fill p.entries a 0, writes := .zero a :: p.writes }

def modifyPager (f : Pager → Pager) : Kernel Unit := modify fun s => { s with rest := f s.rest }

def writeEntry (table : PhysAddr) (i : Index) (e : PageEntry) : Kernel Unit :=
  modifyPager fun p => p.write table i e

def writeTable (table : PhysAddr) (i : Index) (target : PhysAddr) : Kernel Unit :=
  modifyPager fun p => p.writeLink table i target

-- memset of a table to 0.
def zeroTable (table : PhysAddr) : Kernel Unit := modifyPager fun p => p.zero table

def takeTable (table : PhysAddr) : Kernel Unit :=
  modifyPager fun p => { p with tables := table :: p.tables }

section Map

-- alloc_page_table; `none` is NULL.
variable (alloc : Kernel (Option PhysAddr))

-- The step of pager_map from one level to the next. After a failed allocation
-- the entry is written nonetheless, from the initial `phys = 0`, and what
-- comes next goes through the NULL table.
def nextTable (table : PhysAddr) (i : Index) : Kernel PhysAddr := do
  let e ← readEntry table i
  if present e then return pageAddr e
  else
    match ← alloc with
    | some phys =>
        writeTable table i phys
        return phys
    | none =>
        writeTable table i 0
        throw .nullDeref

-- The part of pager_map for PAGE_HUGE.
def mapHuge (pd : PhysAddr) (virt phys flags : BitVec 64) : Kernel Bool := do
  let old ← readEntry pd (idxPd virt)
  if present old then
    spinUnlock .pml4
    return huge old && hugeAddr old == hugeAddr phys
  else
    writeEntry pd (idxPd virt) (hugeEntry phys flags)
    spinUnlock .pml4
    return true

def mapPage (pd : PhysAddr) (virt phys flags : BitVec 64) : Kernel Bool := do
  let old ← readEntry pd (idxPd virt)
  if huge old then
    spinUnlock .pml4
    return hugeAddr old == hugeAddr phys
  else
    let pt ← nextTable alloc pd (idxPd virt)
    let old ← readEntry pt (idxPt virt)
    if present old then
      spinUnlock .pml4
      return pageAddr old == pageAddr phys
    else
      writeEntry pt (idxPt virt) (leafEntry phys flags)
      spinUnlock .pml4
      return true

-- The result says whether pager_map returns kernel_pml4.table or NULL.
def pagerMap (virt phys flags : BitVec 64) : Kernel Bool := do
  let s ← get
  if beyondCpu s.rest.cpuPhysBits phys then return false
  else
    match s.rest.table with
    | none => return false
    | some pml4 =>
        spinLock .pml4
        let pdpt ← nextTable alloc pml4 (idxPml4 virt)
        let pd ← nextTable alloc pdpt (idxPdpt virt)
        if huge flags then mapHuge pd virt phys flags else mapPage alloc pd virt phys flags

-- pager_map_range from `offset` on; each turn covers a page at least, so
-- `turns` pages of fuel reach the end. Sizes stay a page below 2^64.
def mapRangeFrom (virt phys : BitVec 64) (size : Nat) (flags : BitVec 64) :
    Nat → Nat → Kernel Unit
  | 0, _ => return ()
  | turns + 1, offset => do
      if offset < size then
        let curVirt := virt + BitVec.ofNat 64 offset
        let curPhys := phys + BitVec.ofNat 64 offset
        if size - offset ≥ 0x200000 ∧ curVirt % 0x200000 = 0 ∧ curPhys % 0x200000 = 0 then
          let _ ← pagerMap alloc curVirt curPhys (flags ||| PAGE_HUGE)
          mapRangeFrom virt phys size flags turns (offset + 0x200000)
        else
          let _ ← pagerMap alloc curVirt curPhys flags
          mapRangeFrom virt phys size flags turns (offset + PAGE_SIZE)
      else return ()

def pagerMapRange (virt phys : BitVec 64) (size : Nat) (flags : BitVec 64) : Kernel Unit :=
  mapRangeFrom alloc virt phys size flags ((size + (PAGE_SIZE - 1)) / PAGE_SIZE) 0

end Map

-- pager_unmap below the PML4, with the lock held.
def unmapFrom (pml4 : PhysAddr) (virt : BitVec 64) : Kernel Unit := do
  let e ← readEntry pml4 (idxPml4 virt)
  if present e then
    let pdpt := pageAddr e
    let e ← readEntry pdpt (idxPdpt virt)
    if present e then
      let pd := pageAddr e
      let e ← readEntry pd (idxPd virt)
      if huge e then
        writeEntry pd (idxPd virt) (e &&& ~~~ PAGE_PRESENT)
      else if present e then
        let pt := pageAddr e
        let e ← readEntry pt (idxPt virt)
        writeEntry pt (idxPt virt) (e &&& ~~~ PAGE_PRESENT)

def pagerUnmap (virt : BitVec 64) : Kernel Unit := do
  let s ← get
  if s.rest.loaded then
    spinLock .pml4
    match s.rest.table with
    | none => throw .nullDeref
    | some pml4 =>
        unmapFrom pml4 virt
        spinUnlock .pml4

-- avmf_alloc_phys_contiguous for a table, with the page noted in `tables`.
def takeTablePage : Kernel PhysAddr := do
  let phys := BitVec.ofNat 64 (← avmfAllocPhysContiguous PAGE_SIZE)
  if phys ≠ 0 then takeTable phys
  return phys

-- alloc_page_table. The virtual range is taken and never used: the table is
-- reached through the direct map.
def allocPageTable (sv : Services Pager) : Kernel (Option PhysAddr) := do
  let s ← get
  if s.rest.ready then
    let phys ← takeTablePage
    let virt ← avmfAllocVirt sv PAGE_SIZE .sensitive
    if virt = 0 then return none
    else
      zeroTable phys
      return some phys
  else if s.rest.firstPagemaps + s.rest.firstPagemapsPtr + PAGE_SIZE > s.rest.firstPagemapsEnd then
    return none
  else
    let phys := BitVec.ofNat 64 (s.rest.firstPagemaps + s.rest.firstPagemapsPtr)
    modifyPager fun p => { p with firstPagemapsPtr := p.firstPagemapsPtr + PAGE_SIZE }
    if phys = 0 then return none
    else
      takeTable phys
      zeroTable phys
      return some phys

-- pager.c as avmf.c calls it. pager_map calls the allocator for its tables,
-- which may call pager_map for its list nodes; `depth` bounds the nesting.
def pagerServices : Nat → Services Pager
  | 0 =>
      { pagerMap := fun _ _ _ => throw .outOfFuel
        pagerMapRange := fun _ _ _ _ => throw .outOfFuel
        pagerUnmap := fun virt => pagerUnmap virt }
  | depth + 1 =>
      let alloc := allocPageTable (pagerServices depth)
      { pagerMap := fun virt phys flags => pagerMap alloc virt phys flags
        pagerMapRange := fun virt phys size flags => pagerMapRange alloc virt phys size flags
        pagerUnmap := fun virt => pagerUnmap virt }

end AosKernel.Mm
