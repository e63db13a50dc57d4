import AosKernel.Mm.Bitmap
import AosKernel.Mm.Region

namespace AosKernel.Mm

open Verif

-- The spin locks of the memory manager.
inductive Lock
  | pml4
  | avmf
  | avmf2
  | region (i : Nat)
  | physRegion (i : Nat)
  deriving DecidableEq, Repr

-- Why code stops for good: it waits for a lock it holds itself, follows a
-- NULL pointer, or leaves a static table.
inductive Halt
  | deadlock (l : Lock)
  | nullDeref
  | outOfBounds
  | outOfFuel
  deriving DecidableEq, Repr

inductive MemoryAllocType
  | unknown
  | user
  | kernel
  | driver
  | sensitive
  deriving DecidableEq, Repr

-- The page from which list nodes of one kind are cut.
structure NodePage where
  cpage : Nat
  remaining : Nat
  deriving DecidableEq, Repr

inductive NodeKind
  | ihdr
  | irange
  deriving DecidableEq, Repr

-- sizeof(avmf_header_t) and sizeof(avmf_range_t).
def NodeKind.size : NodeKind → Nat
  | .ihdr => 72
  | .irange => 24

-- The static data of avmf.c. Physical regions are region headers too, of
-- which only the bounds and allocated_bytes are used.
structure Avmf where
  physicalRegions : List Region
  regions : List Region
  bitmap : Bitmap
  ihdr : NodePage
  irange : NodePage

def Avmf.nodePage (a : Avmf) : NodeKind → NodePage
  | .ihdr => a.ihdr
  | .irange => a.irange

def Avmf.setNodePage (a : Avmf) (kind : NodeKind) (page : NodePage) : Avmf :=
  match kind with
  | .ihdr => { a with ihdr := page }
  | .irange => { a with irange := page }

def Avmf.marked (a : Avmf) (page : Nat) : Bool := bitmapTest a.bitmap page

-- avmf_init: each region_init call takes the next static range node.
def avmfInit (phys : List (Nat × Nat)) : Avmf where
  physicalRegions := phys.mapIdx fun i bounds => avmfRegionInit i bounds.1 bounds.2
  regions :=
    [userSpace, kernelSpace, driverSpace, sensitiveSpace].mapIdx fun i v =>
      avmfRegionInit (phys.length + i) v.base v.limit
  bitmap := fun _ => 0
  ihdr := ⟨0, 0⟩
  irange := ⟨0, 0⟩

-- A call of avmf_region_alloc: the region it found and what it was asked for.
structure Request where
  region : Region
  size : Nat
  align : Nat
  minVirt : Nat
  maxVirt : Nat

-- The memory manager: the allocator's data, the spin locks the core holds and
-- the data of the code around it. `requests` is a history for the proofs that
-- no code reads.
structure MmState (π : Type) where
  avmf : Avmf
  held : List Lock
  requests : List Request
  rest : π

def PAGE_PRESENT : BitVec 64 := 0x1
def PAGE_RW : BitVec 64 := 0x2
def PAGE_USER : BitVec 64 := 0x4
def PAGE_PCD : BitVec 64 := 0x10
def PAGE_DIRTY : BitVec 64 := 0x40
def PAGE_HUGE : BitVec 64 := 0x80
def PAGE_GLOBAL : BitVec 64 := 0x100
def PAGE_XD : BitVec 64 := 0x8000000000000000

def AVMF_FLAG_READABLE : BitVec 32 := 1#32 <<< 0
def AVMF_FLAG_WRITEABLE : BitVec 32 := 1#32 <<< 1
def AVMF_FLAG_EXECUTABLE : BitVec 32 := 1#32 <<< 2
def AVMF_FLAG_USERMODE : BitVec 32 := 1#32 <<< 3
def AVMF_FLAG_NO_CACHE : BitVec 32 := 1#32 <<< 4
def AVMF_FLAG_GLOBAL : BitVec 32 := 1#32 <<< 5
def AVMF_FLAG_DIRTY : BitVec 32 := 1#32 <<< 6

def avmfConvertFlagsToPagerFlags (flags : BitVec 32) : BitVec 64 :=
  let out := PAGE_XD
  let out := if flags &&& AVMF_FLAG_WRITEABLE ≠ 0 ∨ flags &&& AVMF_FLAG_READABLE ≠ 0
    then out ||| PAGE_RW else out
  let out := if flags &&& AVMF_FLAG_EXECUTABLE ≠ 0 then out &&& ~~~ PAGE_XD else out
  let out := if flags &&& AVMF_FLAG_NO_CACHE ≠ 0 then out ||| PAGE_PCD else out
  let out := if flags &&& AVMF_FLAG_USERMODE ≠ 0 then out ||| PAGE_USER else out
  let out := if flags &&& AVMF_FLAG_GLOBAL ≠ 0 then out ||| PAGE_GLOBAL else out
  if flags &&& AVMF_FLAG_DIRTY ≠ 0 then out ||| PAGE_DIRTY else out

-- What avmf.c calls of pager.c. pager_map answers whether it returned a table.
structure Services (π : Type) where
  pagerMap : Nat → Nat → BitVec 64 → Exec Halt (MmState π) Bool
  pagerMapRange : Nat → Nat → Nat → BitVec 64 → Exec Halt (MmState π) Unit
  pagerUnmap : Nat → Exec Halt (MmState π) Unit

def Region.startPage (r : Region) : Nat := r.base / PAGE_SIZE
def Region.endPage (r : Region) : Nat := r.limit / PAGE_SIZE
def Region.pageCount (r : Region) : Nat := r.endPage - r.startPage

-- The loop over the physical regions that both page allocators share: the
-- index of the first valid region in which `find` succeeds, and what it found.
def findPhysRegion (find : Region → Option Nat) : Nat → List Region → Option (Nat × Nat)
  | _, [] => none
  | i, r :: rest =>
      if r.Rejected then findPhysRegion find (i + 1) rest
      else match find r with
        | some page => some (i, page)
        | none => findPhysRegion find (i + 1) rest

-- The pages tested on the way, of which `tests` are those in one region.
def physRegionTests (find : Region → Option Nat) (tests : Region → List Nat) :
    List Region → List Nat
  | [] => []
  | r :: rest =>
      if r.Rejected then physRegionTests find tests rest
      else tests r ++ if (find r).isSome then [] else physRegionTests find tests rest

def Avmf.adjustAllocated (a : Avmf) (i : Nat) (f : Nat → Nat) : Avmf :=
  { a with physicalRegions := a.physicalRegions.modify i fun r =>
      { r with allocatedBytes := f r.allocatedBytes } }

-- The score of avmf_find_region. The sum wraps as the source's does.
def regionScore (r : Region) (minVirt maxVirt minSize : Nat) : Nat :=
  if r.limit > maxVirt then 1000
  else if r.limit = maxVirt then 100
  else if r.limit > (minSize + minVirt) % 2 ^ 64 then 10
  else 0

-- best_score is never written, so the last region with any score is taken.
def findRegion (minVirt maxVirt minSize : Nat) :
    Nat → Option Nat → List Region → Option Nat
  | _, best, [] => best
  | i, best, r :: rest =>
      if r.Rejected ∨ r.base > minVirt then findRegion minVirt maxVirt minSize (i + 1) best rest
      else if regionScore r minVirt maxVirt minSize > 0 then
        findRegion minVirt maxVirt minSize (i + 1) (some i) rest
      else findRegion minVirt maxVirt minSize (i + 1) best rest

def avmfFindRegion (a : Avmf) (minVirt maxVirt minSize : Nat) : Option Nat :=
  findRegion minVirt maxVirt minSize 0 none a.regions

-- The bounds avmf_alloc_hdr_internal derives from an allocation type.
def typeBounds : MemoryAllocType → Option (Nat × Nat)
  | .user => some (AOS_USER_SPACE_BASE, AOS_DIRECT_MAP_BASE)
  | .kernel => some (AOS_KERNEL_SPACE_BASE, AOS_DRIVER_SPACE_BASE)
  | .driver => some (AOS_DRIVER_SPACE_BASE, AOS_SENSITIVE_SPACE_BASE)
  | .sensitive => some (AOS_SENSITIVE_SPACE_BASE, UINT64_MAX)
  | .unknown => none

-- The loop of avmf_free over the headers that alloc_list leads to. `none` stands
-- for a search that has not come to an end.
def findCovering (r : Region) (virt : Nat) : Nat → Option Nat → Option (Option Nat)
  | _, none => some none
  | 0, some _ => none
  | n + 1, some c =>
      let x := r.headers c
      if x.type = .alloc ∧ x.Intact ∧ x.virtAddr ≤ virt ∧ virt < x.virtAddr + x.size then
        some (some c)
      else findCovering r virt n x.next

section Locks

variable {π : Type}

-- spin_lock_irqsave on the only core: nobody else will release a held lock.
def spinLock (l : Lock) : Exec Halt (MmState π) Unit := do
  let s ← get
  if l ∈ s.held then throw (.deadlock l)
  else set { s with held := l :: s.held }

def spinUnlock (l : Lock) : Exec Halt (MmState π) Unit :=
  modify fun s => { s with held := s.held.erase l }

def modifyAvmf (f : Avmf → Avmf) : Exec Halt (MmState π) Unit :=
  modify fun s => { s with avmf := f s.avmf }

-- The tests of `pages` are accesses to the static avmf_bitmap.
def testPages (pages : List Nat) : Exec Halt (MmState π) Unit :=
  if ∀ page ∈ pages, page / 8 < BITMAP_SIZE then return () else throw .outOfBounds

variable (l : Lock) (s : MmState π) (Q : Unit → MmState π → Prop) (E : Halt → Prop)

@[simp] theorem sat_spinLock :
    Exec.Sat (spinLock l) s Q E ↔
      (l ∈ s.held → E (.deadlock l)) ∧ (l ∉ s.held → Q () { s with held := l :: s.held }) := by
  unfold spinLock
  rw [Exec.sat_bind, Exec.sat_get, Exec.sat_ite]
  rfl

@[simp] theorem sat_spinUnlock :
    Exec.Sat (spinUnlock l) s Q E ↔ Q () { s with held := s.held.erase l } :=
  Iff.rfl

@[simp] theorem sat_modifyAvmf (f : Avmf → Avmf) :
    Exec.Sat (modifyAvmf f) s Q E ↔ Q () { s with avmf := f s.avmf } :=
  Iff.rfl

@[simp] theorem sat_testPages (pages : List Nat) :
    Exec.Sat (testPages pages) s Q E ↔
      ((∀ page ∈ pages, page / 8 < BITMAP_SIZE) → Q () s) ∧
        ((¬ ∀ page ∈ pages, page / 8 < BITMAP_SIZE) → E .outOfBounds) := by
  unfold testPages
  rw [Exec.sat_ite]
  rfl

end Locks

section Code

variable {π : Type} (sv : Services π)


def avmfAllocPhysPage : Exec Halt (MmState π) Nat := do
  spinLock .avmf
  let s ← get
  let find (r : Region) := firstFree s.avmf.bitmap r.startPage r.pageCount
  testPages (physRegionTests find
    (fun r => markedTests s.avmf.bitmap r.startPage r.pageCount) s.avmf.physicalRegions)
  match findPhysRegion find 0 s.avmf.physicalRegions with
  | some (i, page) =>
      modifyAvmf fun a => { a with bitmap := bitmapSet a.bitmap page }
      spinUnlock .avmf
      spinLock (.physRegion i)
      modifyAvmf fun a => a.adjustAllocated i (· + PAGE_SIZE)
      spinUnlock (.physRegion i)
      return page * PAGE_SIZE
  | none =>
      spinUnlock .avmf
      return 0

def avmfFreePhysPage (phys : Nat) : Exec Halt (MmState π) Unit := do
  spinLock .avmf
  let page := phys / PAGE_SIZE
  let s ← get
  match findPhysRegion (fun r => if r.startPage ≤ page ∧ page < r.endPage then some page else none)
      0 s.avmf.physicalRegions with
  | some (i, _) =>
      testPages [page]
      if s.avmf.marked page then
        modifyAvmf fun a => { a with bitmap := bitmapClear a.bitmap page }
        spinLock (.physRegion i)
        modifyAvmf fun a => a.adjustAllocated i (· - PAGE_SIZE)
        spinUnlock (.physRegion i)
      spinUnlock .avmf
  | none => spinUnlock .avmf

-- At most three tries for the page of list nodes.
def tryPhysPage : Nat → Exec Halt (MmState π) Nat
  | 0 => return 0
  | n + 1 => do
      let page ← avmfAllocPhysPage
      if page ≠ 0 then return page else tryPhysPage n

-- avmf_alloc_ihdr and avmf_alloc_irange.
def avmfAllocNode (kind : NodeKind) : Exec Halt (MmState π) Nat := do
  spinLock .avmf2
  let s ← get
  let node := s.avmf.nodePage kind
  if node.remaining ≥ kind.size ∧ node.cpage ≠ 0 then
    modifyAvmf fun a => a.setNodePage kind ⟨node.cpage, node.remaining - kind.size⟩
    spinUnlock .avmf2
    return node.cpage + (PAGE_SIZE - node.remaining)
  else
    let page ← tryPhysPage 3
    if page = 0 then
      spinUnlock .avmf2
      return 0
    else if ← sv.pagerMap (AOS_DIRECT_MAP_BASE + page) page (PAGE_RW ||| PAGE_PCD ||| PAGE_PRESENT)
    then
      modifyAvmf fun a =>
        a.setNodePage kind ⟨AOS_DIRECT_MAP_BASE + page, PAGE_SIZE - kind.size⟩
      spinUnlock .avmf2
      return AOS_DIRECT_MAP_BASE + page
    else
      avmfFreePhysPage page
      spinUnlock .avmf2
      return 0

-- avmf_free_ihdr and avmf_free_irange take back the first node of a page only.
def avmfFreeNode (kind : NodeKind) (addr : Nat) : Exec Halt (MmState π) Unit := do
  spinLock .avmf2
  modifyAvmf fun a =>
    let node := a.nodePage kind
    if addr = node.cpage ∧ node.remaining = PAGE_SIZE - kind.size then
      a.setNodePage kind ⟨node.cpage, PAGE_SIZE⟩
    else a
  spinUnlock .avmf2

def nodePool : NodePool Halt (MmState π) where
  avmfAllocIhdr := avmfAllocNode sv .ihdr
  avmfFreeIhdr := avmfFreeNode .ihdr
  avmfAllocIrange := avmfAllocNode sv .irange
  avmfFreeIrange range := avmfFreeNode .irange range.addr

def Avmf.setRegion (a : Avmf) (i : Nat) (r : Region) : Avmf :=
  { a with regions := a.regions.set i r }

-- avmf_region_alloc on the i-th region, whose lock keeps it from changing
-- under the call. What the header stands for comes with its number.
def regionAllocAt (i size align minVirt maxVirt : Nat) :
    Exec Halt (MmState π) (Option (Nat × Extent)) := do
  let s ← get
  match s.avmf.regions[i]? with
  | none => return none
  | some r =>
      if r.Rejected then return none
      else
        spinLock (.region i)
        modify fun s => { s with requests := s.requests ++ [⟨r, size, align, minVirt, maxVirt⟩] }
        let (hdr, r') ← avmfRegionAlloc (nodePool sv) r size align minVirt maxVirt
        modifyAvmf fun a => a.setRegion i r'
        spinUnlock (.region i)
        return hdr.map fun h => (h, (r'.headers h).toExtent)

def regionFreeAt (i base size : Nat) : Exec Halt (MmState π) Unit := do
  let s ← get
  match s.avmf.regions[i]? with
  | none => return ()
  | some r =>
      if freeRejected r base size then return ()
      else
        spinLock (.region i)
        let r' ← avmfRegionFree (nodePool sv) r base size
        modifyAvmf fun a => a.setRegion i r'
        spinUnlock (.region i)

def avmfAllocPhysContiguous (size : Nat) : Exec Halt (MmState π) Nat := do
  if size = 0 ∨ align4k size = 0 then return 0
  else
    spinLock .avmf
    let needed := align4k size / PAGE_SIZE
    let s ← get
    let find (r : Region) := firstRun s.avmf.bitmap needed r.startPage 0 0 r.pageCount
    testPages (physRegionTests find
      (fun r => firstRunTests s.avmf.bitmap needed r.startPage 0 r.pageCount)
      s.avmf.physicalRegions)
    match findPhysRegion find 0 s.avmf.physicalRegions with
    | some (i, first) =>
        modifyAvmf fun a => { a with bitmap := setPages a.bitmap first needed }
        spinUnlock .avmf
        spinLock (.physRegion i)
        modifyAvmf fun a => a.adjustAllocated i (· + needed * PAGE_SIZE)
        spinUnlock (.physRegion i)
        return first * PAGE_SIZE
    | none =>
        spinUnlock .avmf
        return 0

-- A region takes the pages back only if it holds all of them and all are marked.
def holdsMarked (bm : Bitmap) (first needed : Nat) (r : Region) : Option Nat :=
  if r.startPage ≤ first ∧ first < r.endPage ∧ needed ≤ r.endPage - first ∧
      allMarked bm first needed then some first else none

def holdsMarkedTests (bm : Bitmap) (first needed : Nat) (r : Region) : List Nat :=
  if r.startPage ≤ first ∧ first < r.endPage ∧ needed ≤ r.endPage - first then
    markedTests bm first needed
  else []

def avmfFreePhysContiguous (phys size : Nat) : Exec Halt (MmState π) Unit := do
  if size = 0 ∨ align4k size = 0 then return ()
  else
    spinLock .avmf
    let needed := align4k size / PAGE_SIZE
    let first := phys / PAGE_SIZE
    let s ← get
    let find := holdsMarked s.avmf.bitmap first needed
    testPages (physRegionTests find (holdsMarkedTests s.avmf.bitmap first needed)
      s.avmf.physicalRegions)
    match findPhysRegion find 0 s.avmf.physicalRegions with
    | some (i, _) =>
        modifyAvmf fun a => { a with bitmap := clearPages a.bitmap first needed }
        spinUnlock .avmf
        spinLock (.physRegion i)
        modifyAvmf fun a => a.adjustAllocated i (· - needed * PAGE_SIZE)
        spinUnlock (.physRegion i)
    | none => spinUnlock .avmf

-- The header avmf_alloc_hdr_internal returns, with the region it chose.
def avmfAllocHdrInternal (size : Nat) (type : MemoryAllocType) :
    Exec Halt (MmState π) (Option (Nat × Nat × Extent)) := do
  if size < 1 then return none
  else match typeBounds type with
    | none => return none
    | some (minVirt, maxVirt) => do
        let s ← get
        match avmfFindRegion s.avmf minVirt maxVirt size with
        | none => return none
        | some i =>
            let hdr ← regionAllocAt sv i size PAGE_SIZE minVirt maxVirt
            return hdr.map (i, ·)

def avmfAllocVirt (size : Nat) (type : MemoryAllocType) : Exec Halt (MmState π) Nat := do
  match ← avmfAllocHdrInternal sv (align4k size) type with
  | none => return 0
  | some (_, _, hdr) => return hdr.virtAddr

-- `hdr->phys_addr = phys`.
def Region.setPhys (r : Region) (h phys : Nat) : Region :=
  r.modifyHeader h fun x => { x with physAddr := phys }

-- The result is the virtual address and what is stored through `phys_out`.
def avmfAlloc (size : Nat) (type : MemoryAllocType) (flags : BitVec 32) :
    Exec Halt (MmState π) (Nat × Nat) := do
  let trueSize := align4k size
  if trueSize = 0 then return (0, 0)
  else match ← avmfAllocHdrInternal sv trueSize type with
    | none => return (0, 0)
    | some (i, h, hdr) =>
        let f := avmfConvertFlagsToPagerFlags flags
        if hdr.physAddr > 0 then
          -- the header has just become an ALLOC one, so its type is not CACHE
          sv.pagerMapRange hdr.virtAddr hdr.physAddr hdr.size f
          return (hdr.virtAddr, hdr.physAddr)
        else
          let phys ← avmfAllocPhysContiguous hdr.size
          if phys = 0 then
            regionFreeAt sv i hdr.virtAddr hdr.size
            return (0, 0)
          else
            modifyAvmf fun a =>
              { a with regions := a.regions.modify i fun r => r.setPhys h phys }
            sv.pagerMapRange hdr.virtAddr phys hdr.size f
            return (hdr.virtAddr, phys)

-- The loop of avmf_free over the pages of a header.
def releasePages (page virt : Nat) : Nat → Exec Halt (MmState π) Unit
  | 0 => return ()
  | n + 1 => do
      if page / 8 ≥ BITMAP_SIZE then throw .outOfBounds
      else
        modifyAvmf fun a => { a with bitmap := bitmapClear a.bitmap page }
        sv.pagerUnmap virt
        releasePages (page + 1) (virt + PAGE_SIZE) n

def avmfFree (fuel virt : Nat) : Exec Halt (MmState π) Unit := do
  if virt = 0 then return ()
  else
    let s ← get
    match avmfFindRegion s.avmf virt UINT64_MAX ((virt + 1) % 2 ^ 64) with
    | none => return ()
    | some i =>
        match s.avmf.regions[i]? with
        | none => return ()
        | some r =>
            match findCovering r virt fuel (r.lists .alloc).list with
            | none => throw .outOfFuel
            | some none => return ()
            | some (some h) =>
                let hdr := r.headers h
                spinLock .avmf
                releasePages sv (hdr.physAddr / PAGE_SIZE) hdr.virtAddr (hdr.size / PAGE_SIZE)
                spinUnlock .avmf
                regionFreeAt sv i hdr.virtAddr hdr.size

end Code

end AosKernel.Mm
