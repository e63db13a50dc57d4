import AosKernel.Lib.Exec
import AosKernel.Lib.Span
import AosKernel.Mm.HeaderLinks

namespace AosKernel.Mm

open Verif

def UINT64_MAX : Nat := 2 ^ 64 - 1
def PAGE_SIZE : Nat := 4096

-- ALIGN_UP to a page; the caller rules the overflow out.
def alignUpPage (value : Nat) : Nat := (value + (PAGE_SIZE - 1)) / PAGE_SIZE * PAGE_SIZE

def align4k (value : Nat) : Nat :=
  if value > UINT64_MAX - (PAGE_SIZE - 1) then 0 else alignUpPage value

-- An avmf_range_t of a free list. `addr` is where the node itself is stored.
structure Range where
  addr : Nat
  base : Nat
  size : Nat
  deriving DecidableEq, Repr

-- An avmf_region_header_t. The free list is what follows free_list. A header has
-- the number of headers that were set up before it for its address, `made` being
-- that of the next one.
structure Region extends HeaderRegion where
  allocatedBytes : Nat
  freeList : List Range
  freeCount : Nat
  made : Nat

-- The bounds of a region of virtual memory. Address 0 is in none of those that
-- avmf_init sets up: it stands for a failed allocation.
structure VirtualRegion where
  base : Nat
  limit : Nat
  base_pos : 0 < base
  base_lt : base < limit
  limit_lt : limit < 2 ^ 64

def AOS_USER_SPACE_BASE : Nat := 0x1000
def AOS_USER_SPACE_BASE_END : Nat := 0x20000000
def AOS_DIRECT_MAP_BASE : Nat := 0xFFFF800000000000
def AOS_KERNEL_SPACE_BASE : Nat := 0xFFFFA00000000000
def AOS_DRIVER_SPACE_BASE : Nat := 0xFFFFC00000000000
def AOS_SENSITIVE_SPACE_BASE : Nat := 0xFFFFE00000000000
def AOS_SENSITIVE_SPACE_BASE_END : Nat := 0xFFFFF00000000000

def userSpace : VirtualRegion :=
  ⟨AOS_USER_SPACE_BASE, AOS_USER_SPACE_BASE_END, by decide, by decide, by decide⟩

def kernelSpace : VirtualRegion :=
  ⟨AOS_KERNEL_SPACE_BASE, AOS_DRIVER_SPACE_BASE, by decide, by decide, by decide⟩

def driverSpace : VirtualRegion :=
  ⟨AOS_DRIVER_SPACE_BASE, AOS_SENSITIVE_SPACE_BASE, by decide, by decide, by decide⟩

def sensitiveSpace : VirtualRegion :=
  ⟨AOS_SENSITIVE_SPACE_BASE, AOS_SENSITIVE_SPACE_BASE_END, by decide, by decide, by decide⟩

-- Nothing leads to a header that has not been set up yet.
def avmfRegionInit (node base limit : Nat) : Region where
  signature := AVMF_SIGNATURE
  version := AVMF_VERSION
  base := base
  limit := limit
  lists := fun _ => ⟨none, 0, none⟩
  headers := fun _ => .fresh .corrupt ⟨0, 0, 0⟩ false
  allocatedBytes := 0
  freeList := [⟨node, base, limit - base⟩]
  freeCount := 1
  made := 0

-- The loop of avmf_free_list_append: `before` is the list up to and including
-- `prev`, and what it stops at the list from `cur` on. `none` is AOS_FALSE.
def findFreeSlot (range : Range) :
    Nat → List Range → List Range → Option (List Range × List Range)
  | 0, before, rest => some (before, rest)
  | _ + 1, _, [] => none
  | n + 1, before, cur :: rest =>
      if cur.base > UINT64_MAX - cur.size then none
      else if range.base < cur.base + cur.size ∧ cur.base < range.base + range.size then none
      else if range.base < cur.base then some (before, cur :: rest)
      else findFreeSlot range n (before ++ [cur]) rest

def mergePrev (before : List Range) (range : Range) : Option Range :=
  before.getLast?.filter fun prev => prev.base + prev.size = range.base

def mergeNext (range : Range) (rest : List Range) : Option Range :=
  rest.head?.filter fun cur => range.base + range.size = cur.base

def freeListSplice (before : List Range) (range : Range) (rest : List Range) : List Range :=
  match mergePrev before range, mergeNext range rest with
  | some prev, some cur =>
      before.dropLast ++ { prev with size := prev.size + range.size + cur.size } :: rest.tail
  | some prev, none => before.dropLast ++ { prev with size := prev.size + range.size } :: rest
  | none, some cur => before ++ { range with size := range.size + cur.size } :: rest.tail
  | none, none => before ++ range :: rest

-- free_count goes down by one with every range that is merged with the next,
-- also where `range` takes the place of that.
def freeCountSplice (count : Nat) (before : List Range) (range : Range) (rest : List Range) : Nat :=
  match mergePrev before range, mergeNext range rest with
  | some _, none => count
  | none, none => count + 1
  | _, some _ => count - 1

-- `none` is AOS_FALSE, which leaves the list as it was.
def avmfFreeListAppend (r : Region) (range : Range) : Option Region :=
  if range.size = 0 then none
  else if r.Rejected then none
  else if range.base > UINT64_MAX - range.size then none
  else if r.freeList = [] ∨ r.freeCount = 0 then
    some { r with freeList := [range], freeCount := 1 }
  else (findFreeSlot range r.freeCount [] r.freeList).map fun slot => { r with
    freeList := freeListSplice slot.1 range slot.2
    freeCount := freeCountSplice r.freeCount slot.1 range slot.2 }

namespace Region

def modifyHeader (r : Region) (h : Nat) (f : Header → Header) : Region :=
  { r with toHeaderRegion := r.modify h f }

def unlinkHeader (r : Region) (h : Nat) : Region :=
  { r with toHeaderRegion := r.avmfUnlinkHeader h }

def linkHeader (r : Region) (h : Nat) : Bool × Region :=
  let (linked, links) := r.avmfLinkHeader h
  (linked, { r with toHeaderRegion := links })

-- A new header, before it is linked: the one with the number `r.made`.
def setUp (r : Region) (extent : Extent) : Region :=
  { r.modifyHeader r.made fun _ => .fresh .alloc extent true with made := r.made + 1 }

-- `try_continue_next_after_corrupt` in a walk over a list, for a header that is
-- not one of it. It is unlinked unless it is corrupt, and the walk goes on if the
-- next one is of the list.
def passBy (r : Region) (k : ListKind) (c : Nat) : Option Nat × Region :=
  let r' := if (r.headers c).type = .corrupt then r else r.unlinkHeader c
  ((r.headers c).next.filter fun n => (r'.headers n).type = k.type, r')

end Region

-- The allocators of list nodes that a region calls. They return the address
-- of a node, 0 when there is none. They may run any code of the system but
-- cannot reach the calling region, whose lock is held.
structure NodePool (ε σ : Type) where
  avmfAllocIhdr : Exec ε σ Nat
  avmfFreeIhdr : Nat → Exec ε σ Unit
  avmfAllocIrange : Exec ε σ Nat
  avmfFreeIrange : Range → Exec ε σ Unit

-- What a turn of the loop over the cache list does with a header: it goes on
-- with another one, or comes to one that can be used whole or cut.
inductive CacheTurn
  | next (c : Option Nat) (r : Region)
  | whole
  | cut

def cacheTurn (r : Region) (size align minVirt maxVirt c : Nat) : CacheTurn :=
  let x := r.headers c
  if x.type ≠ .cache ∨ ¬ x.Intact then
    let (n, r) := r.passBy .cache c
    .next n r
  else if minVirt > 0 ∧ x.virtAddr < minVirt then .next x.next r
  else if maxVirt > 0 ∧ (x.virtAddr > maxVirt ∨ size > maxVirt - x.virtAddr) then .next x.next r
  else if align = 0 then .next x.next r
  else if x.size = size ∧ x.virtAddr % align = 0 then .whole
  else if x.size > size ∧ x.virtAddr % align = 0 then .cut
  -- A header that does not fit is never left: the loop counts up on it.
  else .next (some c) r

section Alloc

variable {ε σ : Type} (pool : NodePool ε σ)

-- The cut of a cache header `c` that is larger than the request. What remains of
-- it goes to the free list when it is too small to cache.
def splitCache (r : Region) (size node c : Nat) : Exec ε σ (Option Nat × Region) := do
  let hdr := r.made
  let x := r.headers c
  let (linked, r) := (r.setUp ⟨x.virtAddr, x.physAddr, size⟩).linkHeader hdr
  if linked then
    let r := r.modifyHeader c fun x => { x with
      size := x.size - size, virtAddr := x.virtAddr + size, physAddr := x.physAddr + size }
    let x := r.headers c
    if x.size < 0x200 then
      let addr ← pool.avmfAllocIrange
      if addr ≠ 0 then
        match avmfFreeListAppend r ⟨addr, x.virtAddr, x.size⟩ with
        | none => pool.avmfFreeIrange ⟨addr, x.virtAddr, x.size⟩
        | some r =>
            let r := { r with allocatedBytes := r.allocatedBytes - x.size }
            return (some hdr, r.unlinkHeader c)
    return (some hdr, r)
  else
    pool.avmfFreeIhdr node
    return (none, r)

-- The scan of the cache list, `c` being the header of the i-th turn. It takes
-- no more turns than the list counted headers at its start.
def allocFromCache (size align minVirt maxVirt : Nat) :
    Nat → Nat → Option Nat → Region → Exec ε σ (Option Nat × Region)
  | 0, _, _, r => return (none, r)
  | _ + 1, _, none, r => return (none, r)
  | m + 1, i, some c, r =>
      if (r.lists .cache).count ≤ i then return (none, r)
      else
        let n := (r.headers c).next
        match cacheTurn r size align minVirt maxVirt c with
        | .next c r => allocFromCache size align minVirt maxVirt m (i + 1) c r
        | .whole =>
            let r := (r.unlinkHeader c).modifyHeader c fun x => { x with type := .alloc }
            let (linked, r) := r.linkHeader c
            if linked then return (some c, r.modifyHeader c fun x => { x with used := true })
            else allocFromCache size align minVirt maxVirt m (i + 1) n r
        | .cut => do
            let node ← pool.avmfAllocIhdr
            if node = 0 then allocFromCache size align minVirt maxVirt m (i + 1) n r
            else
              let (found, r) ← splitCache pool r size node c
              if found.isSome then return (found, r)
              else allocFromCache size align minVirt maxVirt m (i + 1) n r

-- The base avmf_region_alloc would take in a free range. The addition of the
-- adjustment is the only one of the function that can wrap.
def allocBase (cur : Range) (align minVirt : Nat) : Nat :=
  let base := if cur.base < minVirt then minVirt else cur.base
  if base % align ≠ 0 then (base + (align - base % align)) % 2 ^ 64 else base

-- The checks of the free list loop. A range that fails one of them goes to
-- `next_free`, which stands behind the loop, so only the first range is tried.
def rangeFits (cur : Range) (size align minVirt maxVirt : Nat) : Prop :=
  cur.size ≠ 0 ∧ cur.base ≤ UINT64_MAX - cur.size ∧ align ≠ 0 ∧
    let base := allocBase cur align minVirt
    cur.base ≤ base ∧ base ≤ cur.base + cur.size ∧ size ≤ cur.base + cur.size - base ∧
      ¬ (maxVirt ≠ 0 ∧ (base > maxVirt ∨ size > maxVirt - base))

instance (cur : Range) (size align minVirt maxVirt : Nat) :
    Decidable (rangeFits cur size align minVirt maxVirt) := by
  unfold rangeFits; infer_instance

-- The request has been cut out of the free list: its header is linked, or the
-- range is given back.
def linkNew (r : Region) (size base node : Nat) : Exec ε σ (Option Nat × Region) := do
  let hdr := r.made
  let (linked, r) := (r.setUp ⟨base, 0, size⟩).linkHeader hdr
  if linked then return (some hdr, { r with allocatedBytes := r.allocatedBytes + size })
  else
    let addr ← pool.avmfAllocIrange
    let rollback := avmfFreeListAppend r ⟨addr, base, size⟩
    if addr ≠ 0 ∧ rollback.isNone then pool.avmfFreeIrange ⟨addr, base, size⟩
    pool.avmfFreeIhdr node
    return (none, if addr ≠ 0 then rollback.getD r else r)

-- The four ways to cut the request out of the first free range.
def cutRange (r : Region) (size base node : Nat) (cur : Range) (rest : List Range) :
    Exec ε σ (Option Nat × Region) := do
  let pre := base - cur.base
  let suf := cur.base + cur.size - (base + size)
  if pre = 0 ∧ suf = 0 then
    pool.avmfFreeIrange cur
    linkNew pool { r with freeList := rest, freeCount := r.freeCount - 1 } size base node
  else if pre = 0 then
    linkNew pool { r with freeList := { cur with base := base + size, size := suf } :: rest }
      size base node
  else if suf = 0 then
    linkNew pool { r with freeList := { cur with size := pre } :: rest } size base node
  else
    let addr ← pool.avmfAllocIrange
    if addr = 0 then
      pool.avmfFreeIhdr node
      return (none, r)
    else
      linkNew pool { r with
        freeList := { cur with size := pre } :: ⟨addr, base + size, suf⟩ :: rest
        freeCount := r.freeCount + 1 } size base node

def allocFromFree (r : Region) (size align minVirt maxVirt : Nat) :
    Exec ε σ (Option Nat × Region) :=
  match r.freeList with
  | [] => return (none, r)
  | cur :: rest => do
      if r.freeCount > 0 ∧ rangeFits cur size align minVirt maxVirt then
        let node ← pool.avmfAllocIhdr
        if node = 0 then return (none, r)
        else cutRange pool r size (allocBase cur align minVirt) node cur rest
      else return (none, r)

def avmfRegionAlloc (r : Region) (size align minVirt maxVirt : Nat) :
    Exec ε σ (Option Nat × Region) := do
  if r.Rejected then return (none, r)
  else
    let l := r.lists .cache
    let (found, r) ← allocFromCache pool size align minVirt maxVirt l.count 0 l.list r
    if found.isSome then return (found, r)
    else allocFromFree pool r size align minVirt maxVirt

end Alloc

-- The walk of avmf_region_free over the alloc list for the header of a range,
-- `c` being the header of the i-th turn.
def findToFree (base size : Nat) : Nat → Nat → Option Nat → Region → Option Nat × Region
  | 0, _, _, r => (none, r)
  | _ + 1, _, none, r => (none, r)
  | m + 1, i, some c, r =>
      if (r.lists .alloc).count ≤ i then (none, r)
      else
        let x := r.headers c
        if x.type ≠ .alloc ∨ ¬ x.Intact then
          let (n, r) := r.passBy .alloc c
          findToFree base size m (i + 1) n r
        else if x.virtAddr ≠ base ∨ x.size ≠ size then
          findToFree base size m (i + 1) x.next r
        else (some c, r)

section Free

variable {ε σ : Type} (pool : NodePool ε σ)

def addToFreeList (r : Region) (c : Nat) : Exec ε σ Region := do
  let x := r.headers c
  let addr ← pool.avmfAllocIrange
  if addr = 0 then return r
  else
    match avmfFreeListAppend r ⟨addr, x.virtAddr, x.size⟩ with
    | none =>
        pool.avmfFreeIrange ⟨addr, x.virtAddr, x.size⟩
        return r
    | some r =>
        let r := (r.unlinkHeader c).modifyHeader c fun x => { x with used := false }
        return { r with allocatedBytes := r.allocatedBytes - x.size }

-- The header that the walk has found goes to the cache list.
def freeHeader (r : Region) (c : Nat) : Exec ε σ Region :=
  if (r.headers c).size > 0x200 then
    let r := (r.unlinkHeader c).modifyHeader c fun x => { x with type := .cache }
    let (linked, r) := r.linkHeader c
    if linked then return r.modifyHeader c fun x => { x with type := .cache, used := false }
    else addToFreeList pool r c
  else addToFreeList pool r c

-- The checks avmf_region_free makes before it takes the lock.
def freeRejected (r : Region) (base size : Nat) : Prop :=
  r.Rejected ∨ align4k size = 0 ∨ base > UINT64_MAX - align4k size ∨
    (r.lists .alloc).count = 0 ∨ (r.lists .alloc).list = none

instance (r : Region) (base size : Nat) : Decidable (freeRejected r base size) := by
  unfold freeRejected; infer_instance

def avmfRegionFree (r : Region) (base size : Nat) : Exec ε σ Region :=
  if freeRejected r base size then return r
  else
    let l := r.lists .alloc
    let (found, r) := findToFree base (align4k size) l.count 0 l.list r
    match found with
    | none => return r
    | some c => freeHeader pool r c

end Free

end AosKernel.Mm
