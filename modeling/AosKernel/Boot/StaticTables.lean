import AosKernel.Boot.MemoryMap
import AosKernel.Mm.PageOwnership
import Mathlib.Data.Finset.Card
import Mathlib.Order.Interval.Finset.Nat

namespace AosKernel.Boot

open Verif Verif.Exec Mm

def AVMF_STATIC_SIZE : Nat := 1024
def AVMF_STATIC_RANGE_SIZE : Nat := 2048

-- The range that pager_init collects from an entry.
def collects (privilaged : Nat) (e : SmmapEntry) : Option PhysRange :=
  if e.size = 0 ∨ e.type ≠ .free then none
  else if e.physStart < privilaged then
    if e.size ≤ privilaged - e.physStart then none else some ⟨privilaged, e.limit⟩
  else some ⟨e.physStart, e.limit⟩

def collected (privilaged : Nat) (entries : List SmmapEntry) : List PhysRange :=
  entries.filterMap (collects privilaged)

-- avmf_init takes the number of ranges as a uint8_t.
def physBounds (ranges : List PhysRange) : List (Nat × Nat) :=
  (ranges.take (ranges.length % 2 ^ 8)).map fun r => (r.base, r.limit)

theorem initEntry_eq (privilaged : Nat) (ranges : List PhysRange) (e : SmmapEntry) :
    initEntry privilaged ranges e =
      match collects privilaged e with
      | none => some ranges
      | some r => if ranges.length < 256 then some (ranges ++ [r]) else none := by
  unfold initEntry collects
  by_cases hsize : e.size = 0
  · simp [hsize]
  · by_cases htype : e.type = .free
    · by_cases hlow : e.physStart < privilaged
      · by_cases hsmall : e.size ≤ privilaged - e.physStart <;> simp [hsize, htype, hlow, hsmall]
      · simp [hsize, htype, hlow]
    · simp [hsize, htype]

-- The arrays of pager_init hold what is collected as long as there are slots.
theorem pagerRanges_eq (privilaged : Nat) (entries : List SmmapEntry) :
    pagerRanges privilaged entries =
      if (collected privilaged entries).length ≤ 256 then some (collected privilaged entries)
      else none := by
  suffices h : ∀ ranges : List PhysRange, ranges.length ≤ 256 →
      entries.foldlM (initEntry privilaged) ranges =
        if ranges.length + (collected privilaged entries).length ≤ 256 then
          some (ranges ++ collected privilaged entries)
        else none by
    simpa [pagerRanges] using h [] (by decide)
  induction entries with
  | nil =>
      intro ranges hroom
      simp [collected, hroom]
  | cons e entries ih =>
      intro ranges hroom
      rw [List.foldlM_cons, initEntry_eq]
      unfold collected
      rw [List.filterMap_cons]
      cases hcollects : collects privilaged e with
      | none => exact ih ranges hroom
      | some r =>
          dsimp only
          split
          · have hnext := ih (ranges ++ [r]) (by simp; omega)
            simp only [List.length_append, List.length_singleton, List.append_assoc,
              List.singleton_append] at hnext
            rw [Option.bind_eq_bind, Option.bind_some, hnext]
            simp only [collected, List.length_cons, Nat.add_assoc, Nat.add_comm 1]
          · rw [if_neg (by rw [List.length_cons]; omega)]
            rfl

-- A region whose pages all have a bit in avmf_bitmap.
def Covered (base limit : Nat) : Prop :=
  ∀ page, base / PAGE_SIZE ≤ page → page < limit / PAGE_SIZE → page / 8 < BITMAP_SIZE

-- What every allocator call finds: physical regions inside their table, whose
-- pages the bitmap covers.
structure TablesInside (a : Avmf) : Prop where
  regions : (bounds a).length ≤ AVMF_STATIC_SIZE
  covered : ∀ b ∈ bounds a, Covered b.1 b.2

theorem markedTests_mem {bm : Bitmap} {first n page : Nat}
    (h : page ∈ markedTests bm first n) : first ≤ page ∧ page < first + n := by
  induction n generalizing first with
  | zero => cases h
  | succ n ih =>
      unfold markedTests at h
      rcases List.mem_cons.mp h with rfl | h
      · omega
      · split at h
        · have := ih h
          omega
        · cases h

theorem firstRunTests_mem {bm : Bitmap} {needed first consecutive n page : Nat}
    (h : page ∈ firstRunTests bm needed first consecutive n) :
    first ≤ page ∧ page < first + n := by
  induction n generalizing first consecutive with
  | zero => cases h
  | succ n ih =>
      unfold firstRunTests at h
      rcases List.mem_cons.mp h with rfl | h
      · omega
      · split at h
        · have := ih h
          omega
        · split at h
          · cases h
          · have := ih h
            omega

-- Tests that stay between the pages of their regions stay in the bitmap.
theorem TablesInside.tests {a : Avmf} (h : TablesInside a) {find : Region → Option Nat}
    {tests : Region → List Nat}
    (htests : ∀ r, ∀ page ∈ tests r, r.startPage ≤ page ∧ page < r.endPage) :
    ∀ page ∈ physRegionTests find tests a.physicalRegions, page / 8 < BITMAP_SIZE := by
  intro page hpage
  obtain ⟨r, hr, hmem⟩ := physRegionTests_mem hpage
  obtain ⟨hstart, hend⟩ := htests r page hmem
  exact h.covered _ (List.mem_map_of_mem hr) page hstart hend

theorem TablesInside.congr {a b : Avmf} (h : TablesInside a) (heq : bounds b = bounds a) :
    TablesInside b :=
  ⟨heq ▸ h.regions, heq ▸ h.covered⟩

section Calls

variable {π : Type}

-- No access leaves a table.
def Inside (s : MmState π) : Prop := TablesInside s.avmf

def NotOutside (e : Halt) : Prop := e ≠ .outOfBounds

theorem lock_inside (l : Lock) :
    Maintains Inside NotOutside (spinLock l : Exec Halt (MmState π) Unit) :=
  fun s hs => (sat_spinLock l s _ _).mpr ⟨fun _ => nofun, fun _ => hs⟩

theorem unlock_inside (l : Lock) :
    Maintains Inside NotOutside (spinUnlock l : Exec Halt (MmState π) Unit) :=
  .modify fun _ hs => hs

theorem store_inside {f : Avmf → Avmf} (hf : ∀ a, (f a).physicalRegions = a.physicalRegions) :
    Maintains Inside NotOutside (modifyAvmf f : Exec Halt (MmState π) Unit) :=
  .modify fun s hs => TablesInside.congr hs (by rw [bounds, hf]; rfl)

theorem adjust_inside (i : Nat) (f : Nat → Nat) :
    Maintains Inside NotOutside
      (modifyAvmf fun a => a.adjustAllocated i f : Exec Halt (MmState π) Unit) :=
  .modify fun s hs => TablesInside.congr hs (bounds_adjustAllocated s.avmf i f)

-- A scan of the physical regions, and what comes after it.
theorem scan_inside {α : Type} {s : MmState π} (hs : Inside s) {find : Region → Option Nat}
    {tests : Region → List Nat}
    (htests : ∀ r, ∀ page ∈ tests r, r.startPage ≤ page ∧ page < r.endPage)
    {m : Exec Halt (MmState π) α} (hm : Maintains Inside NotOutside m) :
    Sat (do testPages (physRegionTests find tests s.avmf.physicalRegions); m) s
      (fun _ t => Inside t) NotOutside := by
  rw [sat_bind, sat_testPages]
  exact ⟨fun _ => hm s hs, fun hout => absurd (TablesInside.tests hs htests) hout⟩

-- The bitmap is written, and then what the region counts.
theorem account_inside {α : Type} {f : Avmf → Avmf}
    (hf : ∀ a, (f a).physicalRegions = a.physicalRegions) (i : Nat) (count : Nat → Nat)
    {m : Exec Halt (MmState π) α} (hm : Maintains Inside NotOutside m) :
    Maintains Inside NotOutside (do
      modifyAvmf f
      spinUnlock .avmf
      spinLock (.physRegion i)
      modifyAvmf fun a => a.adjustAllocated i count
      m) :=
  .bind (store_inside hf) fun _ => .bind (unlock_inside _) fun _ => .bind (lock_inside _) fun _ =>
    .bind (adjust_inside _ _) fun _ => hm

theorem avmfAllocPhysPage_inside :
    Maintains Inside NotOutside (avmfAllocPhysPage : Exec Halt (MmState π) Nat) := by
  unfold avmfAllocPhysPage
  refine .bind (lock_inside _) fun _ => .get_bind fun s hs => scan_inside hs (fun r page hpage => ?_) ?_
  · have := markedTests_mem hpage
    unfold Region.pageCount at this
    omega
  · split
    · refine account_inside ?_ _ _ (.bind (unlock_inside _) fun _ => .pure _)
      exact fun _ => rfl
    · exact .bind (unlock_inside _) fun _ => .pure _

theorem avmfFreePhysPage_inside (phys : Nat) :
    Maintains Inside NotOutside (avmfFreePhysPage phys : Exec Halt (MmState π) Unit) := by
  unfold avmfFreePhysPage
  refine .bind (lock_inside _) fun _ => .get_bind fun s hs => ?_
  split
  · rename_i i _ hfind
    obtain ⟨r, hr, hpage⟩ := findPhysRegion_some hfind
    have hinside : ∀ page ∈ [phys / PAGE_SIZE], page / 8 < BITMAP_SIZE := by
      intro page hmem
      obtain rfl := List.mem_singleton.mp hmem
      split at hpage
      · rename_i hin
        exact hs.covered _ (List.mem_map_of_mem hr) _ hin.1 hin.2
      · cases hpage
    simp only [sat_bind, sat_testPages]
    refine ⟨fun _ => ?_, fun hout => absurd hinside hout⟩
    refine Maintains.ite (.bind (store_inside fun _ => ?_) fun _ => .bind (lock_inside _) fun _ =>
      .bind (adjust_inside _ _) fun _ => .bind (unlock_inside _) fun _ => unlock_inside _)
      (unlock_inside _) s hs
    rfl
  · exact unlock_inside _ s hs

theorem avmfAllocPhysContiguous_inside (size : Nat) :
    Maintains Inside NotOutside (avmfAllocPhysContiguous size : Exec Halt (MmState π) Nat) := by
  unfold avmfAllocPhysContiguous
  refine .ite (.pure _) (.bind (lock_inside _) fun _ => .get_bind fun s hs =>
    scan_inside hs (fun r page hpage => ?_) ?_)
  · have := firstRunTests_mem hpage
    unfold Region.pageCount at this
    omega
  · split
    · refine account_inside ?_ _ _ (.bind (unlock_inside _) fun _ => .pure _)
      exact fun _ => rfl
    · exact .bind (unlock_inside _) fun _ => .pure _

theorem avmfFreePhysContiguous_inside (phys size : Nat) :
    Maintains Inside NotOutside
      (avmfFreePhysContiguous phys size : Exec Halt (MmState π) Unit) := by
  unfold avmfFreePhysContiguous
  refine .ite (.pure _) (.bind (lock_inside _) fun _ => .get_bind fun s hs =>
    scan_inside hs (fun r page hpage => ?_) ?_)
  · unfold holdsMarkedTests at hpage
    split at hpage
    · have := markedTests_mem hpage
      omega
    · cases hpage
  · split
    · refine account_inside ?_ _ _ (unlock_inside _)
      exact fun _ => rfl
    · exact unlock_inside _

theorem avmfSteps_inside : AvmfSteps (Inside (π := π)) NotOutside where
  lock := lock_inside
  unlock l _ := unlock_inside l
  request _ := .modify fun _ hs => hs
  store _ hphys _ := store_inside hphys
  allocPages := avmfAllocPhysContiguous_inside

theorem nodePool_inside {sv : Services π} (h : sv.Maintains Inside NotOutside) :
    (nodePool sv).Maintains Inside NotOutside :=
  nodePool_maintains (avmfSteps_inside.nodes avmfAllocPhysPage_inside avmfFreePhysPage_inside)
    h.pagerMap

-- The loop of avmf_free over pages that the bitmap covers.
theorem releasePages_inside {sv : Services π} (h : sv.Maintains Inside NotOutside) (n : Nat)
    {page : Nat} (virt : Nat) (hpage : page + n ≤ BITMAP_SIZE * 8) :
    Maintains Inside NotOutside (releasePages sv page virt n) := by
  induction n generalizing page virt with
  | zero => exact .pure _
  | succ n ih =>
      unfold releasePages
      rw [if_neg (by omega)]
      refine .bind (store_inside fun _ => ?_) fun _ => .bind (h.pagerUnmap _) fun _ =>
        ih _ (by omega)
      rfl

-- The pages of the header that avmf_free finds end inside the bitmap.
def FreeInside (a : Avmf) (virt : Nat) : Prop :=
  ∀ fuel i h hdr, freedHeader a fuel virt = some (i, h, hdr) →
    hdr.physAddr / PAGE_SIZE + hdr.size / PAGE_SIZE ≤ BITMAP_SIZE * 8

theorem avmfFree_inside {sv : Services π} (h : sv.Maintains Inside NotOutside) {fuel virt : Nat}
    {s : MmState π} (hs : Inside s) (hfree : FreeInside s.avmf virt) :
    Sat (avmfFree sv fuel virt) s (fun _ t => Inside t) NotOutside := by
  unfold avmfFree
  refine Sat.ite (fun _ => hs) fun hne => ?_
  rw [sat_bind, sat_get]
  split
  · exact hs
  rename_i i hfind
  split
  · exact hs
  rename_i r hr
  split
  · exact nofun
  · exact hs
  · rename_i a hsearch
    have hpages := hfree fuel i a _ (freedHeader_eq_some.mpr ⟨hne, hfind, r, hr, hsearch, rfl⟩)
    exact Maintains.bind (lock_inside _) (fun _ =>
      .bind (releasePages_inside h _ _ hpages) fun _ => .bind (unlock_inside _) fun _ =>
      regionFreeAt_maintains avmfSteps_inside (nodePool_inside h) _ _ _) s hs

end Calls

theorem pagerParts_inside : PagerParts Inside NotOutside where
  lock := lock_inside _
  unlock := unlock_inside _
  write _ _ _ := .modify fun _ hs => hs
  link _ _ _ := .modify fun _ hs => hs
  null _ _ := nofun

theorem allocPageTable_inside {sv : Services Pager} (h : sv.Maintains Inside NotOutside) :
    Maintains Inside NotOutside (allocPageTable sv) := by
  have hwrite (f : Pager → Pager) : Maintains Inside NotOutside (modifyPager f) :=
    .modify fun _ hs => hs
  unfold allocPageTable takeTablePage
  refine .get_bind fun s hs => Maintains.ite ?_ (.ite (.pure _) ?_) s hs
  · refine .bind (.bind (avmfAllocPhysContiguous_inside _) fun phys => ?_) fun phys => ?_
    · exact .ite (.bind (hwrite _) fun _ => .pure _) (.pure _)
    · exact .bind (avmfAllocVirt_maintains avmfSteps_inside (nodePool_inside h) _ _) fun virt =>
        .ite (.pure _) (.bind (hwrite _) fun _ => .pure _)
  · exact .bind (hwrite _) fun _ => .ite (.pure _) (.bind (hwrite _) fun _ =>
      .bind (hwrite _) fun _ => .pure _)

theorem pagerServices_inside (depth : Nat) :
    (pagerServices depth).Maintains Inside NotOutside :=
  pagerServices_maintains pagerParts_inside nofun (fun _ => allocPageTable_inside) depth

-- A call that leaves a static table.
inductive Leaves (s : MemoryUse) : MemoryCall → Prop
  | alloc {depth size type flags} :
      Stops (avmfAlloc (pagerServices depth) size type flags) s.mm .outOfBounds →
      Leaves s (.alloc size type flags)
  | allocVirt {depth size type} :
      Stops (avmfAllocVirt (pagerServices depth) size type) s.mm .outOfBounds →
      Leaves s (.allocVirt size type)
  | free {depth fuel virt} :
      Stops (avmfFree (pagerServices depth) fuel virt) s.mm .outOfBounds → Leaves s (.free virt)
  | allocPhys {size} :
      Stops (avmfAllocPhysContiguous size) s.mm .outOfBounds → Leaves s (.allocPhys size)
  | freePhys {phys size} :
      Stops (avmfFreePhysContiguous phys size) s.mm .outOfBounds → Leaves s (.freePhys phys size)

-- What a call is admitted under: only avmf_free asks for something.
def CallInside (s : MemoryUse) : MemoryCall → Prop
  | .free virt => FreeInside s.mm.avmf virt
  | _ => True

section Run

variable {s t : MemoryUse} {call : MemoryCall} (hs : Inside s.mm)

include hs

theorem MemoryStep.inside (hok : CallInside s call) (h : MemoryStep s call t) : Inside t.mm := by
  have hsv (depth : Nat) := pagerServices_inside depth
  cases h with
  | alloc h => exact (avmfAlloc_maintains avmfSteps_inside (nodePool_inside (hsv _))
      (hsv _).pagerMapRange _ _ _ _ hs).of_returns h
  | allocVirt h => exact (avmfAllocVirt_maintains avmfSteps_inside (nodePool_inside (hsv _))
      _ _ _ hs).of_returns h
  | free _ h => exact (avmfFree_inside (hsv _) hs hok).of_returns h
  | allocPhys h => exact (avmfAllocPhysContiguous_inside _ _ hs).of_returns h
  | freePhys _ h => exact (avmfFreePhysContiguous_inside _ _ _ hs).of_returns h

theorem Inside.not_leaves (hok : CallInside s call) : ¬ Leaves s call := by
  have hsv (depth : Nat) := pagerServices_inside depth
  intro h
  have hnot : NotOutside .outOfBounds := by
    cases h with
    | alloc h => exact (avmfAlloc_maintains avmfSteps_inside (nodePool_inside (hsv _))
      (hsv _).pagerMapRange _ _ _ _ hs).of_stops h
    | allocVirt h => exact (avmfAllocVirt_maintains avmfSteps_inside (nodePool_inside (hsv _))
      _ _ _ hs).of_stops h
    | free h => exact (avmfFree_inside (hsv _) hs hok).of_stops h
    | allocPhys h => exact (avmfAllocPhysContiguous_inside _ _ hs).of_stops h
    | freePhys h => exact (avmfFreePhysContiguous_inside _ _ _ hs).of_stops h
  exact hnot rfl

end Run

-- pager_init keeps to its arrays and drops no range, and no call of any run
-- after it leaves a table. Where `ok` says so, a call is not made.
structure TablesKept (ok : MemoryUse → MemoryCall → Prop) (privilaged : Nat)
    (entries : List SmmapEntry) (pager : Pager) : Prop where
  collected : pagerRanges privilaged entries = some (collected privilaged entries)
  regions : bounds (avmfInit (physBounds (Boot.collected privilaged entries))) =
    (Boot.collected privilaged entries).map fun r => (r.base, r.limit)
  nodes : ∀ r ∈ (avmfInit (physBounds (Boot.collected privilaged entries))).physicalRegions ++
      (avmfInit (physBounds (Boot.collected privilaged entries))).regions,
    ∀ range ∈ r.freeList, range.addr < AVMF_STATIC_RANGE_SIZE
  inside : ∀ past s, Trace MemoryStep
      (initialUse (physBounds (Boot.collected privilaged entries)) pager) past s →
    Trace.Admits ok past →
      s.mm.avmf.physicalRegions.length ≤ AVMF_STATIC_SIZE ∧ ∀ call, ok s call → ¬ Leaves s call

theorem physBounds_length_lt (ranges : List PhysRange) : (physBounds ranges).length < 256 := by
  rw [physBounds, List.length_map, List.length_take]
  omega

theorem physBounds_eq {ranges : List PhysRange} (h : ranges.length < 256) :
    physBounds ranges = ranges.map fun r => (r.base, r.limit) := by
  have hmod : ranges.length % 2 ^ 8 = ranges.length := Nat.mod_eq_of_lt h
  rw [physBounds, hmod, List.take_length]

-- There are nodes for 255 physical regions and the four virtual ones.
theorem avmfInit_nodes {bounds : List (Nat × Nat)} (h : bounds.length < 256) :
    ∀ r ∈ (avmfInit bounds).physicalRegions ++ (avmfInit bounds).regions,
      ∀ range ∈ r.freeList, range.addr < AVMF_STATIC_RANGE_SIZE := by
  unfold AVMF_STATIC_RANGE_SIZE
  intro r hr range hrange
  rcases List.mem_append.mp hr with hr | hr
  · obtain ⟨i, hi, rfl⟩ := List.mem_mapIdx.mp hr
    simp only [avmfRegionInit, List.mem_singleton] at hrange
    subst hrange
    dsimp only
    omega
  · obtain ⟨i, hi, rfl⟩ := List.mem_mapIdx.mp hr
    simp only [avmfRegionInit, List.mem_singleton] at hrange
    subst hrange
    simp only [List.length_cons, List.length_nil] at hi
    dsimp only
    omega

section Exhaust

-- A scan that finds nothing has tested every page.
theorem firstRunTests_of_none {bm : Bitmap} {needed page consecutive firstPage n q : Nat}
    (h : firstRun bm needed page consecutive firstPage n = none) (hle : page ≤ q)
    (hlt : q < page + n) : q ∈ firstRunTests bm needed page consecutive n := by
  induction n generalizing page consecutive firstPage with
  | zero => omega
  | succ n ih =>
      unfold firstRun at h
      unfold firstRunTests
      by_cases heq : q = page
      · exact heq ▸ List.mem_cons_self
      · refine List.mem_cons_of_mem _ ?_
        split at h
        · rename_i hset
          rw [if_pos hset]
          exact ih h (by omega) (by omega)
        · rename_i hclear
          rw [if_neg hclear]
          dsimp only at h
          split at h
          · cases h
          · rename_i hmore
            rw [if_neg hmore]
            exact ih h (by omega) (by omega)

-- A single page that is found was tested and is free.
theorem firstRunTests_of_some {bm : Bitmap} {page firstPage n found : Nat}
    (h : firstRun bm 1 page 0 firstPage n = some found) :
    found ∈ firstRunTests bm 1 page 0 n ∧ bitmapTest bm found = false := by
  induction n generalizing page firstPage with
  | zero => cases h
  | succ n ih =>
      unfold firstRun at h
      unfold firstRunTests
      split at h
      · rename_i hset
        rw [if_pos hset]
        exact ⟨List.mem_cons_of_mem _ (ih h).1, (ih h).2⟩
      · rename_i hclear
        cases h
        exact ⟨List.mem_cons_self, by simpa using hclear⟩

variable {find : Region → Option Nat} {tests : Region → List Nat} {list : List Region}

theorem physRegionTests_of_none {i : Nat} (h : findPhysRegion find i list = none) {r : Region}
    (hr : r ∈ list) (hvalid : ¬ r.Rejected) :
    find r = none ∧ ∀ q ∈ tests r, q ∈ physRegionTests find tests list := by
  induction list generalizing i with
  | nil => cases hr
  | cons c rest ih =>
      unfold findPhysRegion at h
      unfold physRegionTests
      split at h
      · rename_i hinvalid
        rw [if_pos hinvalid]
        rcases List.mem_cons.mp hr with rfl | hr
        · exact absurd hinvalid hvalid
        · exact ih h hr
      · rename_i hnot
        rw [if_neg hnot]
        split at h
        · cases h
        · rename_i hnone
          simp only [hnone, Option.isSome_none, Bool.false_eq_true, if_false]
          rcases List.mem_cons.mp hr with rfl | hr
          · exact ⟨hnone, fun q hq => List.mem_append_left _ hq⟩
          · exact ⟨(ih h hr).1, fun q hq => List.mem_append_right _ ((ih h hr).2 q hq)⟩

theorem physRegionTests_of_some {i j found : Nat}
    (h : findPhysRegion find i list = some (j, found)) :
    ∃ r, find r = some found ∧ ∀ q ∈ tests r, q ∈ physRegionTests find tests list := by
  induction list generalizing i with
  | nil => cases h
  | cons c rest ih =>
      unfold findPhysRegion at h
      unfold physRegionTests
      split at h
      · rename_i hinvalid
        rw [if_pos hinvalid]
        exact ih h
      · rename_i hnot
        rw [if_neg hnot]
        split at h
        · rename_i hfound
          cases h
          exact ⟨c, hfound, fun q hq => List.mem_append_left _ hq⟩
        · rename_i hnone
          simp only [hnone, Option.isSome_none, Bool.false_eq_true, if_false]
          obtain ⟨r, hr, htests⟩ := ih h
          exact ⟨r, hr, fun q hq => List.mem_append_right _ (htests q hq)⟩

def freePages (a : Avmf) : Finset Nat :=
  (Finset.range (BITMAP_SIZE * 8)).filter fun page => a.marked page = false

-- What the calls look at first in a physical region, and do not change.
def physHeaders (a : Avmf) : List RegionHeader := a.physicalRegions.map fun r => r.toRegionHeader

theorem physHeaders_adjustAllocated (a : Avmf) (i : Nat) (f : Nat → Nat) :
    physHeaders (a.adjustAllocated i f) = physHeaders a := by
  apply List.ext_getElem
  · simp [physHeaders, Avmf.adjustAllocated]
  · intro j h₁ h₂
    simp only [physHeaders, Avmf.adjustAllocated, List.getElem_map, List.getElem_modify]
    split <;> rfl

theorem mem_physHeaders_avmfInit {phys : List (Nat × Nat)} {b : Nat × Nat} (hb : b ∈ phys) :
    ⟨AVMF_SIGNATURE, AVMF_VERSION, b.1, b.2⟩ ∈ physHeaders (avmfInit phys) := by
  obtain ⟨i, hi, rfl⟩ := List.getElem_of_mem hb
  exact List.mem_map.mpr ⟨_, List.mem_mapIdx.mpr ⟨i, hi, rfl⟩, rfl⟩

-- Taking one page where some region has pages beyond the bitmap: it marks one
-- more page of the bitmap, or leaves the bitmap.
theorem takePage_spec {π : Type} {s : MmState π} {base limit : Nat} (hheld : s.held = [])
    (hb : ⟨AVMF_SIGNATURE, AVMF_VERSION, base, limit⟩ ∈ physHeaders s.avmf)
    (hbeyond : ¬ Covered base limit) :
    Sat (avmfAllocPhysContiguous PAGE_SIZE) s (fun _ t => t.held = [] ∧
      physHeaders t.avmf = physHeaders s.avmf ∧ (freePages t.avmf).card < (freePages s.avmf).card)
      (· = .outOfBounds) := by
  have hone : align4k PAGE_SIZE / PAGE_SIZE = 1 := by decide
  unfold avmfAllocPhysContiguous
  rw [if_neg (by decide), hone]
  simp only [sat_bind, sat_spinLock, sat_get, sat_testPages, hheld, List.not_mem_nil, false_imp_iff,
    not_false_eq_true, true_imp_iff, true_and]
  refine ⟨fun hinside => ?_, fun _ => trivial⟩
  split
  · rename_i i first hfind
    obtain ⟨r, hrun, htests⟩ := physRegionTests_of_some hfind
    obtain ⟨htested, hfree⟩ := firstRunTests_of_some hrun
    have hfirst := hinside first (htests first htested)
    simp only [sat_bind, sat_modifyAvmf, sat_spinUnlock, sat_spinLock, sat_pure,
      List.erase_cons_head, List.not_mem_nil, false_imp_iff, not_false_eq_true, true_imp_iff,
      true_and, physHeaders_adjustAllocated]
    refine ⟨rfl, Finset.card_lt_card (Finset.ssubset_iff_of_subset (fun page hpage => ?_) |>.mpr
      ⟨first, ?_, ?_⟩)⟩
    · obtain ⟨hrange, hmark⟩ := Finset.mem_filter.mp hpage
      rw [adjustAllocated_marked, Avmf.marked, setPages, setPages, bitmapTest_set,
        Bool.or_eq_false_iff] at hmark
      exact Finset.mem_filter.mpr ⟨hrange, hmark.2⟩
    · exact Finset.mem_filter.mpr ⟨Finset.mem_range.mpr (by omega), hfree⟩
    · intro hmem
      have hmark := (Finset.mem_filter.mp hmem).2
      rw [adjustAllocated_marked, Avmf.marked, setPages, setPages, bitmapTest_set] at hmark
      simp at hmark
  · rename_i hnone
    exfalso
    obtain ⟨r, hr, heq⟩ := List.mem_map.mp hb
    have hbase : r.base = base := congrArg RegionHeader.base heq
    have hlimit : r.limit = limit := congrArg RegionHeader.limit heq
    refine hbeyond fun page hfrom hto => ?_
    have hstart : r.startPage ≤ page := by rwa [Region.startPage, hbase]
    have hend : page < r.endPage := by rwa [Region.endPage, hlimit]
    have hvalid : ¬ r.Rejected := by
      have hsignature : r.signature = AVMF_SIGNATURE := congrArg RegionHeader.signature heq
      have hversion : r.version = AVMF_VERSION := congrArg RegionHeader.version heq
      unfold RegionHeader.Rejected
      unfold Region.startPage PAGE_SIZE at hstart
      unfold Region.endPage PAGE_SIZE at hend
      omega
    obtain ⟨hrun, htests⟩ := physRegionTests_of_none hnone hr hvalid
    have hpages : page < r.startPage + r.pageCount := by
      unfold Region.pageCount
      omega
    exact hinside page (htests page (firstRunTests_of_none hrun hstart hpages))

-- Memory with pages beyond the bitmap can be used up to there.
theorem exists_leaves {start s : MemoryUse} {past : List (MemoryUse × MemoryCall)}
    {base limit : Nat} (h : Trace MemoryStep start past s) (hok : Trace.Admits CallInside past)
    (hheld : s.mm.held = [])
    (hb : ⟨AVMF_SIGNATURE, AVMF_VERSION, base, limit⟩ ∈ physHeaders s.mm.avmf)
    (hbeyond : ¬ Covered base limit) :
    ∃ past' s', Trace MemoryStep start past' s' ∧ Trace.Admits CallInside past' ∧
      Leaves s' (.allocPhys PAGE_SIZE) := by
  induction hn : (freePages s.mm.avmf).card using Nat.strong_induction_on generalizing s past with
  | _ n ih =>
      rcases (takePage_spec hheld hb hbeyond).returns_or_stops with
        ⟨phys, t, hreturns, hheld', hheaders, hless⟩ | ⟨e, hstops, rfl⟩
      · have hlast : CallInside s (.allocPhys PAGE_SIZE) := trivial
        exact ih _ (hn ▸ hless) (h.snoc (.allocPhys hreturns))
          (Trace.admits_snoc.mpr ⟨hok, hlast⟩) hheld' (hheaders ▸ hb) rfl
      · exact ⟨past, s, h, hok, .allocPhys hstops⟩

end Exhaust

-- No table is left and no range dropped, in any run with the frees described,
-- exactly if fewer than 256 ranges are collected and their pages end with the
-- bitmap.
theorem tables_kept_iff (privilaged : Nat) (entries : List SmmapEntry) (pager : Pager) :
    TablesKept CallInside privilaged entries pager ↔
      (collected privilaged entries).length < 256 ∧
        ∀ r ∈ collected privilaged entries, Covered r.base r.limit := by
  constructor
  · intro h
    have hlength : (collected privilaged entries).length < 256 := by
      have hregions := congrArg List.length h.regions
      rw [bounds_avmfInit, List.length_map] at hregions
      exact hregions ▸ physBounds_length_lt _
    refine ⟨hlength, fun r hr => ?_⟩
    by_contra hbeyond
    have hb : (r.base, r.limit) ∈ physBounds (collected privilaged entries) := by
      rw [physBounds_eq hlength]
      exact List.mem_map_of_mem hr
    let start := initialUse (physBounds (collected privilaged entries)) pager
    obtain ⟨past, s, hrun, hok, hleaves⟩ := @exists_leaves start _ _ _ _ .nil
      Trace.admits_nil rfl (mem_physHeaders_avmfInit hb) hbeyond
    exact (h.inside past s hrun hok).2 (.allocPhys PAGE_SIZE) trivial hleaves
  · rintro ⟨hlength, hcovered⟩
    refine ⟨?_, ?_, avmfInit_nodes (physBounds_length_lt _), fun past s hrun hok => ?_⟩
    · rw [pagerRanges_eq, if_pos (by omega)]
    · rw [bounds_avmfInit, physBounds_eq hlength]
    · have hstart : Inside (initialUse (physBounds (collected privilaged entries)) pager).mm := by
        refine ⟨?_, fun b hb => ?_⟩
        · rw [initialUse, bounds_avmfInit]
          exact (physBounds_length_lt _).le.trans (by decide)
        · rw [initialUse, bounds_avmfInit, physBounds_eq hlength] at hb
          obtain ⟨r, hr, rfl⟩ := List.mem_map.mp hb
          exact hcovered r hr
      have hinside := hrun.invariant_of_admits (I := fun s => Inside s.mm) hstart
        (fun _ _ _ hs hok hstep => MemoryStep.inside hs hok hstep) hok
      refine ⟨?_, fun call hcall => Inside.not_leaves hinside hcall⟩
      have hregions := hinside.regions
      rwa [bounds, List.length_map] at hregions

-- A machine whose free memory starts at 4 GiB.
def highMemory : List SmmapEntry := [⟨.free, 0x100000000, 0, 0x100000⟩]

-- The first allocation of a page looks behind the bitmap.
theorem tables_kept_fails :
    ¬ TablesKept (fun _ _ => True) 0x2000000 highMemory freshMachine.rest := by
  intro h
  have hstops : Stops (avmfAllocPhysContiguous PAGE_SIZE)
      (initialUse (physBounds (collected 0x2000000 highMemory)) freshMachine.rest).mm
      .outOfBounds := by
    rfl
  exact (h.inside [] _ .nil Trace.admits_nil).2 _ trivial (.allocPhys hstops)

end AosKernel.Boot
