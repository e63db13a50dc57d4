import AosKernel.Lib.Trace
import AosKernel.Mm.AllocationRelease
import AosKernel.Mm.PageOwnership

namespace AosKernel.Mm

open Verif Verif.Exec Verif.Span Region

inductive KernelCall
  | alloc (size : Nat) (type : MemoryAllocType) (flags : BitVec 32)
  | allocVirt (size : Nat) (type : MemoryAllocType)
  | free (x : Allocation)
  | allocPhys (size : Nat)
  | freePhys (phys size : Nat)
  | map (virt phys : Nat) (flags : BitVec 64)
  | mapRange (virt phys size : Nat) (flags : BitVec 64)
  | unmap (virt : Nat)

-- A call that returns. Callers give back only what they were given, and only
-- once; whoever likes maps and unmaps pages.
inductive KernelStep : KernelUse → KernelCall → KernelUse → Prop
  | alloc {s mm depth size type flags virt phys} :
      Returns (avmfAlloc (pagerServices depth) size type flags) s.mm (virt, phys) mm →
      KernelStep s (.alloc size type flags) { s with
        mm := mm, live := if virt = 0 then s.live else ⟨virt, some phys, align4k size⟩ :: s.live }
  | allocVirt {s mm depth size type virt} :
      Returns (avmfAllocVirt (pagerServices depth) size type) s.mm virt mm →
      KernelStep s (.allocVirt size type) { s with
        mm := mm, live := if virt = 0 then s.live else ⟨virt, none, align4k size⟩ :: s.live }
  | free {s mm depth fuel x} : x ∈ s.live →
      Returns (avmfFree (pagerServices depth) fuel x.virt) s.mm () mm →
      KernelStep s (.free x) { s with mm := mm, live := s.live.erase x }
  | allocPhys {s mm size phys} :
      Returns (avmfAllocPhysContiguous size) s.mm phys mm →
      KernelStep s (.allocPhys size)
        { s with mm := mm, lent := if phys = 0 then s.lent else (phys, size) :: s.lent }
  | freePhys {s mm phys size} : (phys, size) ∈ s.lent →
      Returns (avmfFreePhysContiguous phys size) s.mm () mm →
      KernelStep s (.freePhys phys size) { s with mm := mm, lent := s.lent.erase (phys, size) }
  | map {s mm depth virt phys flags r} :
      Returns ((pagerServices depth).pagerMap virt phys flags) s.mm r mm →
      KernelStep s (.map virt phys flags) { s with mm := mm }
  | mapRange {s mm depth virt phys size flags} :
      Returns ((pagerServices depth).pagerMapRange virt phys size flags) s.mm () mm →
      KernelStep s (.mapRange virt phys size flags) { s with mm := mm }
  | unmap {s mm depth virt} :
      Returns ((pagerServices depth).pagerUnmap virt) s.mm () mm →
      KernelStep s (.unmap virt) { s with mm := mm }

-- No page table stands in the pages.
def KernelUse.NoTables (s : KernelUse) (pages : Span) : Prop :=
  ∀ a ∈ s.mm.rest.tables, ¬ Mem (a.toNat / PAGE_SIZE) pages

-- A call takes back no page in which a page table stands.
def SparesTables (s : KernelUse) : KernelCall → Prop
  | .free x => ∀ fuel i h hdr, freedHeader s.mm.avmf fuel x.virt = some (i, h, hdr) →
      s.NoTables (pagesOf hdr.physAddr hdr.size)
  | .freePhys phys size => s.NoTables (pagesOf phys (align4k size))
  | _ => True

-- The kernel after pager_init and pager_load: the allocator is as avmf_init
-- leaves it, and the tables stand outside its memory.
structure Booted (bounds : List (Nat × Nat)) (pml4 : PhysAddr) (s : KernelState) : Prop where
  avmf : s.avmf = avmfInit bounds
  held : s.held = []
  ready : s.rest.ready = true
  loaded : s.rest.loaded = true
  tree : s.rest.Tree pml4
  early : ∀ a ∈ s.rest.tables, ∀ b ∈ bounds,
    ¬ (b.1 / PAGE_SIZE ≤ a.toNat / PAGE_SIZE ∧ a.toNat / PAGE_SIZE < b.2 / PAGE_SIZE)

-- A header is the one of an allocation.
structure Allocation.Has (x : Allocation) (hdr : Extent) : Prop where
  virt : hdr.virtAddr = x.virt
  size : hdr.size = x.size
  aligned : x.virt % PAGE_SIZE = 0
  phys : ∀ phys, x.phys = some phys → hdr.physAddr = phys

-- What the calls keep.
structure KernelInv (pml4 : PhysAddr) (s : KernelUse) : Prop where
  held : s.mm.held = []
  loaded : s.mm.rest.loaded = true
  tables : TablesMarked s.mm
  tree : s.mm.rest.Tree pml4
  parts : Partitioned s.mm.avmf
  headers : ∀ x ∈ s.live, ∃ hdr, s.mm.avmf.Taken hdr ∧ x.Has hdr
  distinct : s.live.Pairwise fun x y => x.virt ≠ y.virt

theorem Booted.inv {bounds : List (Nat × Nat)} (hbounds : PhysRegions bounds) {pml4 : PhysAddr}
    {s : KernelState} (h : Booted bounds pml4 s) : KernelInv pml4 ⟨s, [], []⟩ := by
  have hsame : Mm.bounds s.avmf = bounds := by
    rw [h.avmf, bounds_avmfInit]
  refine ⟨h.held, h.loaded, ⟨h.ready, fun b hb => ?_, fun a ha hin => ?_⟩, h.tree,
    h.avmf ▸ partitioned_avmfInit bounds, nofun, .nil⟩
  · have hfits := hbounds.fits b (hsame ▸ hb)
    unfold BITMAP_SIZE PAGE_SIZE at hfits
    omega
  · obtain ⟨b, hb, hmem⟩ := hin
    exact absurd hmem (h.early a ha b (hsame ▸ hb))

namespace KernelInv

variable {pml4 : PhysAddr} {s : KernelUse} {mm : KernelState}

-- A call that takes pages and links headers at most.
theorem grow (h : KernelInv pml4 s) (hlocks : SameLocks s.mm mm) (htree : TreeMoves pml4 s.mm mm)
    (hlists : ListsGrow s.mm mm) (hkept : ¬ mm.rest.ZeroLinked) (lent : List (Nat × Nat)) :
    KernelInv pml4 ⟨mm, s.live, lent⟩ := by
  refine ⟨Eq.trans hlocks h.held, htree.grow.loaded.trans h.loaded, h.tables.grow htree.grow,
    htree.tree h.tables hkept h.tree, hlists.parts h.parts, fun x hx => ?_, h.distinct⟩
  obtain ⟨hdr, hmem, hhas⟩ := h.headers x hx
  exact ⟨hdr, hlists.taken h.parts hmem, hhas⟩

-- A new header starts where none did.
theorem add (h : KernelInv pml4 s) (hafter : KernelInv pml4 { s with mm := mm })
    (hlists : ListsGrow s.mm mm) {i size : Nat} {hdr : Extent}
    (hlinked : HeaderLinked i size hdr s.mm mm) {phys : Option Nat}
    (hphys : ∀ p, phys = some p → hdr.physAddr = p) :
    KernelInv pml4 { s with mm := mm, live := ⟨hdr.virtAddr, phys, size⟩ :: s.live } := by
  obtain ⟨hmem, hfresh⟩ := hlinked.fresh h.parts hlists
  refine ⟨hafter.held, hafter.loaded, hafter.tables, hafter.tree, hafter.parts, fun x hx => ?_,
    List.pairwise_cons.mpr ⟨fun y hy hvirt => ?_, h.distinct⟩⟩
  · rcases List.mem_cons.mp hx with rfl | hx
    · exact ⟨hdr, hmem, rfl, hlinked.size_eq, hlinked.aligned, hphys⟩
    · exact hafter.headers x hx
  · obtain ⟨c, hc, hhas⟩ := h.headers y hy
    have hself := (h.parts.mem_span hc).1
    have hnew := (hafter.parts.mem_span hmem).1
    rw [hhas.virt, ← hvirt] at hself
    exact hfresh c hc _ hself hnew

theorem erase (h : KernelInv pml4 s) (x : Allocation) :
    KernelInv pml4 { s with live := s.live.erase x } :=
  ⟨h.held, h.loaded, h.tables, h.tree, h.parts, fun y hy => h.headers y (List.mem_of_mem_erase hy),
    h.distinct.sublist List.erase_sublist⟩

theorem ne_of_mem_erase (h : KernelInv pml4 s) {x y : Allocation} (hx : x ∈ s.live)
    (hy : y ∈ s.live.erase x) : x.virt ≠ y.virt := by
  have hsplit := (List.perm_cons_erase hx).pairwise h.distinct fun hne => Ne.symm hne
  exact (List.pairwise_cons.mp hsplit).1 y hy

theorem freed (hinv : KernelInv pml4 s) {x : Allocation} (hx : x ∈ s.live) {i h : Nat} {r : Region}
    (hr : s.mm.avmf.regions[i]? = some r) (hhas : x.Has (r.extent h))
    (hfreed : HeaderFreed pml4 i h r s.mm mm)
    (hspares : s.NoTables (pagesOf (r.extent h).physAddr (r.extent h).size)) :
    KernelInv pml4 { s with mm := mm, live := s.live.erase x } := by
  have hbounds : bounds mm.avmf = bounds s.mm.avmf := by
    rw [bounds, hfreed.physicalRegions, bounds]
  refine ⟨hfreed.pages.held.trans hinv.held, hfreed.pages.loaded.trans hinv.loaded,
    ⟨hfreed.ready.trans hinv.tables.ready, hbounds ▸ hinv.tables.fits, fun a ha hin => ?_⟩,
    hfreed.pages.tree, hfreed.parts, fun y hy => ?_, (hinv.erase x).distinct⟩
  · rw [hfreed.tables] at ha
    rw [PhysPage.congr hbounds] at hin
    exact (hfreed.marked _).mpr ⟨hinv.tables.tables a ha hin, hspares a ha⟩
  · obtain ⟨c, hc, hhas'⟩ := hinv.headers y (List.mem_of_mem_erase hy)
    have hne := hinv.ne_of_mem_erase hx hy
    refine ⟨c, HeaderFreed.taken (s := s) hfreed hr hc ?_, hhas'⟩
    rw [hhas'.virt, hhas.virt]
    exact hne.symm

theorem unlend (h : KernelInv pml4 s) {pages : Span} (ht : PagesFreed pages s.mm mm)
    (hspares : s.NoTables pages) (lent : List (Nat × Nat)) :
    KernelInv pml4 ⟨mm, s.live, lent⟩ := by
  have htaken (hdr : Extent) : mm.avmf.Taken hdr ↔ s.mm.avmf.Taken hdr := by
    rw [Avmf.Taken, ht.regions, Avmf.Taken]
  have hparts : Partitioned mm.avmf := by
    rw [Partitioned, ht.regions]
    exact h.parts
  refine ⟨ht.held.trans h.held, ht.rest ▸ h.loaded, ⟨ht.rest ▸ h.tables.ready,
    ht.bounds ▸ h.tables.fits, fun a ha hin => ?_⟩, ht.rest ▸ h.tree, hparts, ?_, h.distinct⟩
  · rw [ht.rest] at ha
    rw [PhysPage.congr ht.bounds] at hin
    rw [ht.marked _ (hspares a ha)]
    exact h.tables.tables a ha hin
  · simp only [htaken]
    exact h.headers

end KernelInv

variable {pml4 : PhysAddr} {s t : KernelUse} {call : KernelCall}

theorem KernelStep.zeroLinked (h : KernelStep s call t) (hs : s.mm.rest.ZeroLinked) :
    t.mm.rest.ZeroLinked := by
  have hmove {α : Type} {m : Kernel α} {a : α} {mm : KernelState}
      (hm : Keeps (TreeMoves 0) m) (hret : Returns m s.mm a mm) : mm.rest.ZeroLinked :=
    (hm.returns hret).history.zeroLinked hs
  cases h with
  | @alloc mm depth _ _ _ _ _ h => exact hmove (avmfAlloc_tree (pagerServices_tree depth) _ _ _) h
  | @allocVirt mm depth _ _ _ h => exact hmove (avmfAllocVirt_tree (pagerServices_tree depth) _ _) h
  | @free mm depth _ _ _ h =>
      exact History.zeroLinked ((avmfFree_keeps (pagerServices_history depth) _ _).returns h) hs
  | allocPhys h =>
      have hrest := ((avmfAllocPhysContiguous_spec _ _).of_returns h).rest
      rwa [hrest]
  | freePhys _ h =>
      have hrest := ((avmfFreePhysContiguous_spec _ _ _).of_returns h).rest
      rwa [hrest]
  | @map mm depth _ _ _ _ h => exact hmove ((pagerServices_tree depth).pagerMap _ _ _) h
  | @mapRange mm depth _ _ _ _ h => exact hmove ((pagerServices_tree depth).pagerMapRange _ _ _ _) h
  | @unmap mm depth _ h => exact hmove ((pagerServices_tree depth).pagerUnmap _) h

-- A call that spares the tables keeps the invariant, unless it has linked page 0.
theorem KernelInv.step (hinv : KernelInv pml4 s) (hspares : SparesTables s call)
    (h : KernelStep s call t) (hkept : ¬ t.mm.rest.ZeroLinked) : KernelInv pml4 t := by
  cases h with
  | @alloc mm depth size type flags virt phys h =>
      have hlists := (avmfAlloc_lists (pagerServices_lists depth) (pagerServices_extends depth) size
        type flags s.mm).of_returns h
      have hgrown := hinv.grow (((avmfAlloc_locks (pagerServices_locks depth) _ _ _).keeps).returns h)
        ((avmfAlloc_tree (pagerServices_tree depth) _ _ _).returns h) hlists.1 hkept s.lent
      by_cases hzero : virt = 0
      · simp only [hzero, if_true]
        exact hgrown
      · obtain ⟨-, i, hdr, hlinked, rfl, hphys⟩ := hlists.2 hinv.parts hzero
        simp only [hzero, if_false]
        refine hinv.add hgrown hlists.1 hlinked fun p hp => ?_
        cases hp
        exact hphys
  | @allocVirt mm depth size type virt h =>
      have hlists := (avmfAllocVirt_lists (pagerServices_lists depth) size type s.mm).of_returns h
      have hgrown := hinv.grow (((avmfAllocVirt_locks (pagerServices_locks depth) _ _).keeps).returns h)
        ((avmfAllocVirt_tree (pagerServices_tree depth) _ _).returns h) hlists.1 hkept s.lent
      by_cases hzero : virt = 0
      · simp only [hzero, if_true]
        exact hgrown
      · obtain ⟨i, hdr, hlinked, rfl⟩ := hlists.2 hinv.parts hzero
        simp only [hzero, if_false]
        exact hinv.add hgrown hlists.1 hlinked nofun
  | @free mm depth fuel x hx h =>
      cases hfound : freedHeader s.mm.avmf fuel x.virt with
      | none =>
          obtain rfl : mm = s.mm := (avmfFree_missed hfound).of_returns h
          exact hinv.erase x
      | some found =>
          obtain ⟨_, ⟨i, r, k, hr, hk, -, rfl⟩, hhas⟩ := hinv.headers x hx
          rw [← hhas.virt] at h hfound
          obtain ⟨rfl, -, -⟩ := (hinv.parts.freedHeader_eq hr hk).mp hfound
          have hfreed := (avmfFree_found (E := fun _ => True) depth hinv.parts hr hfound hinv.tree
            hinv.loaded hinv.held fun _ => trivial).of_returns h
          rw [hhas.virt] at hfound
          exact hinv.freed hx hr hhas hfreed (hspares fuel i k _ hfound)
  | @allocPhys mm size phys h =>
      have htaken := (avmfAllocPhysContiguous_spec _ _).of_returns h
      have htree : TreeMoves pml4 s.mm mm := .of_rest htaken.marksGrow htaken.rest
      exact hinv.grow htaken.held htree htaken.lists hkept _
  | @freePhys mm phys size hlent h =>
      exact hinv.unlend ((avmfFreePhysContiguous_spec _ _ _).of_returns h) hspares _
  | @map mm depth virt phys flags r h =>
      exact hinv.grow (((pagerServices_locks depth).pagerMap _ _ _).returns h)
        (((pagerServices_tree depth).pagerMap _ _ _).returns h)
        (((pagerServices_lists depth).pagerMap _ _ _).returns h) hkept _
  | @mapRange mm depth virt phys size flags h =>
      exact hinv.grow (((pagerServices_locks depth).pagerMapRange _ _ _ _).returns h)
        (((pagerServices_tree depth).pagerMapRange _ _ _ _).returns h)
        (((pagerServices_lists depth).pagerMapRange _ _ _ _).returns h) hkept _
  | @unmap mm depth virt h =>
      exact hinv.grow (((pagerServices_locks depth).pagerUnmap _).returns h)
        (((pagerServices_tree depth).pagerUnmap _).returns h)
        (((pagerServices_lists depth).pagerUnmap _).returns h) hkept _

-- The invariant holds throughout a run.
theorem Booted.invariant {bounds : List (Nat × Nat)} (hbounds : PhysRegions bounds)
    {start : KernelState} (hstart : Booted bounds pml4 start)
    {past : List (KernelUse × KernelCall)} (h : Trace KernelStep ⟨start, [], []⟩ past s)
    (hspares : Trace.Admits SparesTables past) (hkept : ¬ s.mm.rest.ZeroLinked) :
    KernelInv pml4 s :=
  (h.always_of_clean (P := KernelInv pml4) (hstart.inv hbounds)
    (fun _ _ _ hstep hkept hzero => hkept (hstep.zeroLinked hzero))
    (fun _ _ _ hinv hspares hstep hkept => hinv.step hspares hstep hkept) (fun _ hinv => hinv)
    hspares hkept).2

theorem KernelInv.released_iff (hinv : KernelInv pml4 s) {x : Allocation} (hx : x ∈ s.live)
    {phys : Nat} (hphys : x.phys = some phys) (depth : Nat) :
    (∃ fuel t, Returns (avmfFree (pagerServices depth) fuel x.virt) s.mm () t ∧
      (∃ i h, freedHeader s.mm.avmf fuel x.virt = some (i, h, ⟨x.virt, phys, x.size⟩)) ∧
        Releases s x.virt phys x.size t) ↔ FreeOk s x.virt phys x.size := by
  obtain ⟨hdr, hmem, hhas⟩ := hinv.headers x hx
  have haligned := hhas.aligned
  rw [← hhas.virt] at haligned
  obtain rfl : hdr = ⟨x.virt, phys, x.size⟩ := by
    rw [← hhas.virt, ← hhas.size, ← hhas.phys phys hphys]
  exact avmfFree_releases_iff depth hinv.parts hmem haligned hinv.tree hinv.loaded hinv.held

-- In every run that has not run out of page tables and has taken back no page
-- of one, avmf_free finds and releases a live allocation exactly when its region
-- is found, the list leads to its header, and its pages are its own.
theorem live_allocation_released_iff {bounds : List (Nat × Nat)} (hbounds : PhysRegions bounds)
    {start : KernelState} (hstart : Booted bounds pml4 start)
    {past : List (KernelUse × KernelCall)} (h : Trace KernelStep ⟨start, [], []⟩ past s)
    (hspares : Trace.Admits SparesTables past) (hkept : ¬ s.mm.rest.ZeroLinked) {x : Allocation}
    (hx : x ∈ s.live) {phys : Nat} (hphys : x.phys = some phys) (depth : Nat) :
    (∃ fuel t, Returns (avmfFree (pagerServices depth) fuel x.virt) s.mm () t ∧
      (∃ i h, freedHeader s.mm.avmf fuel x.virt = some (i, h, ⟨x.virt, phys, x.size⟩)) ∧
        Releases s x.virt phys x.size t) ↔ FreeOk s x.virt phys x.size :=
  (hstart.invariant hbounds h hspares hkept).released_iff hx hphys depth

-- Page tables with a direct map of the 2 MiB at 0x2000000 and nothing else.
def smallPager : Pager :=
  ((freshMachine.rest.linkTable 0x1000 256 0x2000).linkTable 0x2000 0 0x3000).write 0x3000 16
    (hugeEntry 0x2000000 (PAGE_RW ||| PAGE_HUGE))

def smallKernel : KernelState := ⟨avmfInit someMemory, [], [], smallPager⟩

theorem smallPager_tree : smallPager.Tree 0x1000 := by
  have hpage {n : Nat} (haligned : PAGE_SIZE ∣ n) (hlt : n < 2 ^ 52) : IsPage (BitVec.ofNat 64 n) :=
    isPage_ofNat haligned hlt
  have hfirst : freshMachine.rest.CanLink 0x1000 [] 0x1000 256 0x2000 :=
    ⟨freshMachine_started.tree, rfl, by decide, by decide, hpage (n := 0x2000) (by decide) (by decide),
      by decide⟩
  have hsecond : (freshMachine.rest.linkTable 0x1000 256 0x2000).CanLink 0x1000 [256] 0x2000 0
      0x3000 := by
    refine ⟨hfirst.linkTable, hfirst.linked, by decide, ?_, hpage (n := 0x3000) (by decide) (by decide),
      by decide⟩
    rw [hfirst.entries_new, present_zero]
  have hwrite : ((freshMachine.rest.linkTable 0x1000 256 0x2000).linkTable 0x2000 0 0x3000).CanWrite
      0x1000 [256, 0] 0x3000 (hugeEntry 0x2000000 (PAGE_RW ||| PAGE_HUGE)) :=
    ⟨hsecond.linkTable, hsecond.linked, by simp [pageLink, huge_or_huge], fun _ =>
      bitsWithin_hugeEntry _ (bitsWithin_ofNat (k := 0x2000000) (by decide))⟩
  exact hwrite.write 16

theorem smallKernel_booted : Booted someMemory 0x1000 smallKernel where
  avmf := rfl
  held := rfl
  ready := rfl
  loaded := rfl
  tree := smallPager_tree
  early a ha b hb := by
    obtain rfl : b = (0x2000000, 0x2100000) := List.mem_singleton.mp hb
    have hlow : ∀ a ∈ ([0x3000, 0x2000, 0x1000] : List PhysAddr), a.toNat ≤ 0x3000 := by simp
    have := hlow a ha
    unfold PAGE_SIZE
    omega

def allocKernel : Kernel (Nat × Nat × Bool) := do
  let (virt, phys) ← avmfAlloc (pagerServices 2) 0x1000 .kernel AVMF_FLAG_WRITEABLE
  return (virt, phys, decide ((← get).rest.ZeroLinked))

theorem live_allocation_released_iff_kernel :
    ∃ past s, Trace KernelStep ⟨smallKernel, [], []⟩ past s ∧
      ⟨0xFFFFA00000000000, some 0x2001000, 0x1000⟩ ∈ s.live ∧
        ((∃ fuel t, Returns (avmfFree (pagerServices 2) fuel 0xFFFFA00000000000) s.mm () t ∧
          (∃ i h, freedHeader s.mm.avmf fuel 0xFFFFA00000000000 =
            some (i, h, ⟨0xFFFFA00000000000, 0x2001000, 0x1000⟩)) ∧
              Releases s 0xFFFFA00000000000 0x2001000 0x1000 t) ↔
            FreeOk s 0xFFFFA00000000000 0x2001000 0x1000) := by
  obtain ⟨u, hu⟩ := returns_of_value (m := allocKernel) (s := smallKernel)
    (a := (0xFFFFA00000000000, 0x2001000, false)) (by decide +kernel)
  simp only [allocKernel, returns_bind, returns_get, returns_pure, Prod.mk.injEq] at hu
  obtain ⟨⟨virt, phys⟩, s₁, halloc, _, _, ⟨rfl, rfl⟩, ⟨rfl, rfl, hkept⟩, rfl⟩ := hu
  have hrun := Trace.snoc .nil (KernelStep.alloc (s := ⟨smallKernel, [], []⟩) halloc)
  exact ⟨_, _, hrun, List.mem_cons_self, live_allocation_released_iff someMemory_regions
    smallKernel_booted hrun (Trace.admits_snoc.mpr ⟨Trace.admits_nil, trivial⟩)
    (of_decide_eq_false hkept) List.mem_cons_self rfl 2⟩

-- The lower half of the USER space is taken, then a page.
def allocUpperUser : Kernel (Nat × Nat × Nat × Bool) := do
  let first ← avmfAllocVirt (pagerServices 2) 0xFFFF000 .user
  let (virt, phys) ← avmfAlloc (pagerServices 2) 0x1000 .user AVMF_FLAG_USERMODE
  return (first, virt, phys, decide ((← get).rest.ZeroLinked))

-- avmf_free does not find the region of an address in the upper half.
theorem live_allocation_released_fails :
    ∃ past s, Trace KernelStep ⟨smallKernel, [], []⟩ past s ∧
      ⟨0x10000000, some 0x2001000, 0x1000⟩ ∈ s.live ∧
        ¬ ∃ fuel t, Returns (avmfFree (pagerServices 2) fuel 0x10000000) s.mm () t ∧
          (∃ i h, freedHeader s.mm.avmf fuel 0x10000000 =
            some (i, h, ⟨0x10000000, 0x2001000, 0x1000⟩)) ∧
              Releases s 0x10000000 0x2001000 0x1000 t := by
  obtain ⟨u, hu⟩ := returns_of_value (m := allocUpperUser) (s := smallKernel)
    (a := (0x1000, 0x10000000, 0x2001000, false)) (by decide +kernel)
  simp only [allocUpperUser, returns_bind, returns_get, returns_pure, Prod.mk.injEq] at hu
  obtain ⟨first, s₁, hfirst, ⟨virt, phys⟩, s₂, halloc, _, _, ⟨rfl, rfl⟩, ⟨rfl, rfl, rfl, hkept⟩,
    rfl⟩ := hu
  have hfirst := KernelStep.allocVirt (s := ⟨smallKernel, [], []⟩) hfirst
  have hrun := Trace.snoc (.snoc .nil hfirst) (KernelStep.alloc halloc)
  refine ⟨_, _, hrun, List.mem_cons_self, fun hreleased => ?_⟩
  have hinv := smallKernel_booted.invariant someMemory_regions hrun
    (Trace.admits_snoc.mpr ⟨Trace.admits_snoc.mpr ⟨Trace.admits_nil, trivial⟩, trivial⟩)
    (of_decide_eq_false hkept)
  have hok := (hinv.released_iff List.mem_cons_self rfl 2).mp hreleased
  exact absurd hok.found (by decide)

end AosKernel.Mm
