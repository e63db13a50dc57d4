import AosKernel.Mm.MemoryCalls
import AosKernel.Mm.PagerTranslation

namespace AosKernel.Mm

open Verif Verif.Exec Verif.Span

-- The memory manager and what its callers hold: addresses to give to avmf_free
-- and physical ranges to give to avmf_free_phys_contiguous.
structure MemoryUse where
  mm : KernelState
  given : List Nat
  lent : List (Nat × Nat)

inductive MemoryCall
  | alloc (size : Nat) (type : MemoryAllocType) (flags : BitVec 32)
  | allocVirt (size : Nat) (type : MemoryAllocType)
  | free (virt : Nat)
  | allocPhys (size : Nat)
  | freePhys (phys size : Nat)

-- A call that returns. Callers free only what they were given, and only once.
inductive MemoryStep : MemoryUse → MemoryCall → MemoryUse → Prop
  | alloc {s mm depth size type flags virt phys} :
      Returns (avmfAlloc (pagerServices depth) size type flags) s.mm (virt, phys) mm →
      MemoryStep s (.alloc size type flags)
        { s with mm := mm, given := if virt = 0 then s.given else virt :: s.given }
  | allocVirt {s mm depth size type virt} :
      Returns (avmfAllocVirt (pagerServices depth) size type) s.mm virt mm →
      MemoryStep s (.allocVirt size type)
        { s with mm := mm, given := if virt = 0 then s.given else virt :: s.given }
  | free {s mm depth fuel virt} : virt ∈ s.given →
      Returns (avmfFree (pagerServices depth) fuel virt) s.mm () mm →
      MemoryStep s (.free virt) { s with mm := mm, given := s.given.erase virt }
  | allocPhys {s mm size phys} :
      Returns (avmfAllocPhysContiguous size) s.mm phys mm →
      MemoryStep s (.allocPhys size)
        { s with mm := mm, lent := if phys = 0 then s.lent else (phys, size) :: s.lent }
  | freePhys {s mm phys size} : (phys, size) ∈ s.lent →
      Returns (avmfFreePhysContiguous phys size) s.mm () mm →
      MemoryStep s (.freePhys phys size) { s with mm := mm, lent := s.lent.erase (phys, size) }

-- Physical regions that avmf_init can be given.
structure PhysRegions (bounds : List (Nat × Nat)) : Prop where
  apart : bounds.Pairwise fun a b => a.2 ≤ b.1 ∨ b.2 ≤ a.1
  fits : ∀ b ∈ bounds, b.2 ≤ BITMAP_SIZE * 8 * PAGE_SIZE

-- After pager_init: the tables it has built, whichever they are, come from the
-- block the loader left and not from the allocator.
def initialUse (bounds : List (Nat × Nat)) (pager : Pager) : MemoryUse where
  mm := ⟨avmfInit bounds, [], [], { pager with ready := true, tables := [] }⟩
  given := []
  lent := []

-- The pages of the live allocations: of ALLOC headers, of page tables and of
-- what the callers hold.
def MemoryUse.owned (s : MemoryUse) : List Span :=
  owners s.mm ++ s.lent.map fun b => pagesOf b.1 (align4k b.2)

-- No page belongs to two live allocations, and each that belongs to one is
-- marked.
structure PagesOwned (s : MemoryUse) : Prop where
  apart : s.owned.Pairwise Apart
  marked : ∀ pages ∈ s.owned, ∀ p, Mem p pages → s.mm.avmf.marked p = true

-- avmf_free clears the marks of the pages of a header, so avmf_region_free has
-- to come to it and take it off them. A header without physical address may
-- only be freed while the pages from 0 on belong to nobody.
def FreeSafe (s : MemoryUse) : MemoryCall → Prop
  | .free virt => ∀ fuel i h hdr, freedHeader s.mm.avmf fuel virt = some (i, h, hdr) →
      if hdr.physAddr = 0 then ∀ pages ∈ s.owned, Apart pages (pagesOf 0 hdr.size)
      else s.mm.avmf.FreeReaches i h hdr
  | _ => True

-- What the calls keep: every page has at most one owner, and a mark if it has one.
structure MemoryInv (s : MemoryUse) : Prop where
  inv : AvmfInv s.mm.avmf
  ready : s.mm.rest.ready = true
  owned : ∀ p, cover s.owned p ≤ s.mm.avmf.mark p

theorem MemoryInv.pagesOwned {s : MemoryUse} (h : MemoryInv s) : PagesOwned s where
  apart := pairwise_apart_of_cover_le_one fun p => (h.owned p).trans (Avmf.mark_le_one _ p)
  marked pages hpages p hp := by
    have hone := one_le_cover_of_mem hpages hp
    have hmark := h.owned p
    unfold Avmf.mark at hmark
    split at hmark
    · assumption
    · omega

theorem initialUse_inv {bounds : List (Nat × Nat)} (h : PhysRegions bounds) (pager : Pager) :
    MemoryInv (initialUse bounds pager) := by
  refine ⟨⟨fun r hr => ?_, fun r hr => ?_⟩, rfl, fun p => ?_⟩
  · simp only [initialUse, avmfInit, List.mapIdx_cons, List.mapIdx_nil, List.mem_cons,
      List.not_mem_nil, or_false] at hr
    rcases hr with rfl | rfl | rfl | rfl
    · exact ⟨userSpace, avmfRegionInit_inv _ _⟩
    · exact ⟨kernelSpace, avmfRegionInit_inv _ _⟩
    · exact ⟨driverSpace, avmfRegionInit_inv _ _⟩
    · exact ⟨sensitiveSpace, avmfRegionInit_inv _ _⟩
  · obtain ⟨i, hi, rfl⟩ := List.mem_mapIdx.mp hr
    have hfits := h.fits _ (List.getElem_mem hi)
    unfold BITMAP_SIZE PAGE_SIZE at hfits
    simp only [avmfRegionInit]
    omega
  · have hnone : (initialUse bounds pager).owned = [] := by
      simp [MemoryUse.owned, owners, initialUse, avmfInit, Avmf.owned, Region.owned, Region.ofType, avmfRegionInit]
    rw [hnone]
    exact Nat.zero_le _

-- A call that does nothing but take memory.
theorem MemoryInv.extend {s : MemoryUse} {mm : KernelState} (h : MemoryInv s)
    (hext : Extends s.mm mm) (hclean : AllClean mm.requests) (given : List Nat) :
    MemoryInv { s with mm := mm, given := given } := by
  have hroom := hext.room h.ready hclean h.inv
  refine ⟨hroom.inv, hext.ready.trans h.ready, fun p => ?_⟩
  have hspare := hroom.spare p
  have howned := h.owned p
  simp only [MemoryUse.owned, cover_append] at howned ⊢
  omega

theorem MemoryInv.lend {s : MemoryUse} {mm : KernelState} {phys size : Nat} (h : MemoryInv s)
    (ht : PagesTaken (align4k size) phys s.mm mm) :
    MemoryInv { s with mm := mm, lent := if phys = 0 then s.lent else (phys, size) :: s.lent } := by
  refine ⟨ht.inv h.inv, ht.rest ▸ h.ready, fun p => ?_⟩
  have howned := h.owned p
  simp only [MemoryUse.owned, cover_append, ht.owners] at howned ⊢
  split
  · have := Avmf.mark_le_of_imp (ht.marked p)
    omega
  · rename_i hne
    have hroom := ht.room hne p
    simp only [List.map_cons, cover_cons]
    omega

theorem MemoryInv.unlend {s : MemoryUse} {mm : KernelState} {phys size : Nat} (h : MemoryInv s)
    (hlent : (phys, size) ∈ s.lent) (ht : PagesFreed (pagesOf phys (align4k size)) s.mm mm) :
    MemoryInv { s with mm := mm, lent := s.lent.erase (phys, size) } := by
  refine ⟨ht.inv h.inv, ht.rest ▸ h.ready, fun p => ?_⟩
  have howned := h.owned p
  have hperm := (List.perm_cons_erase hlent).map fun b : Nat × Nat => pagesOf b.1 (align4k b.2)
  have hcover := cover_perm hperm p
  simp only [MemoryUse.owned, cover_append, ht.owners, List.map_cons, cover_cons] at howned hcover ⊢
  by_cases hp : Mem p (pagesOf phys (align4k size))
  · have hone := Avmf.mark_le_one s.mm.avmf p
    simp only [hp, if_true] at hcover
    omega
  · simp only [Avmf.mark, ht.marked p hp] at howned ⊢
    omega

theorem MemoryInv.free {s : MemoryUse} {mm : KernelState} {i h : Nat} {hdr : Extent}
    (hinv : MemoryInv s) (ht : Freed i h hdr s.mm mm)
    (hsafe : if hdr.physAddr = 0 then ∀ pages ∈ s.owned, Apart pages (pagesOf 0 hdr.size)
      else s.mm.avmf.FreeReaches i h hdr)
    (given : List Nat) : MemoryInv { s with mm := mm, given := given } := by
  refine ⟨ht.inv, ht.ready.trans hinv.ready, fun p => ?_⟩
  have howned := hinv.owned p
  have hkept := ht.kept p
  by_cases hp : Mem p (pagesOf hdr.physAddr hdr.size)
  · by_cases hzero : hdr.physAddr = 0
    · rw [if_pos hzero] at hsafe
      rw [hzero] at hp
      have hfree : ¬ 0 < cover s.owned p := fun hpos => by
        obtain ⟨pages, hpages, hmem⟩ := (cover_pos_iff _ _).mp hpos
        exact hsafe pages hpages p hmem hp
      simp only [MemoryUse.owned, cover_append] at hfree ⊢
      omega
    · rw [if_neg hzero] at hsafe
      have hless := ht.owned hsafe p
      have hmark := Avmf.mark_le_one s.mm.avmf p
      rw [Extent.owned, if_pos (Nat.pos_of_ne_zero hzero)] at hless
      simp only [cover_cons, hp, if_true, cover_nil] at hless
      simp only [MemoryUse.owned, cover_append] at howned ⊢
      omega
  · have hsame : mm.avmf.mark p = s.mm.avmf.mark p := by
      simp only [Avmf.mark, ht.marked p, hp, not_false_eq_true, and_true]
    simp only [MemoryUse.owned, cover_append] at howned ⊢
    omega

theorem MemoryStep.requests {s t : MemoryUse} {call : MemoryCall} (h : MemoryStep s call t) :
    s.mm.requests <+: t.mm.requests := by
  cases h with
  | alloc h => exact ((avmfAlloc_extends (pagerServices_extends _) _ _ _).returns h).requests
  | allocVirt h => exact ((avmfAllocVirt_extends (pagerServices_extends _) _ _).returns h).requests
  | free _ h => exact ((avmfFree_spec (pagerServices_extends _) (pagerServices_unmap _) _ _
      _).of_returns h).1
  | allocPhys h => rw [((avmfAllocPhysContiguous_spec _ _).of_returns h).requests]
  | freePhys _ h => rw [((avmfFreePhysContiguous_spec _ _ _).of_returns h).requests]

theorem MemoryStep.inv {s t : MemoryUse} {call : MemoryCall} (hinv : MemoryInv s)
    (hsafe : FreeSafe s call) (h : MemoryStep s call t) (hclean : AllClean t.mm.requests) :
    MemoryInv t := by
  cases h with
  | alloc h =>
      exact hinv.extend ((avmfAlloc_extends (pagerServices_extends _) _ _ _).returns h) hclean _
  | allocVirt h =>
      exact hinv.extend ((avmfAllocVirt_extends (pagerServices_extends _) _ _).returns h) hclean _
  | @free mm depth fuel virt _ h =>
      have hspec := ((avmfFree_spec (pagerServices_extends _) (pagerServices_unmap _) _ _
        _).of_returns h).2 hinv.inv
      cases hfound : freedHeader s.mm.avmf fuel virt with
      | none =>
          simp only [hfound] at hspec
          subst hspec
          exact ⟨hinv.inv, hinv.ready, hinv.owned⟩
      | some found =>
          obtain ⟨i, a, hdr⟩ := found
          simp only [hfound] at hspec
          exact hinv.free hspec (hsafe fuel i a hdr hfound) _
  | allocPhys h => exact hinv.lend ((avmfAllocPhysContiguous_spec _ _).of_returns h)
  | freePhys hlent h => exact hinv.unlend hlent ((avmfFreePhysContiguous_spec _ _ _).of_returns h)

-- Every run in which no allocation comes within reach of a cached header that
-- kept its physical address, every header with one that is freed is given back,
-- and none without is freed over pages in use, has each page owned once and marked.
theorem pages_owned_run {bounds : List (Nat × Nat)} (hbounds : PhysRegions bounds) (pager : Pager)
    {past : List (MemoryUse × MemoryCall)} {s : MemoryUse}
    (h : Trace MemoryStep (initialUse bounds pager) past s) (hfrees : Trace.Admits FreeSafe past)
    (hclean : AllClean s.mm.requests) : Trace.Always PagesOwned past s :=
  h.always_of_clean (initialUse_inv hbounds pager)
    (fun _ _ _ hstep hclean => hclean.of_prefix hstep.requests)
    (fun _ _ _ hinv hsafe hstep hclean => hstep.inv hinv hsafe hclean) (fun _ => MemoryInv.pagesOwned)
    hfrees hclean

-- Page tables with a direct map of the 2 MiB at 0x2000000.
def directMapPager : Pager :=
  { freshMachine.rest with
    entries := fun table i =>
      if table = 0x1000 ∧ i = 256 then linkEntry 0x2000
      else if table = 0x2000 ∧ i = 0 then linkEntry 0x3000
      else if table = 0x3000 ∧ i = 16 then hugeEntry 0x2000000 (PAGE_RW ||| PAGE_HUGE)
      else 0 }

def someMemory : List (Nat × Nat) := [(0x2000000, 0x2100000)]

theorem someMemory_regions : PhysRegions someMemory :=
  ⟨List.pairwise_singleton _ _, by decide⟩

-- An allocation is freed while its header has a physical address.
def allocFree : Kernel (Nat × Bool × Nat × Bool) := do
  let (virt, _) ← avmfAlloc (pagerServices 2) 0x1000 .kernel AVMF_FLAG_WRITEABLE
  let a := (← get).avmf
  let safe := (freedHeader a 2 virt).any fun (i, h, hdr) =>
    hdr.physAddr ≠ 0 ∧ a.FreeReaches i h hdr
  avmfFree (pagerServices 2) 2 virt
  let lent ← avmfAllocPhysContiguous 0x2000
  return (virt, safe, lent, decide (AllClean (← get).requests))

theorem freeSafe_of_any {s : MemoryUse} {fuel virt : Nat}
    (h : ((freedHeader s.mm.avmf fuel virt).any fun (i, h, hdr) =>
      hdr.physAddr ≠ 0 ∧ s.mm.avmf.FreeReaches i h hdr) = true) : FreeSafe s (.free virt) := by
  intro n i a hdr hfound
  cases hsome : freedHeader s.mm.avmf fuel virt with
  | none =>
      rw [hsome] at h
      cases h
  | some found =>
      rw [hsome] at h
      obtain rfl := freedHeader_unique hsome hfound
      obtain ⟨hne, hreaches⟩ := of_decide_eq_true h
      rw [if_neg hne]
      exact hreaches

theorem pages_owned_run_free :
    ∃ past s, Trace MemoryStep (initialUse someMemory directMapPager) past s ∧
      Trace.Admits FreeSafe past ∧ AllClean s.mm.requests ∧ Trace.Always PagesOwned past s ∧
        s.lent = [(0x2005000, 0x2000)] := by
  obtain ⟨u, hu⟩ := returns_of_value (m := allocFree)
    (s := (initialUse someMemory directMapPager).mm)
    (a := (0xFFFFA00000000000, true, 0x2005000, true)) (by decide +kernel)
  simp only [allocFree, returns_bind, returns_get, returns_pure, Prod.mk.injEq] at hu
  obtain ⟨⟨_, phys⟩, s₁, halloc, _, _, ⟨rfl, rfl⟩, _, s₂, hfree, _, s₃, hlend, _, _, ⟨rfl, rfl⟩,
    ⟨rfl, hreaches, rfl, hclean⟩, rfl⟩ := hu
  have hsafe : FreeSafe ⟨s₁, [0xFFFFA00000000000], []⟩ (.free 0xFFFFA00000000000) :=
    freeSafe_of_any (s := ⟨s₁, [0xFFFFA00000000000], []⟩) hreaches
  have halloc := MemoryStep.alloc (s := initialUse someMemory directMapPager) halloc
  have hfree := MemoryStep.free (s := ⟨s₁, [0xFFFFA00000000000], []⟩) (List.mem_singleton.mpr rfl) hfree
  have hrun := Trace.snoc (.snoc (.snoc .nil halloc) hfree) (MemoryStep.allocPhys hlend)
  have hfirst : FreeSafe (initialUse someMemory directMapPager)
    (.alloc 0x1000 .kernel AVMF_FLAG_WRITEABLE) := trivial
  have hlast : FreeSafe ⟨s₂, [], []⟩ (.allocPhys 0x2000) := trivial
  have hfrees := Trace.admits_snoc.mpr ⟨Trace.admits_snoc.mpr ⟨Trace.admits_snoc.mpr
    ⟨Trace.admits_nil, hfirst⟩, hsafe⟩, hlast⟩
  have hclean := of_decide_eq_true hclean
  exact ⟨_, _, hrun, hfrees, hclean, pages_owned_run someMemory_regions directMapPager hrun hfrees
    hclean, rfl⟩

-- The page of a freed allocation is given away and comes back with the next.
def reusePage : Kernel (Nat × Nat × Nat × Bool) := do
  let (virt, _) ← avmfAlloc (pagerServices 2) 0x1000 .kernel AVMF_FLAG_WRITEABLE
  avmfFree (pagerServices 2) 2 virt
  let lent ← avmfAllocPhysContiguous 0x1000
  let (virt', _) ← avmfAlloc (pagerServices 2) 0x1000 .kernel AVMF_FLAG_WRITEABLE
  return (virt, lent, virt', decide (pagesOf lent 0x1000 ∈ owners (← get)))

-- One page with two owners: the cached header still had its address.
theorem pages_owned_fails :
    PhysRegions someMemory ∧ ∃ past s,
      Trace MemoryStep (initialUse someMemory directMapPager) past s ∧ ¬ PagesOwned s := by
  obtain ⟨u, hu⟩ := returns_of_value (m := reusePage)
    (s := (initialUse someMemory directMapPager).mm)
    (a := (0xFFFFA00000000000, 0x2001000, 0xFFFFA00000000000, true)) (by decide +kernel)
  simp only [reusePage, returns_bind, returns_get, returns_pure, Prod.mk.injEq] at hu
  obtain ⟨⟨_, phys⟩, s₁, halloc, _, s₂, hfree, _, s₃, hlend, ⟨_, phys'⟩, s₄, hagain, _, _,
    ⟨rfl, rfl⟩, ⟨rfl, rfl, rfl, hmem⟩, rfl⟩ := hu
  refine ⟨someMemory_regions, _, _, .snoc (.snoc (.snoc (.snoc .nil (.alloc halloc))
    (.free (List.mem_singleton.mpr rfl) hfree)) (.allocPhys hlend)) (.alloc hagain), fun howned => ?_⟩
  have hapart := (List.pairwise_append.mp howned.apart).2.2 _ (of_decide_eq_true hmem)
    (pagesOf 0x2001000 (align4k 0x1000)) (List.mem_singleton.mpr rfl)
  exact hapart 0x2001 (by decide) (by decide)

end AosKernel.Mm
