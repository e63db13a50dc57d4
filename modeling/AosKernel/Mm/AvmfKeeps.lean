import AosKernel.Lib.Keeps
import AosKernel.Mm.Avmf

namespace AosKernel.Mm

open Verif

section Region

variable {ε σ : Type} {pool : NodePool ε σ}

-- The calls a region makes maintain `I`.
structure NodePool.Maintains (pool : NodePool ε σ) (I : σ → Prop) (E : ε → Prop) : Prop where
  avmfAllocIhdr : Verif.Maintains I E pool.avmfAllocIhdr
  avmfFreeIhdr : ∀ node, Verif.Maintains I E (pool.avmfFreeIhdr node)
  avmfAllocIrange : Verif.Maintains I E pool.avmfAllocIrange
  avmfFreeIrange : ∀ range, Verif.Maintains I E (pool.avmfFreeIrange range)

section Maintains

variable {I : σ → Prop} {E : ε → Prop} (h : pool.Maintains I E)

include h

theorem splitCache_maintains (r : Region) (size node c : Nat) :
    Maintains I E (splitCache pool r size node c) := by
  unfold splitCache
  dsimp only
  refine .ite (.ite (.bind h.avmfAllocIrange fun addr => .ite ?_ (.pure _)) (.pure _))
    (.bind (h.avmfFreeIhdr _) fun _ => .pure _)
  split
  · exact .bind (h.avmfFreeIrange _) fun _ => .pure _
  · exact .pure _

theorem allocFromCache_maintains (size align minVirt maxVirt m i : Nat) (c : Option Nat)
    (r : Region) : Maintains I E (allocFromCache pool size align minVirt maxVirt m i c r) := by
  induction m generalizing i c r with
  | zero => exact .pure _
  | succ m ih =>
      cases c with
      | none => exact .pure _
      | some c =>
          unfold allocFromCache
          refine .ite (.pure _) ?_
          dsimp only
          split
          · exact ih _ _ _
          · exact .ite (.pure _) (ih _ _ _)
          · refine .bind h.avmfAllocIhdr fun node => .ite (ih _ _ _) ?_
            exact .bind (splitCache_maintains h _ _ _ _) fun found => .ite (.pure _) (ih _ _ _)

theorem linkNew_maintains (r : Region) (size base node : Nat) :
    Maintains I E (linkNew pool r size base node) := by
  unfold linkNew
  dsimp only
  refine .ite (.pure _) (.bind h.avmfAllocIrange fun addr => .ite ?_ ?_)
  · exact .bind (h.avmfFreeIrange _) fun _ => .bind (h.avmfFreeIhdr _) fun _ => .pure _
  · exact .bind (h.avmfFreeIhdr _) fun _ => .pure _

theorem cutRange_maintains (r : Region) (size base node : Nat) (cur : Range) (rest : List Range) :
    Maintains I E (cutRange pool r size base node cur rest) := by
  have hlink (r : Region) : Maintains I E (linkNew pool r size base node) :=
    linkNew_maintains h r size base node
  unfold cutRange
  dsimp only
  refine .ite (.bind (h.avmfFreeIrange _) fun _ => hlink _) (.ite (hlink _) (.ite (hlink _) ?_))
  refine .bind h.avmfAllocIrange fun addr => .ite ?_ (hlink _)
  exact .bind (h.avmfFreeIhdr _) fun _ => .pure _

theorem allocFromFree_maintains (r : Region) (size align minVirt maxVirt : Nat) :
    Maintains I E (allocFromFree pool r size align minVirt maxVirt) := by
  unfold allocFromFree
  split
  · exact .pure _
  · refine .ite (.bind h.avmfAllocIhdr fun node => .ite (.pure _) ?_) (.pure _)
    exact cutRange_maintains h _ _ _ _ _ _

theorem avmfRegionAlloc_maintains (r : Region) (size align minVirt maxVirt : Nat) :
    Maintains I E (avmfRegionAlloc pool r size align minVirt maxVirt) := by
  unfold avmfRegionAlloc
  refine .ite (.pure _) (.bind (allocFromCache_maintains h _ _ _ _ _ _ _ _) fun found => ?_)
  exact .ite (.pure _) (allocFromFree_maintains h _ _ _ _ _)

theorem addToFreeList_maintains (r : Region) (c : Nat) :
    Maintains I E (addToFreeList pool r c) := by
  unfold addToFreeList
  refine .bind h.avmfAllocIrange fun addr => .ite (.pure _) ?_
  split
  · exact .bind (h.avmfFreeIrange _) fun _ => .pure _
  · exact .pure _

theorem freeHeader_maintains (r : Region) (c : Nat) : Maintains I E (freeHeader pool r c) := by
  unfold freeHeader
  exact .ite (.ite (.pure _) (addToFreeList_maintains h _ _)) (addToFreeList_maintains h _ _)

theorem avmfRegionFree_maintains (r : Region) (base size : Nat) :
    Maintains I E (avmfRegionFree pool r base size) := by
  unfold avmfRegionFree
  refine .ite (.pure _) ?_
  dsimp only
  split
  · exact .pure _
  · exact freeHeader_maintains h _ _

end Maintains

-- The calls a region makes move the state along `R`.
structure NodePool.Keeps (pool : NodePool ε σ) (R : σ → σ → Prop) : Prop where
  avmfAllocIhdr : Verif.Keeps R pool.avmfAllocIhdr
  avmfFreeIhdr : ∀ node, Verif.Keeps R (pool.avmfFreeIhdr node)
  avmfAllocIrange : Verif.Keeps R pool.avmfAllocIrange
  avmfFreeIrange : ∀ range, Verif.Keeps R (pool.avmfFreeIrange range)

variable {R : σ → σ → Prop} [IsPreorder σ R] (h : pool.Keeps R)

include h

theorem NodePool.Keeps.maintains (s : σ) : pool.Maintains (R s) fun _ => True where
  avmfAllocIhdr := Keeps.iff_maintains.mp h.avmfAllocIhdr s
  avmfFreeIhdr node := Keeps.iff_maintains.mp (h.avmfFreeIhdr node) s
  avmfAllocIrange := Keeps.iff_maintains.mp h.avmfAllocIrange s
  avmfFreeIrange range := Keeps.iff_maintains.mp (h.avmfFreeIrange range) s

theorem avmfRegionAlloc_keeps (r : Region) (size align minVirt maxVirt : Nat) :
    Keeps R (avmfRegionAlloc pool r size align minVirt maxVirt) :=
  Keeps.iff_maintains.mpr fun s => avmfRegionAlloc_maintains (h.maintains s) r size align minVirt
    maxVirt

theorem avmfRegionFree_keeps (r : Region) (base size : Nat) :
    Keeps R (avmfRegionFree pool r base size) :=
  Keeps.iff_maintains.mpr fun s => avmfRegionFree_maintains (h.maintains s) r base size

end Region

section Rest

variable {π : Type} {sv : Services π}

section Maintains

variable {I : MmState π → Prop} {E : Halt → Prop}

-- The stores of the allocators of list nodes maintain `I`.
structure NodeStores (I : MmState π → Prop) (E : Halt → Prop) : Prop where
  lock : Maintains I E (spinLock .avmf2)
  unlock : Maintains I E (spinUnlock .avmf2)
  node : ∀ f : Avmf → Avmf, (∀ a, (f a).regions = a.regions) →
    (∀ a, (f a).physicalRegions = a.physicalRegions) → (∀ a, (f a).bitmap = a.bitmap) →
    Maintains I E (modifyAvmf f)

-- So does their taking and giving back of physical pages.
structure NodeSteps (I : MmState π → Prop) (E : Halt → Prop) : Prop extends NodeStores I E where
  allocPage : Maintains I E avmfAllocPhysPage
  freePage : ∀ phys, Maintains I E (avmfFreePhysPage phys)

-- What an allocation is made of besides its list nodes: the stores that leave
-- the physical memory alone, and the call that takes pages of it. No code of
-- avmf.c gives the lock of the page tables back.
structure AvmfSteps (I : MmState π → Prop) (E : Halt → Prop) : Prop where
  lock : ∀ l, Maintains I E (spinLock l)
  unlock : ∀ l, l ≠ .pml4 → Maintains I E (spinUnlock l)
  request : ∀ q, Maintains I E (modify fun s => { s with requests := s.requests ++ [q] })
  store : ∀ f : Avmf → Avmf, (∀ a, (f a).physicalRegions = a.physicalRegions) →
    (∀ a, (f a).bitmap = a.bitmap) → Maintains I E (modifyAvmf f)
  allocPages : ∀ size, Maintains I E (avmfAllocPhysContiguous size)

theorem AvmfSteps.nodeStores {I : MmState π → Prop} {E : Halt → Prop} (h : AvmfSteps I E) :
    NodeStores I E where
  lock := h.lock _
  unlock := h.unlock _ nofun
  node f _ hphys hbitmap := h.store f hphys hbitmap

-- Physical pages can be taken and given back one by one as well.
theorem AvmfSteps.nodes {I : MmState π → Prop} {E : Halt → Prop} (h : AvmfSteps I E)
    (hpage : Maintains I E avmfAllocPhysPage)
    (hfree : ∀ phys, Maintains I E (avmfFreePhysPage phys)) : NodeSteps I E where
  toNodeStores := h.nodeStores
  allocPage := hpage
  freePage := hfree

structure Services.Maintains (sv : Services π) (I : MmState π → Prop) (E : Halt → Prop) :
    Prop where
  pagerMap : ∀ virt phys flags, Verif.Maintains I E (sv.pagerMap virt phys flags)
  pagerMapRange : ∀ virt phys size flags,
    Verif.Maintains I E (sv.pagerMapRange virt phys size flags)
  pagerUnmap : ∀ virt, Verif.Maintains I E (sv.pagerUnmap virt)

@[simp] theorem setNodePage_regions (a : Avmf) (kind : NodeKind) (page : NodePage) :
    (a.setNodePage kind page).regions = a.regions := by cases kind <;> rfl

@[simp] theorem setNodePage_physicalRegions (a : Avmf) (kind : NodeKind) (page : NodePage) :
    (a.setNodePage kind page).physicalRegions = a.physicalRegions := by cases kind <;> rfl

@[simp] theorem setNodePage_bitmap (a : Avmf) (kind : NodeKind) (page : NodePage) :
    (a.setNodePage kind page).bitmap = a.bitmap := by cases kind <;> rfl

section Nodes

section Stores

variable (hI : NodeStores I E)

include hI

theorem setNodePage_maintains (kind : NodeKind) (page : NodePage) :
    Maintains I E (modifyAvmf fun a => a.setNodePage kind page : Exec Halt (MmState π) Unit) :=
  hI.node _ (fun a => setNodePage_regions a kind page)
    (fun a => setNodePage_physicalRegions a kind page) fun a => setNodePage_bitmap a kind page

theorem avmfFreeNode_maintains (kind : NodeKind) (addr : Nat) :
    Maintains I E (avmfFreeNode kind addr : Exec Halt (MmState π) Unit) := by
  unfold avmfFreeNode
  refine .bind hI.lock fun _ => .bind (hI.node _ (fun a => ?_) (fun a => ?_) fun a => ?_)
    fun _ => hI.unlock
  · dsimp only
    split <;> simp only [setNodePage_regions]
  · dsimp only
    split <;> simp only [setNodePage_physicalRegions]
  · dsimp only
    split <;> simp only [setNodePage_bitmap]

end Stores

variable (hI : NodeSteps I E)

include hI

theorem tryPhysPage_maintains (n : Nat) : Maintains I E (tryPhysPage n : Exec Halt (MmState π) Nat) := by
  induction n with
  | zero => exact .pure _
  | succ n ih => exact .bind hI.allocPage fun page => .ite (.pure _) ih

variable (h : ∀ virt phys flags, Maintains I E (sv.pagerMap virt phys flags))

include h

theorem avmfAllocNode_maintains (kind : NodeKind) : Maintains I E (avmfAllocNode sv kind) := by
  unfold avmfAllocNode
  refine .bind hI.lock fun _ => .get_bind fun s hs => Maintains.ite ?_ ?_ s hs
  · exact .bind (setNodePage_maintains hI.toNodeStores _ _) fun _ =>
      .bind hI.unlock fun _ => .pure _
  · refine .bind (tryPhysPage_maintains hI 3) fun page => .ite ?_ ?_
    · exact .bind hI.unlock fun _ => .pure _
    · refine .bind (h _ _ _) fun mapped => .ite ?_ ?_
      · exact .bind (setNodePage_maintains hI.toNodeStores _ _) fun _ =>
          .bind hI.unlock fun _ => .pure _
      · exact .bind (hI.freePage _) fun _ => .bind hI.unlock fun _ => .pure _

theorem nodePool_maintains : (nodePool sv).Maintains I E where
  avmfAllocIhdr := avmfAllocNode_maintains hI h .ihdr
  avmfFreeIhdr := avmfFreeNode_maintains hI.toNodeStores .ihdr
  avmfAllocIrange := avmfAllocNode_maintains hI h .irange
  avmfFreeIrange range := avmfFreeNode_maintains hI.toNodeStores .irange range.addr

end Nodes

variable (hI : AvmfSteps I E) (hpool : (nodePool sv).Maintains I E)

include hI hpool

theorem regionAllocAt_maintains (i size align minVirt maxVirt : Nat) :
    Maintains I E (regionAllocAt sv i size align minVirt maxVirt) := by
  unfold regionAllocAt
  refine .get_bind fun s hs => ?_
  split
  · exact hs
  · refine Maintains.ite (.pure _) (.bind (hI.lock _) fun _ => .bind (hI.request _) fun _ => ?_) s hs
    exact .bind (avmfRegionAlloc_maintains hpool _ _ _ _ _) fun _ =>
      .bind (hI.store _ (fun _ => rfl) fun _ => rfl) fun _ => .bind (hI.unlock _ nofun) fun _ => .pure _

theorem regionFreeAt_maintains (i base size : Nat) :
    Maintains I E (regionFreeAt sv i base size) := by
  unfold regionFreeAt
  refine .get_bind fun s hs => ?_
  split
  · exact hs
  · refine Maintains.ite (.pure _) (.bind (hI.lock _) fun _ => ?_) s hs
    exact .bind (avmfRegionFree_maintains hpool _ _ _) fun _ =>
      .bind (hI.store _ (fun _ => rfl) fun _ => rfl) fun _ => hI.unlock _ nofun

theorem avmfAllocHdrInternal_maintains (size : Nat) (type : MemoryAllocType) :
    Maintains I E (avmfAllocHdrInternal sv size type) := by
  unfold avmfAllocHdrInternal
  refine .ite (.pure _) ?_
  split
  · exact .pure _
  · refine .get_bind fun s hs => ?_
    split
    · exact hs
    · exact Maintains.bind (regionAllocAt_maintains hI hpool _ _ _ _ _) (fun _ => .pure _) s hs

theorem avmfAllocVirt_maintains (size : Nat) (type : MemoryAllocType) :
    Maintains I E (avmfAllocVirt sv size type) := by
  unfold avmfAllocVirt
  refine .bind (avmfAllocHdrInternal_maintains hI hpool _ _) fun found => ?_
  split <;> exact .pure _

variable (h : ∀ virt phys size flags, Maintains I E (sv.pagerMapRange virt phys size flags))

include h

theorem avmfAlloc_maintains (size : Nat) (type : MemoryAllocType) (flags : BitVec 32) :
    Maintains I E (avmfAlloc sv size type flags) := by
  unfold avmfAlloc
  refine .ite (.pure _) (.bind (avmfAllocHdrInternal_maintains hI hpool _ _) fun found => ?_)
  split
  · exact .pure _
  · refine .ite (.bind (h _ _ _ _) fun _ => .pure _) ?_
    refine .bind (hI.allocPages _) fun phys => .ite ?_ ?_
    · exact .bind (regionFreeAt_maintains hI hpool _ _ _) fun _ => .pure _
    · exact .bind (hI.store _ (fun _ => rfl) fun _ => rfl) fun _ =>
        .bind (h _ _ _ _) fun _ => .pure _

end Maintains

variable {R : π → π → Prop} [IsPreorder π R]

-- A preorder on what stands around the allocator.
def OnRest (R : π → π → Prop) (s t : MmState π) : Prop := R s.rest t.rest

instance : IsPreorder (MmState π) (OnRest R) where
  refl s := Std.Refl.refl (r := R) s.rest
  trans s t u := IsTrans.trans (r := R) s.rest t.rest u.rest

structure Services.Keeps (sv : Services π) (R : MmState π → MmState π → Prop) : Prop where
  pagerMap : ∀ virt phys flags, Verif.Keeps R (sv.pagerMap virt phys flags)
  pagerMapRange : ∀ virt phys size flags, Verif.Keeps R (sv.pagerMapRange virt phys size flags)
  pagerUnmap : ∀ virt, Verif.Keeps R (sv.pagerUnmap virt)

theorem Services.Keeps.maintains {R : MmState π → MmState π → Prop} [IsPreorder (MmState π) R]
    (h : sv.Keeps R) (s : MmState π) : sv.Maintains (R s) fun _ => True where
  pagerMap _ _ _ := Keeps.iff_maintains.mp (h.pagerMap _ _ _) s
  pagerMapRange _ _ _ _ := Keeps.iff_maintains.mp (h.pagerMapRange _ _ _ _) s
  pagerUnmap _ := Keeps.iff_maintains.mp (h.pagerUnmap _) s

theorem spinLock_keeps (l : Lock) : Keeps (OnRest R) (spinLock l) :=
  fun s => (sat_spinLock l s _ _).mpr ⟨fun _ => trivial, fun _ => Std.Refl.refl (r := R) s.rest⟩

theorem spinUnlock_keeps (l : Lock) : Keeps (OnRest R) (spinUnlock l) :=
  .modify fun s => Std.Refl.refl (r := R) s.rest

theorem modifyAvmf_keeps (f : Avmf → Avmf) : Keeps (OnRest R) (modifyAvmf f) :=
  .modify fun s => Std.Refl.refl (r := R) s.rest

theorem testPages_keeps (pages : List Nat) : Keeps (OnRest R) (testPages pages) :=
  .ite (.pure _) (.throw _)

theorem avmfAllocPhysPage_keeps : Keeps (OnRest R) avmfAllocPhysPage := by
  unfold avmfAllocPhysPage
  refine .bind (spinLock_keeps _) fun _ => .get_bind fun s => .bind (testPages_keeps _) fun _ => ?_
  split
  · exact .bind (modifyAvmf_keeps _) fun _ => .bind (spinUnlock_keeps _) fun _ =>
      .bind (spinLock_keeps _) fun _ => .bind (modifyAvmf_keeps _) fun _ =>
      .bind (spinUnlock_keeps _) fun _ => .pure _
  · exact .bind (spinUnlock_keeps _) fun _ => .pure _

theorem avmfFreePhysPage_keeps (phys : Nat) : Keeps (OnRest R) (avmfFreePhysPage phys) := by
  unfold avmfFreePhysPage
  refine .bind (spinLock_keeps _) fun _ => .get_bind fun s => ?_
  split
  · refine .bind (testPages_keeps _) fun _ => .ite ?_ (spinUnlock_keeps _)
    exact .bind (modifyAvmf_keeps _) fun _ => .bind (spinLock_keeps _) fun _ =>
      .bind (modifyAvmf_keeps _) fun _ => .bind (spinUnlock_keeps _) fun _ => spinUnlock_keeps _
  · exact spinUnlock_keeps _

theorem avmfAllocPhysContiguous_keeps (size : Nat) :
    Keeps (OnRest R) (avmfAllocPhysContiguous size) := by
  unfold avmfAllocPhysContiguous
  refine .ite (.pure _) (.bind (spinLock_keeps _) fun _ => .get_bind fun s =>
    .bind (testPages_keeps _) fun _ => ?_)
  split
  · exact .bind (modifyAvmf_keeps _) fun _ => .bind (spinUnlock_keeps _) fun _ =>
      .bind (spinLock_keeps _) fun _ => .bind (modifyAvmf_keeps _) fun _ =>
      .bind (spinUnlock_keeps _) fun _ => .pure _
  · exact .bind (spinUnlock_keeps _) fun _ => .pure _

theorem avmfSteps_onRest (s : MmState π) : AvmfSteps (OnRest R s) fun _ => True where
  lock l := Keeps.iff_maintains.mp (spinLock_keeps l) s
  unlock l _ := Keeps.iff_maintains.mp (spinUnlock_keeps l) s
  request _ _ ht := ht
  store f _ _ := Keeps.iff_maintains.mp (modifyAvmf_keeps f) s
  allocPages size := Keeps.iff_maintains.mp (avmfAllocPhysContiguous_keeps size) s

theorem nodePool_onRest (h : sv.Keeps (OnRest R)) (s : MmState π) :
    (nodePool sv).Maintains (OnRest R s) fun _ => True :=
  nodePool_maintains ((avmfSteps_onRest s).nodes
    (Keeps.iff_maintains.mp avmfAllocPhysPage_keeps s)
    fun phys => Keeps.iff_maintains.mp (avmfFreePhysPage_keeps phys) s) (h.maintains s).pagerMap

theorem avmfAllocVirt_keeps (h : sv.Keeps (OnRest R)) (size : Nat) (type : MemoryAllocType) :
    Keeps (OnRest R) (avmfAllocVirt sv size type) :=
  Keeps.iff_maintains.mpr fun s =>
    avmfAllocVirt_maintains (avmfSteps_onRest s) (nodePool_onRest h s) size type

theorem releasePages_keeps (h : sv.Keeps (OnRest R)) (page virt n : Nat) :
    Keeps (OnRest R) (releasePages sv page virt n) := by
  induction n generalizing page virt with
  | zero => exact .pure _
  | succ n ih =>
      unfold releasePages
      exact .ite (.throw _) (.bind (modifyAvmf_keeps _) fun _ => .bind (h.pagerUnmap _) fun _ => ih _ _)

theorem avmfFree_keeps (h : sv.Keeps (OnRest R)) (fuel virt : Nat) :
    Keeps (OnRest R) (avmfFree sv fuel virt) := by
  unfold avmfFree
  refine .ite (.pure _) (.get_bind fun s => ?_)
  split
  · exact .pure _
  split
  · exact .pure _
  split
  · exact .throw _
  · exact .pure _
  · refine .bind (spinLock_keeps _) fun _ => .bind (releasePages_keeps h _ _ _) fun _ =>
      .bind (spinUnlock_keeps _) fun _ => Keeps.iff_maintains.mpr fun s => ?_
    exact regionFreeAt_maintains (avmfSteps_onRest s) (nodePool_onRest h s) _ _ _

end Rest

end AosKernel.Mm
