import AosKernel.Mm.PagerKeeps

namespace AosKernel.Mm

open Verif Verif.Exec

variable {π : Type} {α β : Type}

-- Code that runs with `locks` taken last and gives them back.
def GivesBack (locks : List Lock) (m : Exec Halt (MmState π) α) : Prop :=
  ∀ s held, s.held = locks ++ held → Sat m s (fun _ t => t.held = held) fun _ => True

-- The locks are held as before.
def SameLocks (s t : MmState π) : Prop := t.held = s.held

instance : IsPreorder (MmState π) SameLocks where
  refl _ := rfl
  trans _ _ _ h h' := Eq.trans h' h

namespace GivesBack

variable {locks : List Lock}

theorem keeps {m : Exec Halt (MmState π) α} (h : GivesBack [] m) : Keeps SameLocks m :=
  fun s => h s s.held rfl

theorem of_keeps {m : Exec Halt (MmState π) α} (h : Keeps SameLocks m) : GivesBack [] m :=
  fun s _ hs => (h s).imp fun _ _ ht => Eq.trans ht hs

theorem pure (a : α) : GivesBack [] (Pure.pure a : Exec Halt (MmState π) α) :=
  fun _ _ hs => hs

theorem throw (e : Halt) : GivesBack locks (MonadExcept.throw e : Exec Halt (MmState π) α) :=
  fun _ _ _ => trivial

theorem modify {f : MmState π → MmState π} (h : ∀ s, (f s).held = s.held) :
    GivesBack [] (modify f : Exec Halt (MmState π) PUnit) :=
  fun s _ hs => Eq.trans (h s) hs

theorem bind {m : Exec Halt (MmState π) α} {f : α → Exec Halt (MmState π) β}
    (hm : GivesBack [] m) (hf : ∀ a, GivesBack locks (f a)) : GivesBack locks (m >>= f) :=
  fun s held hs => Sat.bind (hm s s.held rfl) fun a t ht => hf a t held (Eq.trans ht hs)

theorem get_bind {f : MmState π → Exec Halt (MmState π) α} (hf : ∀ s, GivesBack locks (f s)) :
    GivesBack locks (get >>= f) :=
  bind (fun _ _ hs => hs) hf

theorem ite {c : Prop} [Decidable c] {m n : Exec Halt (MmState π) α} (hm : GivesBack locks m)
    (hn : GivesBack locks n) : GivesBack locks (if c then m else n) := by
  split
  · exact hm
  · exact hn

theorem lock {l : Lock} {f : Unit → Exec Halt (MmState π) α} (hf : GivesBack (l :: locks) (f ())) :
    GivesBack locks (spinLock l >>= f) := by
  intro s held hs
  rw [sat_bind, sat_spinLock]
  exact ⟨fun _ => trivial, fun _ => hf _ held (congrArg (l :: ·) hs)⟩

theorem unlock {l : Lock} {f : Unit → Exec Halt (MmState π) α} (hf : GivesBack locks (f ())) :
    GivesBack (l :: locks) (spinUnlock l >>= f) := by
  intro s held hs
  rw [sat_bind, sat_spinUnlock]
  refine hf _ held ?_
  dsimp only
  rw [hs, List.cons_append, List.erase_cons_head]

theorem unlock_last {l : Lock} : GivesBack [l] (spinUnlock l : Exec Halt (MmState π) Unit) := by
  intro s held hs
  rw [sat_spinUnlock, hs, List.cons_append, List.erase_cons_head, List.nil_append]

end GivesBack

theorem modifyAvmf_locks (f : Avmf → Avmf) :
    GivesBack [] (modifyAvmf f : Exec Halt (MmState π) Unit) :=
  .modify fun _ => rfl

theorem testPages_locks (pages : List Nat) :
    GivesBack [] (testPages pages : Exec Halt (MmState π) Unit) :=
  .ite (.pure _) (.throw _)

theorem avmfAllocPhysPage_locks :
    GivesBack [] (avmfAllocPhysPage : Exec Halt (MmState π) Nat) := by
  unfold avmfAllocPhysPage
  refine .lock (.get_bind fun s => .bind (testPages_locks _) fun _ => ?_)
  split
  · exact .bind (modifyAvmf_locks _) fun _ => .unlock (.lock (.bind (modifyAvmf_locks _) fun _ =>
      .unlock (.pure _)))
  · exact .unlock (.pure _)

theorem avmfFreePhysPage_locks (phys : Nat) :
    GivesBack [] (avmfFreePhysPage phys : Exec Halt (MmState π) Unit) := by
  unfold avmfFreePhysPage
  refine .lock (.get_bind fun s => ?_)
  split
  · refine .bind (testPages_locks _) fun _ => .ite ?_ .unlock_last
    exact .bind (modifyAvmf_locks _) fun _ => .lock (.bind (modifyAvmf_locks _) fun _ =>
      .unlock .unlock_last)
  · exact .unlock_last

theorem avmfAllocPhysContiguous_locks (size : Nat) :
    GivesBack [] (avmfAllocPhysContiguous size : Exec Halt (MmState π) Nat) := by
  unfold avmfAllocPhysContiguous
  refine .ite (.pure _) (.lock (.get_bind fun s => .bind (testPages_locks _) fun _ => ?_))
  split
  · exact .bind (modifyAvmf_locks _) fun _ => .unlock (.lock (.bind (modifyAvmf_locks _) fun _ =>
      .unlock (.pure _)))
  · exact .unlock (.pure _)

theorem avmfFreePhysContiguous_locks (phys size : Nat) :
    GivesBack [] (avmfFreePhysContiguous phys size : Exec Halt (MmState π) Unit) := by
  unfold avmfFreePhysContiguous
  refine .ite (.pure _) (.lock (.get_bind fun s => .bind (testPages_locks _) fun _ => ?_))
  split
  · exact .bind (modifyAvmf_locks _) fun _ => .unlock (.lock (.bind (modifyAvmf_locks _) fun _ =>
      .unlock_last))
  · exact .unlock_last

theorem tryPhysPage_locks (n : Nat) :
    GivesBack [] (tryPhysPage n : Exec Halt (MmState π) Nat) := by
  induction n with
  | zero => exact .pure _
  | succ n ih => exact .bind avmfAllocPhysPage_locks fun page => .ite (.pure _) ih

theorem avmfFreeNode_locks (kind : NodeKind) (addr : Nat) :
    GivesBack [] (avmfFreeNode kind addr : Exec Halt (MmState π) Unit) := by
  unfold avmfFreeNode
  exact .lock (.bind (modifyAvmf_locks _) fun _ => .unlock_last)

section Calls

variable {sv : Services π} (h : sv.Keeps SameLocks)

include h

theorem avmfAllocNode_locks (kind : NodeKind) : GivesBack [] (avmfAllocNode sv kind) := by
  unfold avmfAllocNode
  refine .lock (.get_bind fun s => .ite ?_ ?_)
  · exact .bind (modifyAvmf_locks _) fun _ => .unlock (.pure _)
  · refine .bind (tryPhysPage_locks 3) fun page => .ite (.unlock (.pure _)) ?_
    refine .bind (.of_keeps (h.pagerMap _ _ _)) fun mapped => .ite ?_ ?_
    · exact .bind (modifyAvmf_locks _) fun _ => .unlock (.pure _)
    · exact .bind (avmfFreePhysPage_locks _) fun _ => .unlock (.pure _)

theorem nodePool_locks : (nodePool sv).Keeps SameLocks where
  avmfAllocIhdr := (avmfAllocNode_locks h .ihdr).keeps
  avmfFreeIhdr node := (avmfFreeNode_locks .ihdr node).keeps
  avmfAllocIrange := (avmfAllocNode_locks h .irange).keeps
  avmfFreeIrange range := (avmfFreeNode_locks .irange range.addr).keeps

theorem regionAllocAt_locks (i size align minVirt maxVirt : Nat) :
    GivesBack [] (regionAllocAt sv i size align minVirt maxVirt) := by
  unfold regionAllocAt
  refine .get_bind fun s => ?_
  split
  · exact .pure _
  · refine .ite (.pure _) (.lock (.bind (.modify fun _ => rfl) fun _ => ?_))
    exact .bind (.of_keeps (avmfRegionAlloc_keeps (nodePool_locks h) _ _ _ _ _)) fun _ =>
      .bind (modifyAvmf_locks _) fun _ => .unlock (.pure _)

theorem regionFreeAt_locks (i base size : Nat) : GivesBack [] (regionFreeAt sv i base size) := by
  unfold regionFreeAt
  refine .get_bind fun s => ?_
  split
  · exact .pure _
  · refine .ite (.pure _) (.lock ?_)
    exact .bind (.of_keeps (avmfRegionFree_keeps (nodePool_locks h) _ _ _)) fun _ =>
      .bind (modifyAvmf_locks _) fun _ => .unlock_last

theorem avmfAllocHdrInternal_locks (size : Nat) (type : MemoryAllocType) :
    GivesBack [] (avmfAllocHdrInternal sv size type) := by
  unfold avmfAllocHdrInternal
  refine .ite (.pure _) ?_
  split
  · exact .pure _
  · refine .get_bind fun s => ?_
    split
    · exact .pure _
    · exact .bind (regionAllocAt_locks h _ _ _ _ _) fun _ => .pure _

theorem avmfAllocVirt_locks (size : Nat) (type : MemoryAllocType) :
    GivesBack [] (avmfAllocVirt sv size type) := by
  unfold avmfAllocVirt
  refine .bind (avmfAllocHdrInternal_locks h _ _) fun found => ?_
  split <;> exact .pure _

theorem avmfAlloc_locks (size : Nat) (type : MemoryAllocType) (flags : BitVec 32) :
    GivesBack [] (avmfAlloc sv size type flags) := by
  unfold avmfAlloc
  refine .ite (.pure _) (.bind (avmfAllocHdrInternal_locks h _ _) fun found => ?_)
  split
  · exact .pure _
  · refine .ite (.bind (.of_keeps (h.pagerMapRange _ _ _ _)) fun _ => .pure _) ?_
    refine .bind (avmfAllocPhysContiguous_locks _) fun phys => .ite ?_ ?_
    · exact .bind (regionFreeAt_locks h _ _ _) fun _ => .pure _
    · exact .bind (modifyAvmf_locks _) fun _ =>
        .bind (.of_keeps (h.pagerMapRange _ _ _ _)) fun _ => .pure _

theorem releasePages_locks (page virt n : Nat) : GivesBack [] (releasePages sv page virt n) := by
  induction n generalizing page virt with
  | zero => exact .pure _
  | succ n ih =>
      unfold releasePages
      exact .ite (.throw _) (.bind (modifyAvmf_locks _) fun _ =>
        .bind (.of_keeps (h.pagerUnmap _)) fun _ => ih _ _)

theorem avmfFree_locks (fuel virt : Nat) : GivesBack [] (avmfFree sv fuel virt) := by
  unfold avmfFree
  refine .ite (.pure _) (.get_bind fun s => ?_)
  split
  · exact .pure _
  split
  · exact .pure _
  split
  · exact .throw _
  · exact .pure _
  · exact .lock (.bind (releasePages_locks h _ _ _) fun _ => .unlock (regionFreeAt_locks h _ _ _))

end Calls

section Pager

theorem modifyPager_locks (f : Pager → Pager) : GivesBack [] (modifyPager f) := .modify fun _ => rfl

theorem readEntry_locks (a : PhysAddr) (i : Index) : GivesBack [] (readEntry a i) :=
  .get_bind fun _ => .pure _

theorem unmapFrom_locks (pml4 : PhysAddr) (virt : BitVec 64) :
    GivesBack [] (unmapFrom pml4 virt) := by
  unfold unmapFrom
  refine .bind (readEntry_locks _ _) fun e => .ite ?_ (.pure _)
  refine .bind (readEntry_locks _ _) fun e => .ite ?_ (.pure _)
  refine .bind (readEntry_locks _ _) fun e => .ite (modifyPager_locks _) (.ite ?_ (.pure _))
  exact .bind (readEntry_locks _ _) fun e => modifyPager_locks _

theorem pagerUnmap_locks (virt : BitVec 64) : GivesBack [] (pagerUnmap virt) := by
  unfold pagerUnmap
  refine .get_bind fun s => .ite (.lock ?_) (.pure _)
  split
  · exact .throw _
  · exact .bind (unmapFrom_locks _ _) fun _ => .unlock_last

variable {alloc : Kernel (Option PhysAddr)} (h : GivesBack [] alloc)

include h

theorem nextTable_locks (a : PhysAddr) (i : Index) : GivesBack [] (nextTable alloc a i) := by
  unfold nextTable
  refine .bind (readEntry_locks a i) fun e => .ite (.pure _) (.bind h fun r => ?_)
  split
  · exact .bind (modifyPager_locks _) fun _ => .pure _
  · exact .bind (modifyPager_locks _) fun _ => .throw _

theorem pagerMap_locks (virt phys flags : BitVec 64) :
    GivesBack [] (pagerMap alloc virt phys flags) := by
  unfold pagerMap
  refine .get_bind fun s => .ite (.pure _) ?_
  split
  · exact .pure _
  · refine .lock (.bind (nextTable_locks h _ _) fun pdpt => .bind (nextTable_locks h _ _) fun pd =>
      .ite ?_ ?_)
    · exact .bind (readEntry_locks _ _) fun old => .ite (.unlock (.pure _))
        (.bind (modifyPager_locks _) fun _ => .unlock (.pure _))
    · refine .bind (readEntry_locks _ _) fun old => .ite (.unlock (.pure _)) ?_
      exact .bind (nextTable_locks h _ _) fun pt => .bind (readEntry_locks _ _) fun old =>
        .ite (.unlock (.pure _)) (.bind (modifyPager_locks _) fun _ => .unlock (.pure _))

theorem mapRangeFrom_locks (virt phys : BitVec 64) (size : Nat) (flags : BitVec 64)
    (turns offset : Nat) :
    GivesBack [] (mapRangeFrom alloc virt phys size flags turns offset) := by
  induction turns generalizing offset with
  | zero => exact .pure _
  | succ turns ih =>
      unfold mapRangeFrom
      exact .ite (.ite (.bind (pagerMap_locks h _ _ _) fun _ => ih _)
        (.bind (pagerMap_locks h _ _ _) fun _ => ih _)) (.pure _)

end Pager

theorem allocPageTable_locks {sv : Services Pager} (h : sv.Keeps SameLocks) :
    GivesBack [] (allocPageTable sv) := by
  unfold allocPageTable takeTablePage
  refine .get_bind fun s => .ite ?_ (.ite (.pure _) ?_)
  · refine .bind (.bind (avmfAllocPhysContiguous_locks _) fun phys => .ite ?_ (.pure _)) fun phys => ?_
    · exact .bind (modifyPager_locks _) fun _ => .pure _
    · exact .bind (avmfAllocVirt_locks h _ _) fun virt => .ite (.pure _)
        (.bind (modifyPager_locks _) fun _ => .pure _)
  · exact .bind (modifyPager_locks _) fun _ => .ite (.pure _) (.bind (modifyPager_locks _) fun _ =>
      .bind (modifyPager_locks _) fun _ => .pure _)

-- No call of the memory manager returns with a lock more or less.
theorem pagerServices_locks (depth : Nat) : (pagerServices depth).Keeps SameLocks := by
  induction depth with
  | zero => exact ⟨fun _ _ _ => .throw _, fun _ _ _ _ => .throw _, fun _ => (pagerUnmap_locks _).keeps⟩
  | succ depth ih =>
      have h := allocPageTable_locks ih
      exact ⟨fun _ _ _ => (pagerMap_locks h _ _ _).keeps,
        fun _ _ _ _ => (mapRangeFrom_locks h _ _ _ _ _ _).keeps,
        fun _ => (pagerUnmap_locks _).keeps⟩

end AosKernel.Mm
