import AosKernel.Mm.AvmfKeeps
import AosKernel.Mm.Pager

namespace AosKernel.Mm

open Verif

section Maintains

variable {I : KernelState → Prop} {E : Halt → Prop}

-- The single steps of pager.c maintain `I`.
structure PagerParts (I : KernelState → Prop) (E : Halt → Prop) : Prop where
  lock : Maintains I E (spinLock .pml4)
  unlock : Maintains I E (spinUnlock .pml4)
  write : ∀ a i e, Maintains I E (writeEntry a i e)
  link : ∀ a i b, Maintains I E (writeTable a i b)
  null : ∀ s, I s → E .nullDeref

theorem readEntry_maintains (a : PhysAddr) (i : Index) : Maintains I E (readEntry a i) :=
  .get_bind fun _ hs => hs

-- What every pager_map maintains, a range of them maintains.
theorem mapRangeFrom_of_map {alloc : Kernel (Option PhysAddr)}
    (h : ∀ virt phys flags, Maintains I E (pagerMap alloc virt phys flags))
    (virt phys : BitVec 64) (size : Nat) (flags : BitVec 64) (turns offset : Nat) :
    Maintains I E (mapRangeFrom alloc virt phys size flags turns offset) := by
  induction turns generalizing offset with
  | zero => exact .pure _
  | succ turns ih =>
      unfold mapRangeFrom
      refine .ite (.ite ?_ ?_) (.pure _)
      · exact .bind (h _ _ _) fun _ => ih _
      · exact .bind (h _ _ _) fun _ => ih _

variable (hI : PagerParts I E)

include hI

theorem unmapFrom_maintains (pml4 : PhysAddr) (virt : BitVec 64) :
    Maintains I E (unmapFrom pml4 virt) := by
  unfold unmapFrom
  refine .bind (readEntry_maintains _ _) fun e => .ite ?_ (.pure _)
  refine .bind (readEntry_maintains _ _) fun e => .ite ?_ (.pure _)
  refine .bind (readEntry_maintains _ _) fun e => .ite (hI.write _ _ _) (.ite ?_ (.pure _))
  exact .bind (readEntry_maintains _ _) fun e => hI.write _ _ _

theorem pagerUnmap_maintains (virt : BitVec 64) : Maintains I E (pagerUnmap virt) := by
  unfold pagerUnmap
  refine .get_bind fun s hs => Maintains.ite (.bind hI.lock fun _ => ?_) (.pure _) s hs
  split
  · exact fun s hs => hI.null s hs
  · exact .bind (unmapFrom_maintains hI _ _) fun _ => hI.unlock

theorem mapHuge_maintains (pd : PhysAddr) (virt phys flags : BitVec 64) :
    Maintains I E (mapHuge pd virt phys flags) := by
  unfold mapHuge
  refine .bind (readEntry_maintains _ _) fun old => .ite ?_ ?_
  · exact .bind hI.unlock fun _ => .pure _
  · exact .bind (hI.write _ _ _) fun _ => .bind hI.unlock fun _ => .pure _

variable {alloc : Kernel (Option PhysAddr)} (h : Maintains I E alloc)

include h

theorem nextTable_maintains (a : PhysAddr) (i : Index) : Maintains I E (nextTable alloc a i) := by
  unfold nextTable
  refine .bind (readEntry_maintains a i) fun e => .ite (.pure _) (.bind h fun r => ?_)
  split
  · exact .bind (hI.link _ _ _) fun _ => .pure _
  · exact .bind (hI.link _ _ _) fun _ s hs => hI.null s hs

theorem mapPage_maintains (pd : PhysAddr) (virt phys flags : BitVec 64) :
    Maintains I E (mapPage alloc pd virt phys flags) := by
  unfold mapPage
  refine .bind (readEntry_maintains _ _) fun old => .ite ?_ ?_
  · exact .bind hI.unlock fun _ => .pure _
  · refine .bind (nextTable_maintains hI h _ _) fun pt =>
      .bind (readEntry_maintains _ _) fun old => ?_
    refine .ite (.bind hI.unlock fun _ => .pure _) ?_
    exact .bind (hI.write _ _ _) fun _ => .bind hI.unlock fun _ => .pure _

theorem mapBelow_maintains (pd : PhysAddr) (virt phys flags : BitVec 64) :
    Maintains I E
      (if huge flags then mapHuge pd virt phys flags else mapPage alloc pd virt phys flags) :=
  .ite (mapHuge_maintains hI pd virt phys flags) (mapPage_maintains hI h pd virt phys flags)

theorem pagerMap_maintains (virt phys flags : BitVec 64) :
    Maintains I E (pagerMap alloc virt phys flags) := by
  unfold pagerMap
  refine .get_bind fun s hs => Maintains.ite (.pure _) ?_ s hs
  split
  · exact .pure _
  · exact .bind hI.lock fun _ => .bind (nextTable_maintains hI h _ _) fun pdpt =>
      .bind (nextTable_maintains hI h _ _) fun pd => mapBelow_maintains hI h pd virt phys flags

theorem mapRangeFrom_maintains (virt phys : BitVec 64) (size : Nat) (flags : BitVec 64)
    (turns offset : Nat) :
    Maintains I E (mapRangeFrom alloc virt phys size flags turns offset) :=
  mapRangeFrom_of_map (fun _ _ _ => pagerMap_maintains hI h _ _ _) virt phys size flags turns offset

end Maintains

-- The nesting of allocator and pager, for an invariant that allocating a table
-- maintains as long as what it calls does.
theorem pagerServices_maintains {I : KernelState → Prop} {E : Halt → Prop} (hI : PagerParts I E)
    (hfuel : E .outOfFuel) (halloc : ∀ sv, sv.Maintains I E → Maintains I E (allocPageTable sv))
    (depth : Nat) : (pagerServices depth).Maintains I E := by
  induction depth with
  | zero =>
      exact ⟨fun _ _ _ => .throw hfuel, fun _ _ _ _ => .throw hfuel,
        fun _ => pagerUnmap_maintains hI _⟩
  | succ depth ih =>
      have h := halloc _ ih
      exact ⟨fun _ _ _ => pagerMap_maintains hI h _ _ _,
        fun _ _ _ _ => mapRangeFrom_maintains hI h _ _ _ _ _ _, fun _ => pagerUnmap_maintains hI _⟩

-- A preorder along which the single steps of pager.c move the state.
structure PagerSteps (R : KernelState → KernelState → Prop) : Prop where
  lock : Keeps R (spinLock .pml4)
  unlock : Keeps R (spinUnlock .pml4)
  write : ∀ a i e, Keeps R (writeEntry a i e)
  link : ∀ a i b, Keeps R (writeTable a i b)

section Calls

variable {R : KernelState → KernelState → Prop} [IsPreorder KernelState R] (hR : PagerSteps R)

theorem readEntry_keeps (a : PhysAddr) (i : Index) : Keeps R (readEntry a i) :=
  .get_bind fun _ => .pure _

include hR

theorem PagerSteps.maintains (s : KernelState) : PagerParts (R s) fun _ => True where
  lock := Keeps.iff_maintains.mp hR.lock s
  unlock := Keeps.iff_maintains.mp hR.unlock s
  write a i e := Keeps.iff_maintains.mp (hR.write a i e) s
  link a i b := Keeps.iff_maintains.mp (hR.link a i b) s
  null _ _ := trivial

theorem pagerUnmap_keeps (virt : BitVec 64) : Keeps R (pagerUnmap virt) :=
  Keeps.iff_maintains.mpr fun s => pagerUnmap_maintains (hR.maintains s) virt

variable {alloc : Kernel (Option PhysAddr)} (h : Keeps R alloc)

include h

theorem nextTable_keeps (a : PhysAddr) (i : Index) : Keeps R (nextTable alloc a i) :=
  Keeps.iff_maintains.mpr fun s =>
    nextTable_maintains (hR.maintains s) (Keeps.iff_maintains.mp h s) a i

theorem mapBelow_keeps (pd : PhysAddr) (virt phys flags : BitVec 64) :
    Keeps R (if huge flags then mapHuge pd virt phys flags else mapPage alloc pd virt phys flags) :=
  Keeps.iff_maintains.mpr fun s =>
    mapBelow_maintains (hR.maintains s) (Keeps.iff_maintains.mp h s) pd virt phys flags

theorem pagerMap_keeps (virt phys flags : BitVec 64) :
    Keeps R (pagerMap alloc virt phys flags) :=
  Keeps.iff_maintains.mpr fun s =>
    pagerMap_maintains (hR.maintains s) (Keeps.iff_maintains.mp h s) virt phys flags

theorem mapRangeFrom_keeps (virt phys : BitVec 64) (size : Nat) (flags : BitVec 64)
    (turns offset : Nat) : Keeps R (mapRangeFrom alloc virt phys size flags turns offset) :=
  Keeps.iff_maintains.mpr fun s => mapRangeFrom_maintains (hR.maintains s)
    (Keeps.iff_maintains.mp h s) virt phys size flags turns offset

end Calls

-- The same for a preorder.
theorem pagerServices_keeps {R : KernelState → KernelState → Prop} [IsPreorder KernelState R]
    (hR : PagerSteps R) (halloc : ∀ sv, sv.Keeps R → Keeps R (allocPageTable sv)) (depth : Nat) :
    (pagerServices depth).Keeps R := by
  induction depth with
  | zero => exact ⟨fun _ _ _ => .throw _, fun _ _ _ _ => .throw _, fun _ => pagerUnmap_keeps hR _⟩
  | succ depth ih =>
      have h := halloc _ ih
      exact ⟨fun _ _ _ => pagerMap_keeps hR h _ _ _,
        fun _ _ _ _ => mapRangeFrom_keeps hR h _ _ _ _ _ _, fun _ => pagerUnmap_keeps hR _⟩

end AosKernel.Mm
