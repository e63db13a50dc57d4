import AosKernel.Mm.LiveAllocations

namespace AosKernel.Mm

open Verif Verif.Exec Verif.Span

-- A physical region that holds pages is accepted, and the bitmap covers it.
def PhysRegionsValid (a : Avmf) : Prop :=
  ∀ r ∈ a.physicalRegions, (r.startPage < r.endPage → ¬ r.Rejected) ∧ r.endPage ≤ BITMAP_SIZE * 8

theorem PhysRegions.valid {bounds : List (Nat × Nat)} (h : PhysRegions bounds) :
    PhysRegionsValid (avmfInit bounds) := by
  intro r hr
  obtain ⟨i, hi, rfl⟩ := List.mem_mapIdx.mp hr
  have hfits := h.fits _ (List.getElem_mem hi)
  refine ⟨fun hlt => ?_, Nat.div_le_of_le_mul ?_⟩
  · have hbounds : (bounds[i].1 < bounds[i].2) := by
      simp only [Region.startPage, Region.endPage, avmfRegionInit, PAGE_SIZE] at hlt
      omega
    rintro (hbad | hbad | hbad | hbad)
    · exact hbad rfl
    · exact hbad rfl
    · exact absurd hbad (by simp only [avmfRegionInit]; omega)
    · exact absurd hbad (Nat.not_le_of_lt hbounds)
  · rw [Nat.mul_comm]
    exact hfits

theorem PhysRegionsValid.adjust {a : Avmf} (h : PhysRegionsValid a) (i : Nat) (f : Nat → Nat) :
    PhysRegionsValid (a.adjustAllocated i f) := by
  intro r hr
  obtain ⟨j, hj, rfl⟩ := List.mem_iff_getElem.mp hr
  simp only [Avmf.adjustAllocated, List.length_modify] at hj
  have hold := h _ (List.getElem_mem hj)
  simp only [Avmf.adjustAllocated, List.getElem_modify]
  split <;> exact hold

section Valid

variable {π : Type} {sv : Services π}

def StateValid (s : MmState π) : Prop := PhysRegionsValid s.avmf

theorem lock_valid (l : Lock) :
    Maintains StateValid (fun _ => True) (spinLock l : Exec Halt (MmState π) Unit) :=
  fun s hs => (sat_spinLock l s _ _).mpr ⟨fun _ => trivial, fun _ => hs⟩

theorem unlock_valid (l : Lock) :
    Maintains StateValid (fun _ => True) (spinUnlock l : Exec Halt (MmState π) Unit) :=
  .modify fun _ hs => hs

theorem store_valid {f : Avmf → Avmf} (hf : ∀ a, (f a).physicalRegions = a.physicalRegions) :
    Maintains StateValid (fun _ => True) (modifyAvmf f : Exec Halt (MmState π) Unit) :=
  .modify fun s hs => by
    rw [StateValid, PhysRegionsValid, hf]
    exact hs

theorem adjust_valid (i : Nat) (f : Nat → Nat) : Maintains StateValid (fun _ => True)
    (modifyAvmf fun a => a.adjustAllocated i f : Exec Halt (MmState π) Unit) :=
  .modify fun _ hs => PhysRegionsValid.adjust hs i f

theorem tests_valid (pages : List Nat) :
    Maintains StateValid (fun _ => True) (testPages pages : Exec Halt (MmState π) Unit) :=
  .ite (.pure _) (.throw trivial)

-- The bitmap is written, and then what the region counts.
theorem account_valid {α : Type} {f : Avmf → Avmf}
    (hf : ∀ a, (f a).physicalRegions = a.physicalRegions) (i : Nat) (count : Nat → Nat)
    {m : Exec Halt (MmState π) α} (hm : Maintains StateValid (fun _ => True) m) :
    Maintains StateValid (fun _ => True) (do
      modifyAvmf f
      spinUnlock .avmf
      spinLock (.physRegion i)
      modifyAvmf fun a => a.adjustAllocated i count
      m) :=
  .bind (store_valid hf) fun _ => .bind (unlock_valid _) fun _ => .bind (lock_valid _) fun _ =>
    .bind (adjust_valid _ _) fun _ => hm

theorem avmfAllocPhysPage_valid :
    Maintains StateValid (fun _ => True) (avmfAllocPhysPage : Exec Halt (MmState π) Nat) := by
  unfold avmfAllocPhysPage
  refine .bind (lock_valid _) fun _ => .get_bind fun s hs =>
    Maintains.bind (tests_valid _) (fun _ => ?_) s hs
  split
  · refine account_valid ?_ _ _ (.bind (unlock_valid _) fun _ => .pure _)
    exact fun _ => rfl
  · exact .bind (unlock_valid _) fun _ => .pure _

theorem avmfFreePhysPage_valid (phys : Nat) :
    Maintains StateValid (fun _ => True) (avmfFreePhysPage phys : Exec Halt (MmState π) Unit) := by
  unfold avmfFreePhysPage
  refine .bind (lock_valid _) fun _ => .get_bind fun s hs => ?_
  split
  · refine Maintains.bind (tests_valid _) (fun _ => .ite (.bind (store_valid ?_) fun _ =>
      .bind (lock_valid _) fun _ => .bind (adjust_valid _ _) fun _ => .bind (unlock_valid _)
      fun _ => unlock_valid _) (unlock_valid _)) s hs
    exact fun _ => rfl
  · exact unlock_valid _ s hs

theorem avmfAllocPhysContiguous_valid (size : Nat) : Maintains StateValid (fun _ => True)
    (avmfAllocPhysContiguous size : Exec Halt (MmState π) Nat) := by
  unfold avmfAllocPhysContiguous
  refine .ite (.pure _) (.bind (lock_valid _) fun _ => .get_bind fun s hs =>
    Maintains.bind (tests_valid _) (fun _ => ?_) s hs)
  split
  · refine account_valid ?_ _ _ (.bind (unlock_valid _) fun _ => .pure _)
    exact fun _ => rfl
  · exact .bind (unlock_valid _) fun _ => .pure _

theorem avmfFreePhysContiguous_valid (phys size : Nat) : Maintains StateValid (fun _ => True)
    (avmfFreePhysContiguous phys size : Exec Halt (MmState π) Unit) := by
  unfold avmfFreePhysContiguous
  refine .ite (.pure _) (.bind (lock_valid _) fun _ => .get_bind fun s hs =>
    Maintains.bind (tests_valid _) (fun _ => ?_) s hs)
  split
  · refine account_valid ?_ _ _ (unlock_valid _)
    exact fun _ => rfl
  · exact unlock_valid _

theorem avmfSteps_valid : AvmfSteps (StateValid (π := π)) fun _ => True where
  lock := lock_valid
  unlock l _ := unlock_valid l
  request _ := .modify fun _ hs => hs
  store _ hphys _ := store_valid hphys
  allocPages := avmfAllocPhysContiguous_valid

theorem nodePool_valid (h : sv.Maintains StateValid fun _ => True) :
    (nodePool sv).Maintains StateValid fun _ => True :=
  nodePool_maintains (avmfSteps_valid.nodes avmfAllocPhysPage_valid avmfFreePhysPage_valid)
    h.pagerMap

theorem releasePages_valid (h : sv.Maintains StateValid fun _ => True) (page virt n : Nat) :
    Maintains StateValid (fun _ => True) (releasePages sv page virt n) := by
  induction n generalizing page virt with
  | zero => exact .pure _
  | succ n ih =>
      unfold releasePages
      exact .ite (.throw trivial) (.bind (store_valid fun _ => rfl) fun _ =>
        .bind (h.pagerUnmap _) fun _ => ih _ _)

theorem avmfFree_valid (h : sv.Maintains StateValid fun _ => True) (fuel virt : Nat) :
    Maintains StateValid (fun _ => True) (avmfFree sv fuel virt) := by
  unfold avmfFree
  refine .ite (.pure _) (.get_bind fun s hs => ?_)
  split
  · exact hs
  split
  · exact hs
  split
  · trivial
  · exact hs
  · exact Maintains.bind (lock_valid _) (fun _ => .bind (releasePages_valid h _ _ _) fun _ =>
      .bind (unlock_valid _) fun _ =>
      regionFreeAt_maintains avmfSteps_valid (nodePool_valid h) _ _ _) s hs

end Valid

theorem pagerParts_valid : PagerParts StateValid fun _ => True where
  lock := lock_valid _
  unlock := unlock_valid _
  write _ _ _ := .modify fun _ hs => hs
  link _ _ _ := .modify fun _ hs => hs
  null _ _ := trivial

theorem allocPageTable_valid {sv : Services Pager} (h : sv.Maintains StateValid fun _ => True) :
    Maintains StateValid (fun _ => True) (allocPageTable sv) := by
  have hwrite (f : Pager → Pager) : Maintains StateValid (fun _ => True) (modifyPager f) :=
    .modify fun _ hs => hs
  unfold allocPageTable takeTablePage
  refine .get_bind fun s hs => Maintains.ite ?_ (.ite (.pure _) ?_) s hs
  · refine .bind (.bind (avmfAllocPhysContiguous_valid _) fun phys => ?_) fun phys => ?_
    · exact .ite (.bind (hwrite _) fun _ => .pure _) (.pure _)
    · exact .bind (avmfAllocVirt_maintains avmfSteps_valid (nodePool_valid h) _ _) fun virt =>
        .ite (.pure _) (.bind (hwrite _) fun _ => .pure _)
  · exact .bind (hwrite _) fun _ => .ite (.pure _) (.bind (hwrite _) fun _ =>
      .bind (hwrite _) fun _ => .pure _)

theorem pagerServices_valid (depth : Nat) : (pagerServices depth).Maintains StateValid fun _ => True :=
  pagerServices_maintains pagerParts_valid trivial (fun _ => allocPageTable_valid) depth

theorem KernelStep.valid {s t : KernelUse} {call : KernelCall} (hs : PhysRegionsValid s.mm.avmf)
    (h : KernelStep s call t) : PhysRegionsValid t.mm.avmf := by
  have hend {α : Type} {m : Kernel α} {a : α} {mm : KernelState}
      (hm : Maintains StateValid (fun _ => True) m) (hr : Returns m s.mm a mm) :
      PhysRegionsValid mm.avmf := (hm s.mm hs).of_returns hr
  have hpool (depth : Nat) := nodePool_valid (pagerServices_valid depth)
  cases h with
  | @alloc mm depth _ _ _ _ _ h =>
      exact hend (avmfAlloc_maintains avmfSteps_valid (hpool depth)
        (pagerServices_valid depth).pagerMapRange _ _ _) h
  | @allocVirt mm depth _ _ _ h =>
      exact hend (avmfAllocVirt_maintains avmfSteps_valid (hpool depth) _ _) h
  | @free mm depth _ _ _ h => exact hend (avmfFree_valid (pagerServices_valid depth) _ _) h
  | allocPhys h => exact hend (avmfAllocPhysContiguous_valid _) h
  | freePhys _ h => exact hend (avmfFreePhysContiguous_valid _ _) h
  | @map mm depth _ _ _ _ h => exact hend ((pagerServices_valid depth).pagerMap _ _ _) h
  | @mapRange mm depth _ _ _ _ h =>
      exact hend ((pagerServices_valid depth).pagerMapRange _ _ _ _) h
  | @unmap mm depth _ h => exact hend ((pagerServices_valid depth).pagerUnmap _) h

-- avmf_free_phys_contiguous of one page, on the allocator's data alone.
def Avmf.giveBack (a : Avmf) (page : Nat) : Avmf :=
  match findPhysRegion (holdsMarked a.bitmap page 1) 0 a.physicalRegions with
  | some (i, _) =>
      ({ a with bitmap := clearPages a.bitmap page 1 }).adjustAllocated i (· - 1 * PAGE_SIZE)
  | none => a

theorem giveBack_valid {a : Avmf} (h : PhysRegionsValid a) (page : Nat) :
    PhysRegionsValid (a.giveBack page) := by
  unfold Avmf.giveBack
  split
  · have hcleared : PhysRegionsValid { a with bitmap := clearPages a.bitmap page 1 } := h
    exact hcleared.adjust _ _
  · exact h

end AosKernel.Mm
