import AosKernel.Mm.AvmfEffects
import AosKernel.Mm.Locking
import AosKernel.Mm.PagerFailure

namespace AosKernel.Mm

open Verif Verif.Exec Verif.Span Verif.Radix

-- A page of physical memory that the allocator hands out.
def PhysPage (a : Avmf) (p : Nat) : Prop :=
  ∃ b ∈ bounds a, b.1 / PAGE_SIZE ≤ p ∧ p < b.2 / PAGE_SIZE

theorem PhysPage.congr {a b : Avmf} {p : Nat} (h : bounds b = bounds a) :
    PhysPage b p ↔ PhysPage a p := by
  rw [PhysPage, PhysPage, h]

-- No page loses its mark, and what becomes a table was a page without one.
structure MarksGrow (s t : KernelState) : Prop where
  bounds : bounds t.avmf = bounds s.avmf
  marked : ∀ p, s.avmf.marked p = true → t.avmf.marked p = true
  ready : t.rest.ready = s.rest.ready
  loaded : t.rest.loaded = s.rest.loaded
  tables : s.rest.ready = true → (∀ b ∈ Mm.bounds s.avmf, b.2 ≤ 2 ^ 52) →
    ∀ a ∈ t.rest.tables, a ∈ s.rest.tables ∨ PhysPage s.avmf (a.toNat / PAGE_SIZE) ∧
      s.avmf.marked (a.toNat / PAGE_SIZE) = false ∧ t.avmf.marked (a.toNat / PAGE_SIZE) = true

instance : IsPreorder KernelState MarksGrow where
  refl _ := ⟨rfl, fun _ h => h, rfl, rfl, fun _ _ _ h => .inl h⟩
  trans s t u h h' := by
    refine ⟨h'.bounds.trans h.bounds, fun p hp => h'.marked p (h.marked p hp),
      h'.ready.trans h.ready, h'.loaded.trans h.loaded, fun hready hfits a ha => ?_⟩
    rcases h'.tables (h.ready.trans hready) (h.bounds ▸ hfits) a ha with hold | ⟨hin, hfree, htaken⟩
    · rcases h.tables hready hfits a hold with hold | ⟨hin, hfree, htaken⟩
      · exact .inl hold
      · exact .inr ⟨hin, hfree, h'.marked _ htaken⟩
    · refine .inr ⟨(PhysPage.congr h.bounds).mp hin, ?_, htaken⟩
      by_contra hmarked
      rw [h.marked _ (by simpa using hmarked)] at hfree
      cases hfree

theorem MarksGrow.refl (s : KernelState) : MarksGrow s s := Std.Refl.refl (r := MarksGrow) s

theorem MarksGrow.trans {s t u : KernelState} (h : MarksGrow s t) (h' : MarksGrow t u) :
    MarksGrow s u :=
  IsTrans.trans s t u h h'

theorem MarksGrow.of_rest {s t : KernelState} (hrest : t.rest = s.rest)
    (hbounds : Mm.bounds t.avmf = Mm.bounds s.avmf)
    (hmarked : ∀ p, s.avmf.marked p = true → t.avmf.marked p = true) : MarksGrow s t :=
  ⟨hbounds, hmarked, by rw [hrest], by rw [hrest], fun _ _ _ ha => .inl (hrest ▸ ha)⟩

theorem PagesTaken.marksGrow {size phys : Nat} {s t : KernelState} (h : PagesTaken size phys s t) :
    MarksGrow s t :=
  .of_rest h.rest h.bounds h.marked

theorem modifyPager_marks {f : Pager → Pager} (hready : ∀ p, (f p).ready = p.ready)
    (hloaded : ∀ p, (f p).loaded = p.loaded) (htables : ∀ p, (f p).tables = p.tables) :
    Keeps MarksGrow (modifyPager f) :=
  .modify fun s => ⟨rfl, fun _ h => h, hready s.rest, hloaded s.rest, fun _ _ _ ha =>
    .inl (htables s.rest ▸ ha)⟩

theorem pagerSteps_marks : PagerSteps MarksGrow where
  lock s := (sat_spinLock _ s _ _).mpr ⟨fun _ => trivial, fun _ => .of_rest rfl rfl fun _ h => h⟩
  unlock := .modify fun _ => .of_rest rfl rfl fun _ h => h
  write _ _ _ := modifyPager_marks (fun _ => rfl) (fun _ => rfl) fun _ => rfl
  link _ _ _ := modifyPager_marks (fun _ => rfl) (fun _ => rfl) fun _ => rfl

theorem avmfSteps_marks (s : KernelState) : AvmfSteps (MarksGrow s) fun _ => True where
  lock l t ht := (sat_spinLock l t _ _).mpr ⟨fun _ => trivial, fun _ =>
    ht.trans (.of_rest rfl rfl fun _ h => h)⟩
  unlock l _ := .modify fun t ht => ht.trans (.of_rest rfl rfl fun _ h => h)
  request q := .modify fun t ht => ht.trans (.of_rest rfl rfl fun _ h => h)
  store f hphys hbitmap := .modify fun t ht => ht.trans
    (.of_rest rfl (bounds_congr (hphys t.avmf)) fun p hp => by
      rwa [marked_congr (hbitmap t.avmf)])
  allocPages size t ht := (avmfAllocPhysContiguous_spec t size).imp fun _ u hu =>
    ht.trans hu.marksGrow

-- The page taken for list nodes goes back when it could not be mapped.
theorem MarksGrow.freed {page : Nat} {s t u v : KernelState} (ht : PagesTaken PAGE_SIZE page s t)
    (hne : page ≠ 0) (hu : MarksGrow t u) (hv : PagesFreed (pagesOf page PAGE_SIZE) u v) :
    MarksGrow s v := by
  have hsu := ht.marksGrow.trans hu
  refine ⟨hv.bounds.trans hsu.bounds, fun p hp => ?_, hv.rest ▸ hsu.ready, hv.rest ▸ hsu.loaded,
    fun hready hfits a ha => ?_⟩
  · rw [hv.marked p]
    · exact hsu.marked p hp
    · intro hmem
      rw [ht.free hne p hmem] at hp
      cases hp
  · rw [hv.rest] at ha
    rcases hu.tables (ht.rest ▸ hready) (ht.bounds ▸ hfits) a ha with hold | ⟨hin, hfree, htaken⟩
    · exact .inl (ht.rest ▸ hold)
    · refine .inr ⟨(PhysPage.congr ht.bounds).mp hin, ?_, ?_⟩
      · by_contra hmarked
        rw [ht.marked _ (by simpa using hmarked)] at hfree
        cases hfree
      · rw [hv.marked, htaken]
        intro hmem
        rw [ht.taken hne _ hmem] at hfree
        cases hfree

theorem nodeMoves_marks : NodeMoves MarksGrow where
  stores s := (avmfSteps_marks s).nodeStores
  taken h := h.marksGrow
  freed := MarksGrow.freed

theorem nodePool_marks {sv : Services Pager}
    (h : ∀ virt phys flags, Keeps MarksGrow (sv.pagerMap virt phys flags)) (s : KernelState) :
    (nodePool sv).Maintains (MarksGrow s) fun _ => True :=
  (nodePool_keeps nodeMoves_marks h).maintains s

theorem takeTablePage_marks : Keeps MarksGrow takeTablePage := by
  intro s
  unfold takeTablePage
  rw [sat_bind]
  refine (avmfAllocPhysContiguous_spec s PAGE_SIZE).imp fun phys t ht => ?_
  refine Sat.ite (fun hne => ?_) fun _ => ht.marksGrow
  refine ⟨ht.bounds, ht.marked, ht.marksGrow.ready, ht.marksGrow.loaded, fun _ hfits a ha => ?_⟩
  have hphys : phys ≠ 0 := by
    rintro rfl
    exact hne rfl
  have hlt : phys < 2 ^ 52 := ht.lt (by decide) fun r hr => hfits _ (List.mem_map_of_mem hr)
  have hnat : (BitVec.ofNat 64 phys).toNat = phys := by
    rw [BitVec.toNat_ofNat, Nat.mod_eq_of_lt (by omega)]
  have hmem : Mem (phys / PAGE_SIZE) (pagesOf phys PAGE_SIZE) := by
    simp [Mem, pagesOf, PAGE_SIZE]
  rcases List.mem_cons.mp ha with rfl | hold
  · rw [hnat]
    exact .inr ⟨ht.inside hphys, ht.free hphys _ hmem, ht.taken hphys _ hmem⟩
  · exact .inl (ht.rest ▸ hold)

theorem avmfAllocVirt_marks {sv : Services Pager}
    (h : ∀ virt phys flags, Keeps MarksGrow (sv.pagerMap virt phys flags)) (size : Nat)
    (type : MemoryAllocType) : Keeps MarksGrow (avmfAllocVirt sv size type) :=
  Keeps.iff_maintains.mpr fun s =>
    avmfAllocVirt_maintains (avmfSteps_marks s) (nodePool_marks h s) size type

theorem allocPageTable_marks {sv : Services Pager}
    (h : ∀ virt phys flags, Keeps MarksGrow (sv.pagerMap virt phys flags)) :
    Keeps MarksGrow (allocPageTable sv) := by
  intro s
  unfold allocPageTable
  rw [sat_bind, sat_get]
  have hzero (phys : PhysAddr) : Keeps MarksGrow (zeroTable phys) :=
    modifyPager_marks (fun _ => rfl) (fun _ => rfl) fun _ => rfl
  refine Sat.ite (fun _ => ?_) fun hready => Sat.ite (fun _ => MarksGrow.refl s) fun _ => ?_
  · exact Keeps.bind takeTablePage_marks (fun phys => .bind (avmfAllocVirt_marks h _ _) fun virt =>
      .ite (.pure _) (.bind (hzero _) fun _ => .pure _)) s
  · have hearly {t : KernelState} (havmf : t.avmf = s.avmf) (hready' : t.rest.ready = s.rest.ready)
        (hloaded : t.rest.loaded = s.rest.loaded) : MarksGrow s t :=
      ⟨by rw [havmf], fun p hp => by rwa [havmf], hready', hloaded, fun hr => absurd hr hready⟩
    exact Sat.ite (fun _ => hearly rfl rfl rfl) fun _ => hearly rfl rfl rfl

theorem pagerServices_marks (depth : Nat) : (pagerServices depth).Keeps MarksGrow :=
  pagerServices_keeps pagerSteps_marks (fun _ h => allocPageTable_marks h.pagerMap) depth

-- Under the lock of the page tables nobody else changes them.
def Frozen (s t : KernelState) : Prop := .pml4 ∈ s.held → .pml4 ∈ t.held ∧ t.rest = s.rest

instance : IsPreorder KernelState Frozen where
  refl _ h := ⟨h, rfl⟩
  trans _ _ _ h h' hlock := by
    obtain ⟨hlock', hrest⟩ := h hlock
    obtain ⟨hlock'', hrest'⟩ := h' hlock'
    exact ⟨hlock'', hrest'.trans hrest⟩

theorem avmfSteps_frozen (s : KernelState) : AvmfSteps (Frozen s) fun _ => True where
  lock l t ht := (sat_spinLock l t _ _).mpr ⟨fun _ => trivial, fun _ hlock =>
    ⟨List.mem_cons_of_mem _ (ht hlock).1, (ht hlock).2⟩⟩
  unlock _ hl := .modify fun _ ht hlock =>
    ⟨(List.mem_erase_of_ne hl.symm).mpr (ht hlock).1, (ht hlock).2⟩
  request _ := .modify fun _ ht => ht
  store _ _ _ := .modify fun _ ht => ht
  allocPages size t ht := (avmfAllocPhysContiguous_spec t size).imp fun _ _ hu hlock =>
    ⟨hu.held ▸ (ht hlock).1, hu.rest.trans (ht hlock).2⟩

-- With the lock held a nested pager_map answers without a look at the tables,
-- or does not come back.
theorem pagerServices_frozen (depth : Nat) (virt phys : Nat) (flags : BitVec 64) :
    Keeps Frozen ((pagerServices depth).pagerMap virt phys flags) := by
  intro s
  cases depth with
  | zero => trivial
  | succ depth =>
      change Sat (pagerMap (allocPageTable (pagerServices depth)) virt phys flags) s _ _
      by_cases hlock : .pml4 ∈ s.held
      · unfold pagerMap
        rw [sat_bind, sat_get]
        refine Sat.ite (fun _ h => ⟨h, rfl⟩) fun _ => ?_
        split
        · exact fun h => ⟨h, rfl⟩
        · rw [sat_bind, sat_spinLock]
          exact ⟨fun _ => trivial, fun hnot => absurd hlock hnot⟩
      · exact sat_of_forall_returns fun _ t _ h => absurd h hlock

theorem avmfAllocVirt_frozen (depth size : Nat) (type : MemoryAllocType) :
    Keeps Frozen (avmfAllocVirt (pagerServices depth) size type) := by
  refine Keeps.iff_maintains.mpr fun s => ?_
  refine avmfAllocVirt_maintains (avmfSteps_frozen s) (nodePool_maintains
    ((avmfSteps_frozen s).nodes (fun t ht => ?_) fun phys t ht => ?_) fun virt phys flags => ?_) _ _
  · exact (avmfAllocPhysPage_spec t).imp fun _ _ hu hlock =>
      ⟨hu.held ▸ (ht hlock).1, hu.rest.trans (ht hlock).2⟩
  · exact (avmfFreePhysPage_spec t phys).imp fun _ _ hu hlock =>
      ⟨hu.held ▸ (ht hlock).1, hu.rest.trans (ht hlock).2⟩
  · exact Keeps.iff_maintains.mp (pagerServices_frozen depth virt phys flags) s

end AosKernel.Mm
