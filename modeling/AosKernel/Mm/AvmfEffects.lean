import AosKernel.Mm.Ownership
import AosKernel.Mm.PagerKeeps

namespace AosKernel.Mm

open Verif Verif.Exec Verif.Span

-- The bounds of the physical regions, which no call changes.
def bounds (a : Avmf) : List (Nat × Nat) := a.physicalRegions.map fun r => (r.base, r.limit)

@[simp] theorem bounds_adjustAllocated (a : Avmf) (i : Nat) (f : Nat → Nat) :
    bounds (a.adjustAllocated i f) = bounds a := by
  apply List.ext_getElem
  · simp [bounds, Avmf.adjustAllocated]
  · intro j h₁ h₂
    simp only [bounds, Avmf.adjustAllocated, List.getElem_map, List.getElem_modify]
    split <;> rfl

@[simp] theorem bounds_avmfInit (phys : List (Nat × Nat)) : bounds (avmfInit phys) = phys := by
  apply List.ext_getElem
  · simp [bounds, avmfInit]
  · intro i h₁ h₂
    simp [bounds, avmfInit, avmfRegionInit]

theorem bounds_congr {a b : Avmf} (h : b.physicalRegions = a.physicalRegions) :
    bounds b = bounds a := by
  rw [bounds, bounds, h]

theorem marked_congr {a b : Avmf} (h : b.bitmap = a.bitmap) (p : Nat) :
    b.marked p = a.marked p := by
  rw [Avmf.marked, Avmf.marked, h]

-- Where the bounds are the same the regions end at the same addresses.
theorem fits_of_bounds {a b : Avmf} {top : Nat} (h : bounds b = bounds a)
    (hfits : ∀ r ∈ a.physicalRegions, r.limit ≤ top) : ∀ r ∈ b.physicalRegions, r.limit ≤ top := by
  intro r hr
  have hmem : (r.base, r.limit) ∈ bounds a := h ▸ List.mem_map.mpr ⟨r, hr, rfl⟩
  obtain ⟨r', hr', heq⟩ := List.mem_map.mp hmem
  rw [← (Prod.mk.inj heq).2]
  exact hfits r' hr'

-- Every region of virtual memory is partitioned, and physical memory ends
-- below 2^64.
structure AvmfInv (a : Avmf) : Prop where
  regions : ∀ r ∈ a.regions, ∃ v : VirtualRegion, r.Inv v.base v.limit
  fits : ∀ r ∈ a.physicalRegions, r.limit ≤ 2 ^ 64

-- No page loses its mark, and each page that gains owners gains a mark as well.
structure Room (s t : KernelState) : Prop where
  inv : AvmfInv t.avmf
  marked : ∀ p, s.avmf.marked p = true → t.avmf.marked p = true
  spare : ∀ p, cover (owners t) p + s.avmf.mark p ≤ cover (owners s) p + t.avmf.mark p

-- What the memory manager does on the way to an answer: it takes memory, and
-- leaves the regions alone whose locks are held.
structure Extends (s t : KernelState) : Prop where
  requests : s.requests <+: t.requests
  ready : t.rest.ready = s.rest.ready
  locked : ∀ i, .region i ∈ s.held →
    .region i ∈ t.held ∧ t.avmf.regions[i]? = s.avmf.regions[i]?
  room : s.rest.ready = true → AllClean t.requests → AvmfInv s.avmf → Room s t

theorem AllClean.of_prefix {l l' : List Request} (h : AllClean l') (hl : l <+: l') : AllClean l :=
  fun q hq => h q (hl.subset hq)

theorem Room.trans {s t u : KernelState} (h : Room s t) (h' : Room t u) : Room s u :=
  ⟨h'.inv, fun p hp => h'.marked p (h.marked p hp), fun p => by
    have := h.spare p
    have := h'.spare p
    omega⟩

instance : IsPreorder KernelState Extends where
  refl _ := ⟨List.prefix_refl _, rfl, fun _ h => ⟨h, rfl⟩, fun _ _ h =>
    ⟨h, fun _ h => h, fun _ => Nat.le_refl _⟩⟩
  trans s t u h h' := by
    refine ⟨h.requests.trans h'.requests, h'.ready.trans h.ready, fun i hi => ?_,
      fun hready hclean hinv => ?_⟩
    · obtain ⟨hheld, hregion⟩ := h.locked i hi
      obtain ⟨hheld', hregion'⟩ := h'.locked i hheld
      exact ⟨hheld', hregion'.trans hregion⟩
    · have hroom := h.room hready (hclean.of_prefix h'.requests) hinv
      exact hroom.trans (h'.room (h.ready.trans hready) hclean hroom.inv)

theorem Extends.refl (s : KernelState) : Extends s s := Std.Refl.refl (r := Extends) s

theorem Extends.trans {s t u : KernelState} (h : Extends s t) (h' : Extends t u) : Extends s u :=
  IsTrans.trans s t u h h'

-- A step that changes neither a region nor an owner and removes no mark.
theorem Extends.of_marks {s t : KernelState} (hrequests : t.requests = s.requests)
    (hready : t.rest.ready = s.rest.ready) (htables : t.rest.tables = s.rest.tables)
    (hheld : ∀ i, .region i ∈ s.held → .region i ∈ t.held)
    (hregions : t.avmf.regions = s.avmf.regions) (hbounds : bounds t.avmf = bounds s.avmf)
    (hmarked : ∀ p, s.avmf.marked p = true → t.avmf.marked p = true) : Extends s t := by
  have howners : owners t = owners s := by
    rw [owners, owners, htables, Avmf.owned, Avmf.owned, hregions]
  refine ⟨hrequests ▸ List.prefix_refl _, hready, fun i hi => ⟨hheld i hi, by rw [hregions]⟩,
    fun _ _ hinv => ⟨⟨hregions ▸ hinv.regions, fits_of_bounds hbounds hinv.fits⟩, hmarked, fun p => ?_⟩⟩
  rw [howners]
  exact Nat.add_le_add_left (Avmf.mark_le_of_imp (hmarked p)) _

@[simp] theorem adjustAllocated_marked (a : Avmf) (i : Nat) (f : Nat → Nat) (p : Nat) :
    (a.adjustAllocated i f).marked p = a.marked p := rfl

theorem spinLock_extends (l : Lock) : Keeps Extends (spinLock l) :=
  fun s => (sat_spinLock l s _ _).mpr ⟨fun _ => trivial, fun _ =>
    .of_marks rfl rfl rfl (fun _ hi => List.mem_cons_of_mem _ hi) rfl rfl fun _ h => h⟩

theorem spinUnlock_extends (l : Lock) (hl : ∀ i, l ≠ .region i) : Keeps Extends (spinUnlock l) :=
  .modify fun _ => .of_marks rfl rfl rfl (fun i hi => (List.mem_erase_of_ne (hl i).symm).mpr hi) rfl
    rfl fun _ h => h

theorem modifyAvmf_extends {f : Avmf → Avmf} (hregions : ∀ a, (f a).regions = a.regions)
    (hbounds : ∀ a, bounds (f a) = bounds a)
    (hmarked : ∀ a p, a.marked p = true → (f a).marked p = true) :
    Keeps Extends (modifyAvmf f) :=
  .modify fun s => .of_marks rfl rfl rfl (fun _ h => h) (hregions s.avmf)
    (hbounds s.avmf) (hmarked s.avmf)

theorem pagerWrite_extends {f : Pager → Pager} (htables : ∀ p, (f p).tables = p.tables)
    (hready : ∀ p, (f p).ready = p.ready) : Keeps Extends (modifyPager f) :=
  .modify fun s => .of_marks rfl (hready s.rest) (htables s.rest) (fun _ h => h) rfl
    rfl fun _ h => h

theorem pagerSteps_extends : PagerSteps Extends where
  lock := spinLock_extends _
  unlock := spinUnlock_extends _ nofun
  write _ _ _ := pagerWrite_extends (fun _ => rfl) fun _ => rfl
  link _ _ _ := pagerWrite_extends (fun _ => rfl) fun _ => rfl

theorem findPhysRegion_some {find : Region → Option Nat} {i j page : Nat} {list : List Region}
    (h : findPhysRegion find i list = some (j, page)) : ∃ r ∈ list, find r = some page := by
  induction list generalizing i with
  | nil => simp [findPhysRegion] at h
  | cons r rest ih =>
      unfold findPhysRegion at h
      split at h
      · obtain ⟨r', hr', hf⟩ := ih h
        exact ⟨r', List.mem_cons_of_mem _ hr', hf⟩
      · split at h
        · rename_i page' hfind
          cases h
          exact ⟨r, List.mem_cons_self, hfind⟩
        · obtain ⟨r', hr', hf⟩ := ih h
          exact ⟨r', List.mem_cons_of_mem _ hr', hf⟩

theorem physRegionTests_mem {find : Region → Option Nat} {tests : Region → List Nat}
    {list : List Region} {page : Nat} (h : page ∈ physRegionTests find tests list) :
    ∃ r ∈ list, page ∈ tests r := by
  induction list with
  | nil => cases h
  | cons r rest ih =>
      unfold physRegionTests at h
      split at h
      · obtain ⟨r', hr', hpage⟩ := ih h
        exact ⟨r', List.mem_cons_of_mem _ hr', hpage⟩
      · rcases List.mem_append.mp h with hpage | h
        · exact ⟨r, List.mem_cons_self, hpage⟩
        · split at h
          · cases h
          · obtain ⟨r', hr', hpage⟩ := ih h
            exact ⟨r', List.mem_cons_of_mem _ hr', hpage⟩

-- What taking physical memory of `size` bytes does: the pages at `phys` were
-- free and are marked, and no owner changes. Address 0 stands for no memory.
structure PagesTaken (size phys : Nat) (s t : KernelState) : Prop where
  rest : t.rest = s.rest
  requests : t.requests = s.requests
  held : t.held = s.held
  regions : t.avmf.regions = s.avmf.regions
  bounds : bounds t.avmf = bounds s.avmf
  marked : ∀ p, s.avmf.marked p = true → t.avmf.marked p = true
  aligned : PAGE_SIZE ∣ phys
  inside : phys ≠ 0 → ∃ b ∈ Mm.bounds s.avmf, b.1 / PAGE_SIZE ≤ phys / PAGE_SIZE ∧
    phys / PAGE_SIZE < b.2 / PAGE_SIZE
  free : phys ≠ 0 → ∀ p, Mem p (pagesOf phys size) → s.avmf.marked p = false
  taken : phys ≠ 0 → ∀ p, Mem p (pagesOf phys size) → t.avmf.marked p = true

theorem PagesTaken.none (size : Nat) (s : KernelState) : PagesTaken size 0 s s :=
  ⟨rfl, rfl, rfl, rfl, rfl, fun _ h => h, Nat.dvd_zero _, fun h => absurd rfl h,
    fun h => absurd rfl h, fun h => absurd rfl h⟩

theorem PagesTaken.toExtends {size phys : Nat} {s t : KernelState} (h : PagesTaken size phys s t) :
    Extends s t :=
  .of_marks h.requests (by rw [h.rest]) (by rw [h.rest]) (fun i hi => h.held ▸ hi) h.regions
    h.bounds h.marked

theorem PagesTaken.owners {size phys : Nat} {s t : KernelState} (h : PagesTaken size phys s t) :
    owners t = owners s := by
  rw [Mm.owners, Mm.owners, Avmf.owned, Avmf.owned, h.regions, h.rest]

theorem PagesTaken.inv {size phys : Nat} {s t : KernelState} (h : PagesTaken size phys s t)
    (hinv : AvmfInv s.avmf) : AvmfInv t.avmf :=
  ⟨h.regions ▸ hinv.regions, fits_of_bounds h.bounds hinv.fits⟩

theorem PagesTaken.lt {size phys : Nat} {s t : KernelState} (h : PagesTaken size phys s t)
    {top : Nat} (htop : 0 < top) (hfits : ∀ r ∈ s.avmf.physicalRegions, r.limit ≤ top) :
    phys < top := by
  by_cases hne : phys = 0
  · omega
  · obtain ⟨b, hb, -, hlast⟩ := h.inside hne
    obtain ⟨r, hr, rfl⟩ := List.mem_map.mp hb
    have hlimit := hfits r hr
    have haligned := h.aligned
    unfold PAGE_SIZE at *
    omega

-- The pages taken have room for an owner.
theorem PagesTaken.room {size phys : Nat} {s t : KernelState} (h : PagesTaken size phys s t)
    (hne : phys ≠ 0) (p : Nat) :
    (if Mem p (pagesOf phys size) then 1 else 0) + s.avmf.mark p ≤ t.avmf.mark p := by
  split
  · rename_i hp
    simp only [Avmf.mark, h.free hne p hp, h.taken hne p hp, if_true, Bool.false_eq_true, if_false]
    omega
  · rw [Nat.zero_add]
    exact Avmf.mark_le_of_imp (h.marked p)

-- A try that took nothing useful, and then another.
theorem PagesTaken.retry {size phys : Nat} {s t u : KernelState} (h : PagesTaken size 0 s t)
    (h' : PagesTaken size phys t u) : PagesTaken size phys s u where
  rest := h'.rest.trans h.rest
  requests := h'.requests.trans h.requests
  held := h'.held.trans h.held
  regions := h'.regions.trans h.regions
  bounds := h'.bounds.trans h.bounds
  marked p hp := h'.marked p (h.marked p hp)
  aligned := h'.aligned
  inside hne := h.bounds ▸ h'.inside hne
  free hne p hp := by
    by_contra hs
    have ht := h.marked p (by simpa using hs)
    rw [h'.free hne p hp] at ht
    cases ht
  taken := h'.taken

-- What giving pages back does: no other can lose its mark.
structure PagesFreed (pages : Span) (s t : KernelState) : Prop where
  rest : t.rest = s.rest
  requests : t.requests = s.requests
  held : t.held = s.held
  regions : t.avmf.regions = s.avmf.regions
  bounds : bounds t.avmf = bounds s.avmf
  marked : ∀ p, ¬ Mem p pages → t.avmf.marked p = s.avmf.marked p

theorem PagesFreed.none (pages : Span) (s : KernelState) : PagesFreed pages s s :=
  ⟨rfl, rfl, rfl, rfl, rfl, fun _ _ => rfl⟩

theorem PagesFreed.owners {pages : Span} {s t : KernelState} (h : PagesFreed pages s t) :
    owners t = owners s := by
  rw [Mm.owners, Mm.owners, Avmf.owned, Avmf.owned, h.regions, h.rest]

theorem PagesFreed.inv {pages : Span} {s t : KernelState} (h : PagesFreed pages s t)
    (hinv : AvmfInv s.avmf) : AvmfInv t.avmf :=
  ⟨h.regions ▸ hinv.regions, fits_of_bounds h.bounds hinv.fits⟩

section Pages

variable (s : KernelState)

theorem avmfAllocPhysPage_spec :
    Sat avmfAllocPhysPage s (fun phys t => PagesTaken PAGE_SIZE phys s t) fun _ => True := by
  unfold avmfAllocPhysPage
  simp only [sat_bind, sat_spinLock, sat_get, sat_testPages]
  refine ⟨fun _ => trivial, fun _ => ⟨fun _ => ?_, fun _ => trivial⟩⟩
  split
  · rename_i i page hfind
    obtain ⟨r, hr, hfirst⟩ := findPhysRegion_some hfind
    obtain ⟨hfirst, hlast, hclear⟩ := firstFree_some hfirst
    have hmem (p : Nat) (hp : Mem p (pagesOf (page * PAGE_SIZE) PAGE_SIZE)) : p = page := by
      simp only [Mem, pagesOf, PAGE_SIZE] at hp
      omega
    simp only [sat_bind, sat_modifyAvmf, sat_spinUnlock, sat_spinLock, sat_pure,
      List.erase_cons_head]
    refine ⟨fun _ => trivial, fun _ => ⟨rfl, rfl, rfl, rfl, bounds_adjustAllocated _ i _,
      fun p hp => ?_, Nat.dvd_mul_left _ _, fun _ => ⟨_, List.mem_map.mpr ⟨r, hr, rfl⟩, ?_⟩,
      fun _ p hp => hmem p hp ▸ hclear, fun _ p hp => ?_⟩⟩
    · rw [adjustAllocated_marked, Avmf.marked, bitmapTest_set, Bool.or_eq_true]
      exact .inr hp
    · have hpage : page * PAGE_SIZE / PAGE_SIZE = page := Nat.mul_div_cancel _ (by decide)
      simp only [Region.startPage, Region.pageCount, Region.endPage] at hfirst hlast
      simp only [hpage]
      omega
    · rw [adjustAllocated_marked, Avmf.marked, bitmapTest_set, hmem p hp, decide_eq_true rfl,
        Bool.true_or]
  · simp only [sat_bind, sat_spinUnlock, sat_pure, List.erase_cons_head]
    exact .none _ s

theorem avmfFreePhysPage_spec (phys : Nat) :
    Sat (avmfFreePhysPage phys) s (fun _ t => PagesFreed (pagesOf phys PAGE_SIZE) s t)
      fun _ => True := by
  unfold avmfFreePhysPage
  simp only [sat_bind, sat_spinLock, sat_get]
  refine ⟨fun _ => trivial, fun _ => ?_⟩
  split
  · rename_i i _ _
    simp only [sat_bind, sat_testPages]
    refine ⟨fun _ => Sat.ite (fun _ => ?_) fun _ => ?_, fun _ => trivial⟩
    · simp only [sat_bind, sat_modifyAvmf, sat_spinUnlock, sat_spinLock, List.erase_cons_head]
      refine ⟨fun _ => trivial, fun _ => ⟨rfl, rfl, rfl, rfl,
        bounds_adjustAllocated _ i (· - PAGE_SIZE), fun p hp => ?_⟩⟩
      have hne : p ≠ phys / PAGE_SIZE := by
        simp only [Mem, pagesOf, PAGE_SIZE] at hp
        unfold PAGE_SIZE
        omega
      rw [adjustAllocated_marked, Avmf.marked, bitmapTest_clear, decide_eq_false hne, Bool.not_false,
        Bool.true_and, Avmf.marked]
    · simp only [sat_spinUnlock, List.erase_cons_head]
      exact .none _ s
  · simp only [sat_spinUnlock, List.erase_cons_head]
    exact .none _ s

theorem avmfFreePhysContiguous_spec (phys size : Nat) :
    Sat (avmfFreePhysContiguous phys size) s
      (fun _ t => PagesFreed (pagesOf phys (align4k size)) s t) fun _ => True := by
  unfold avmfFreePhysContiguous
  refine Sat.ite (fun _ => .none _ s) fun _ => ?_
  simp only [sat_bind, sat_spinLock, sat_get, sat_testPages]
  refine ⟨fun _ => trivial, fun _ => ⟨fun _ => ?_, fun _ => trivial⟩⟩
  split
  · rename_i i _ _
    simp only [sat_bind, sat_modifyAvmf, sat_spinUnlock, sat_spinLock, List.erase_cons_head]
    refine ⟨fun _ => trivial, fun _ => ⟨rfl, rfl, rfl, rfl,
      bounds_adjustAllocated _ i (· - align4k size / PAGE_SIZE * PAGE_SIZE), fun p hp => ?_⟩⟩
    have hout : ¬ (phys / PAGE_SIZE ≤ p ∧
        p < phys / PAGE_SIZE + align4k size / PAGE_SIZE) := hp
    rw [adjustAllocated_marked, Avmf.marked, bitmapTest_clearPages, decide_eq_false hout,
      Bool.not_false, Bool.true_and, Avmf.marked]
  · simp only [sat_spinUnlock, List.erase_cons_head]
    exact .none _ s

theorem tryPhysPage_spec (n : Nat) :
    Sat (tryPhysPage n) s (fun phys t => PagesTaken PAGE_SIZE phys s t) fun _ => True := by
  induction n generalizing s with
  | zero => exact .none _ s
  | succ n ih =>
      unfold tryPhysPage
      refine Sat.bind (avmfAllocPhysPage_spec s) fun phys t ht => ?_
      refine Sat.ite (fun _ => ht) fun hzero => ?_
      have hzero : phys = 0 := by simpa using hzero
      subst hzero
      exact (ih t).imp fun _ u hu => ht.retry hu

theorem avmfAllocPhysContiguous_spec (size : Nat) :
    Sat (avmfAllocPhysContiguous size) s (fun phys t => PagesTaken (align4k size) phys s t)
      fun _ => True := by
  unfold avmfAllocPhysContiguous
  refine Sat.ite (fun _ => .none _ s) fun hsize => ?_
  simp only [sat_bind, sat_spinLock, sat_get, sat_testPages]
  refine ⟨fun _ => trivial, fun _ => ⟨fun _ => ?_, fun _ => trivial⟩⟩
  split
  · rename_i i first hfind
    obtain ⟨r, hr, hrun⟩ := findPhysRegion_some hfind
    have hneeded : 0 < align4k size / PAGE_SIZE :=
      Nat.div_pos (Nat.le_of_dvd (by omega) (PAGE_SIZE_dvd_align4k size)) (by decide)
    obtain ⟨hfirst, hlast, hfree⟩ :=
      firstRun_some (Nat.le_refl _) (by omega) (by omega) (by omega) hneeded hrun
    have hpage : first * PAGE_SIZE / PAGE_SIZE = first := Nat.mul_div_cancel _ (by decide)
    simp only [sat_bind, sat_modifyAvmf, sat_spinUnlock, sat_spinLock, sat_pure,
      List.erase_cons_head]
    refine ⟨fun _ => trivial, fun _ => ⟨rfl, rfl, rfl, rfl, bounds_adjustAllocated _ i _,
      fun p hp => ?_, Nat.dvd_mul_left _ _, fun _ => ⟨_, List.mem_map.mpr ⟨r, hr, rfl⟩, ?_⟩,
      fun _ p hp => ?_, fun _ p hp => ?_⟩⟩
    · rw [adjustAllocated_marked, Avmf.marked, bitmapTest_setPages, Bool.or_eq_true]
      exact .inr hp
    · have hpages : 0 < r.pageCount := by
        by_contra hnone
        rw [Nat.eq_zero_of_not_pos hnone, firstRun] at hrun
        cases hrun
      simp only [Region.startPage, Region.pageCount, Region.endPage] at hfirst hlast hpages
      simp only [hpage]
      omega
    · rw [pagesOf, hpage] at hp
      exact hfree p hp.1 hp.2
    · rw [pagesOf, hpage] at hp
      rw [adjustAllocated_marked, Avmf.marked, bitmapTest_setPages, Bool.or_eq_true]
      exact .inl (decide_eq_true hp)
  · simp only [sat_bind, sat_spinUnlock, sat_pure, List.erase_cons_head]
    exact .none _ s

end Pages

theorem takeTable_room {phys : Nat} {s t : KernelState} (h : PagesTaken PAGE_SIZE phys s t)
    (hne : BitVec.ofNat 64 phys ≠ 0) (hinv : AvmfInv s.avmf) :
    Room s { t with rest := { t.rest with tables := BitVec.ofNat 64 phys :: t.rest.tables } } := by
  have hphys : phys ≠ 0 := by
    rintro rfl
    exact hne rfl
  have hnat : (BitVec.ofNat 64 phys).toNat = phys := by
    rw [BitVec.toNat_ofNat, Nat.mod_eq_of_lt (h.lt (by decide) hinv.fits)]
  refine ⟨h.inv hinv, h.marked, fun p => ?_⟩
  have hroom := h.room hphys p
  have howners := congrArg (cover · p) h.owners
  simp only [owners, List.map_cons, cover_append, cover_cons, hnat] at howners ⊢
  omega

theorem takeTablePage_extends : Keeps Extends takeTablePage := by
  intro s
  unfold takeTablePage
  rw [sat_bind]
  refine (avmfAllocPhysContiguous_spec s PAGE_SIZE).imp fun phys t ht => ?_
  exact Sat.ite (fun hne =>
    { ht.toExtends with room := fun _ _ hinv => takeTable_room ht hne hinv }) fun _ => ht.toExtends

-- A preorder along which the allocators of list nodes move the state: along
-- their stores, with a page taken, and with a page that pager_map could not
-- map given back.
structure NodeMoves (R : KernelState → KernelState → Prop) : Prop where
  stores : ∀ s, NodeStores (R s) fun _ => True
  taken : ∀ {page s t}, PagesTaken PAGE_SIZE page s t → R s t
  freed : ∀ {page s t u v}, PagesTaken PAGE_SIZE page s t → page ≠ 0 → R t u →
    PagesFreed (pagesOf page PAGE_SIZE) u v → R s v

section Nodes

variable {sv : Services Pager} {R : KernelState → KernelState → Prop} [IsPreorder KernelState R]
  (hR : NodeMoves R) (h : ∀ virt phys flags, Keeps R (sv.pagerMap virt phys flags))

include hR h

theorem avmfAllocNode_keeps (kind : NodeKind) : Keeps R (avmfAllocNode sv kind) := by
  have hunlock {α : Type} (a : α) (s : KernelState) :
      Maintains (R s) (fun _ => True) (do spinUnlock .avmf2; return a) :=
    .bind (hR.stores s).unlock fun _ => .pure a
  intro s
  unfold avmfAllocNode
  refine Sat.bind ((hR.stores s).lock s (Std.Refl.refl (r := R) s)) fun _ s' hs => ?_
  rw [sat_bind, sat_get]
  refine Sat.ite (fun _ => ?_) fun _ => ?_
  · exact Maintains.bind (setNodePage_maintains (hR.stores s) _ _) (fun _ => hunlock _ s) s' hs
  · refine Sat.bind (tryPhysPage_spec s' 3) fun page t ht => Sat.ite (fun _ => ?_) fun hne => ?_
    · exact hunlock _ s t (IsTrans.trans s s' t hs (hR.taken ht))
    refine Sat.bind (h _ _ _ t) fun mapped u hu => Sat.ite (fun _ => ?_) fun _ => ?_
    · have hsu := IsTrans.trans s t u (IsTrans.trans s s' t hs (hR.taken ht)) hu
      exact Maintains.bind (setNodePage_maintains (hR.stores s) kind _) (fun _ => hunlock _ s) u hsu
    · refine Sat.bind (avmfFreePhysPage_spec u page) fun _ v hv => ?_
      exact hunlock _ s v (IsTrans.trans s s' v hs (hR.freed ht hne hu hv))

theorem nodePool_keeps : (nodePool sv).Keeps R where
  avmfAllocIhdr := avmfAllocNode_keeps hR h .ihdr
  avmfFreeIhdr node := Keeps.iff_maintains.mpr fun s => avmfFreeNode_maintains (hR.stores s) .ihdr node
  avmfAllocIrange := avmfAllocNode_keeps hR h .irange
  avmfFreeIrange range := Keeps.iff_maintains.mpr fun s =>
    avmfFreeNode_maintains (hR.stores s) .irange range.addr

end Nodes

-- A page taken for list nodes that pager_map could not map goes back.
theorem freed_extends {page : Nat} {s t u v : KernelState} (ht : PagesTaken PAGE_SIZE page s t)
    (hne : page ≠ 0) (hu : Extends t u) (hv : PagesFreed (pagesOf page PAGE_SIZE) u v) :
    Extends s v := by
  have hsu := ht.toExtends.trans hu
  refine ⟨hv.requests ▸ hsu.requests, hv.rest ▸ hsu.ready, fun i hi => ?_,
    fun hready hclean hinv => ?_⟩
  · rw [hv.held, hv.regions]
    exact hsu.locked i hi
  · rw [hv.requests] at hclean
    have hroom := hsu.room hready hclean hinv
    have hafter := hu.room (by rwa [ht.rest]) hclean (ht.inv hinv)
    refine ⟨hv.inv hroom.inv, fun p hp => ?_, fun p => ?_⟩
    · rw [hv.marked p]
      · exact hroom.marked p hp
      · intro hpage
        rw [ht.free hne p hpage] at hp
        cases hp
    · rw [hv.owners]
      by_cases hp : Mem p (pagesOf page PAGE_SIZE)
      · have hspare := hafter.spare p
        have hone := u.avmf.mark_le_one p
        simp only [ht.owners, Avmf.mark, ht.taken hne p hp, ht.free hne p hp, if_true,
          Bool.false_eq_true, if_false] at hspare hone ⊢
        omega
      · have hspare := hroom.spare p
        simp only [Avmf.mark, hv.marked p hp] at hspare ⊢
        exact hspare

theorem nodeMoves_extends : NodeMoves Extends where
  stores s := {
    lock := Keeps.iff_maintains.mp (spinLock_extends .avmf2) s
    unlock := Keeps.iff_maintains.mp (spinUnlock_extends .avmf2 nofun) s
    node := fun f hregions hphys hbitmap => Keeps.iff_maintains.mp (modifyAvmf_extends hregions
      (fun a => bounds_congr (hphys a)) fun a p hp => by rwa [marked_congr (hbitmap a)]) s }
  taken h := h.toExtends
  freed := freed_extends

theorem nodePool_extends {sv : Services Pager} (h : sv.Keeps Extends) :
    (nodePool sv).Keeps Extends :=
  nodePool_keeps nodeMoves_extends h.pagerMap

end AosKernel.Mm
