import AosKernel.Lib.Trace
import AosKernel.Mm.RegionEffects

namespace AosKernel.Mm

open Verif Verif.Exec Verif.Span Region

theorem align4k_align4k (size : Nat) : align4k (align4k size) = align4k size := by
  unfold align4k alignUpPage UINT64_MAX PAGE_SIZE
  split
  · rfl
  · rw [if_neg (by omega)]
    omega

theorem modify_eq_set_of_getElem? {α : Type} {l : List α} {i : Nat} {a : α} (f : α → α)
    (h : l[i]? = some a) : l.modify i f = l.set i (f a) := by
  apply List.ext_getElem?
  intro j
  rw [List.getElem?_modify, List.getElem?_set]
  by_cases hij : i = j
  · subst hij
    obtain ⟨hlt, rfl⟩ := List.getElem?_eq_some_iff.mp h
    simp [hlt]
  · simp [hij]

section SetPhys

variable {r : Region} {lo hi h a phys : Nat}

theorem setPhys_extent_self :
    (r.setPhys h phys).extent h = { r.extent h with physAddr := phys } := by
  rw [extent, Region.setPhys, modifyHeader, HeaderRegion.headers_modify_self]
  rfl

theorem setPhys_extent_of_ne (ha : a ≠ h) : (r.setPhys h phys).extent a = r.extent a := by
  rw [extent, Region.setPhys, modifyHeader, HeaderRegion.headers_modify_of_ne _ ha]
  rfl

theorem setPhys_header (x : Header → Prop) (hx : ∀ y, x y → x { y with physAddr := phys })
    (ha : x (r.headers a)) : x ((r.setPhys h phys).headers a) := by
  by_cases hah : a = h
  · rw [hah] at ha ⊢
    rw [Region.setPhys, modifyHeader, HeaderRegion.headers_modify_self]
    exact hx _ ha
  · rwa [Region.setPhys, modifyHeader, HeaderRegion.headers_modify_of_ne _ hah]

theorem setPhys_type : (r.setPhys h phys).type a = r.type a :=
  setPhys_header (fun y => y.type = r.type a) (fun _ hy => hy) rfl

theorem setPhys_span : ((r.setPhys h phys).extent a).span = (r.extent a).span :=
  setPhys_header (fun y => y.toExtent.span = (r.extent a).span) (fun _ hy => hy) rfl

theorem Region.Inv.setPhys (hinv : r.Inv lo hi) : (r.setPhys h phys).Inv lo hi := by
  have hspans : (r.setPhys h phys).extents.map Extent.span = r.extents.map Extent.span := by
    rw [extents, extents, List.map_map, List.map_map]
    exact List.map_congr_left fun a _ => setPhys_span
  refine ⟨hinv.signature, hinv.version, hinv.base_eq, hinv.limit_eq, hinv.count,
    fun a => setPhys_header Header.Intact (fun _ hy => hy) (hinv.intact a),
    fun a ha => setPhys_type.trans (hinv.unmade a ha), fun a ha => ?_, ?_, ?_⟩
  · have hsize : ((r.setPhys h phys).extent a).size = (r.extent a).size :=
      congrArg Span.size (@setPhys_span r h a phys)
    rw [hsize]
    exact hinv.pages a ha
  · have htiles := hinv.tiles
    rw [spans] at htiles ⊢
    rwa [hspans]
  · rw [hspans]
    exact hinv.allocated

theorem setPhys_owned (hh : h < r.made) (htype : r.type h = .alloc)
    (hzero : (r.extent h).physAddr = 0) (hne : phys ≠ 0) (p : Nat) :
    cover (r.setPhys h phys).owned p =
      cover r.owned p + if Mem p (pagesOf phys (r.extent h).size) then 1 else 0 := by
  have htrade : cover (r.setPhys h phys).owned p + cover (r.ownedBy h) p =
      cover r.owned p + cover ((r.setPhys h phys).ownedBy h) p := owned_trade hh rfl fun a _ ha =>
    ownedBy_congr (setPhys_extent_of_ne ha) (by rw [setPhys_type])
  have hnew : ({ r.extent h with physAddr := phys } : Extent).owned =
      [pagesOf phys (r.extent h).size] := if_pos (Nat.pos_of_ne_zero hne)
  rw [ownedBy_alloc htype, ownedBy_alloc (setPhys_type.trans htype), Extent.owned_zero hzero,
    setPhys_extent_self, hnew] at htrade
  simp only [cover_cons, cover_nil] at htrade
  omega

end SetPhys

-- The header of a new allocation gets the pages just taken for it.
theorem ownPages_extends {s t u : KernelState} {i size h : Nat} {hdr : Extent} {phys : Nat}
    (ht : Allocated i (align4k size) (some (h, hdr)) s t)
    (hu : PagesTaken (align4k hdr.size) phys t u) (hne : phys ≠ 0) :
    Extends s { u with avmf := { u.avmf with
      regions := u.avmf.regions.modify i fun r => r.setPhys h phys } } := by
  have hsu := ht.toExtends.trans hu.toExtends
  refine ⟨hsu.requests, hsu.ready, fun j hj => ?_, fun hready hclean hinv => ?_⟩
  · have hne : i ≠ j := by
      rintro rfl
      exact ht.unlocked nofun hj
    obtain ⟨hheld, hsame⟩ := hsu.locked j hj
    refine ⟨hheld, ?_⟩
    rw [List.getElem?_modify_ne _ _ hne]
    exact hsame
  · have hroom := hsu.room hready hclean hinv
    have hclean' : AllClean t.requests := by
      rw [← hu.requests]
      exact hclean
    obtain ⟨hzero, hsize, r, hregion, hmade, htype, rfl⟩ :=
      ht.linked h hdr rfl hready hclean' hinv
    rw [← hu.regions] at hregion
    have hset := modify_eq_set_of_getElem? (fun r => r.setPhys h phys) hregion
    rw [hset]
    change Room s { u with avmf := u.avmf.setRegion i (r.setPhys h phys) }
    refine ⟨hroom.inv.setRegion ?_, hroom.marked, fun p => ?_⟩
    · obtain ⟨v, hv⟩ := hroom.inv.regions r (List.mem_of_getElem? hregion)
      exact ⟨v, hv.setPhys⟩
    · have hspare := (ht.toExtends.room hready hclean' hinv).spare p
      have hpages := hu.room hne p
      have howners := owners_setRegion hregion (r.setPhys h phys) p
      rw [setPhys_owned hmade htype hzero hne, hu.owners] at howners
      rw [hsize, align4k_align4k, ← hsize] at hpages
      change _ ≤ _ + u.avmf.mark p
      omega

theorem avmfAlloc_extends {sv : Services Pager} (h : sv.Keeps Extends) (size : Nat)
    (type : MemoryAllocType) (flags : BitVec 32) : Keeps Extends (avmfAlloc sv size type flags) := by
  intro s
  unfold avmfAlloc
  dsimp only
  refine Sat.ite (fun _ => Extends.refl s) fun _ => ?_
  refine Sat.bind (avmfAllocHdrInternal_spec h _ (PAGE_SIZE_dvd_align4k size) type s)
    fun found t ht => ?_
  split
  · exact ht.1
  · rename_i i a hdr
    have hhdr := ht.2 i (a, hdr) rfl
    refine Sat.ite (fun _ => ?_) fun _ => ?_
    · exact (Keeps.bind (h.pagerMapRange _ _ _ _) (fun _ => .pure _) t).imp fun _ _ hu =>
        ht.1.trans hu
    · refine Sat.bind (avmfAllocPhysContiguous_spec t hdr.size) fun phys u hu => ?_
      refine Sat.ite (fun _ => ?_) fun hne => ?_
      · exact (Keeps.bind (regionFreeAt_extends h _ _ _) (fun _ => .pure _) u).imp fun _ _ hv =>
          (ht.1.trans hu.toExtends).trans hv
      · rw [sat_bind, sat_modifyAvmf]
        exact (Keeps.bind (h.pagerMapRange _ _ _ _) (fun _ => .pure _) _).imp fun _ _ hv =>
          (ownPages_extends hhdr hu hne).trans hv

-- The header that avmf_free finds for an address: its region, its number there
-- and what it stands for.
def freedHeader (a : Avmf) (fuel virt : Nat) : Option (Nat × Nat × Extent) :=
  if virt = 0 then none
  else (avmfFindRegion a virt UINT64_MAX ((virt + 1) % 2 ^ 64)).bind fun i =>
    (a.regions[i]?).bind fun r =>
      (findCovering r virt fuel (r.lists .alloc).list).join.map fun h => (i, h, r.extent h)

-- The walk of avmf_region_free for what the header stands for comes to it.
def Avmf.FreeReaches (a : Avmf) (i h : Nat) (hdr : Extent) : Prop :=
  ∃ r ∈ a.regions[i]?, r.freeTarget hdr.virtAddr hdr.size = some h

instance (a : Avmf) (i h : Nat) (hdr : Extent) : Decidable (a.FreeReaches i h hdr) := by
  unfold Avmf.FreeReaches; infer_instance

section Free

-- pager_unmap changes nothing the allocator works on.
structure SameMemory (s t : KernelState) : Prop where
  avmf : t.avmf = s.avmf
  requests : t.requests = s.requests
  ready : t.rest.ready = s.rest.ready
  tables : t.rest.tables = s.rest.tables

instance : IsPreorder KernelState SameMemory where
  refl _ := ⟨rfl, rfl, rfl, rfl⟩
  trans _ _ _ h h' := ⟨h'.avmf.trans h.avmf, h'.requests.trans h.requests, h'.ready.trans h.ready,
    h'.tables.trans h.tables⟩

theorem pagerSteps_sameMemory : PagerSteps SameMemory where
  lock s := (sat_spinLock _ s _ _).mpr ⟨fun _ => trivial, fun _ => ⟨rfl, rfl, rfl, rfl⟩⟩
  unlock := .modify fun _ => ⟨rfl, rfl, rfl, rfl⟩
  write _ _ _ := .modify fun _ => ⟨rfl, rfl, rfl, rfl⟩
  link _ _ _ := .modify fun _ => ⟨rfl, rfl, rfl, rfl⟩

theorem pagerServices_unmap (depth virt : Nat) :
    Keeps SameMemory ((pagerServices depth).pagerUnmap virt) := by
  cases depth <;> exact pagerUnmap_keeps pagerSteps_sameMemory virt

-- What the loop of avmf_free does: exactly `pages` lose their marks.
structure Released (pages : Span) (s t : KernelState) : Prop where
  regions : t.avmf.regions = s.avmf.regions
  physicalRegions : t.avmf.physicalRegions = s.avmf.physicalRegions
  requests : t.requests = s.requests
  ready : t.rest.ready = s.rest.ready
  tables : t.rest.tables = s.rest.tables
  marked : ∀ p, t.avmf.marked p = true ↔ s.avmf.marked p = true ∧ ¬ Mem p pages

theorem releasePages_spec {sv : Services Pager} (h : ∀ virt, Keeps SameMemory (sv.pagerUnmap virt))
    (n page virt : Nat) (s : KernelState) :
    Sat (releasePages sv page virt n) s (fun _ t => Released ⟨page, n⟩ s t) fun _ => True := by
  induction n generalizing page virt s with
  | zero => exact ⟨rfl, rfl, rfl, rfl, rfl, fun p => by simp [not_mem_empty]⟩
  | succ n ih =>
      unfold releasePages
      refine Sat.ite (fun _ => trivial) fun _ => ?_
      rw [sat_bind, sat_modifyAvmf]
      refine Sat.bind (h virt _) fun _ t ht => (ih (page + 1) (virt + PAGE_SIZE) t).imp
        fun _ u hu => ?_
      refine ⟨hu.regions.trans (by rw [ht.avmf]), hu.physicalRegions.trans (by rw [ht.avmf]),
        hu.requests.trans ht.requests, hu.ready.trans ht.ready, hu.tables.trans ht.tables,
        fun p => ?_⟩
      rw [hu.marked, ht.avmf, Avmf.marked, bitmapTest_clear, Bool.and_eq_true,
        Bool.not_eq_true', decide_eq_false_iff_not, Avmf.marked]
      simp only [Mem]
      constructor
      · rintro ⟨⟨hne, hset⟩, hout⟩
        exact ⟨hset, by omega⟩
      · rintro ⟨hset, hout⟩
        exact ⟨⟨by omega, hset⟩, by omega⟩

theorem findCovering_some {r : Region} {virt h : Nat} {n : Nat} {c : Option Nat}
    (hfind : findCovering r virt n c = some (some h)) :
    r.type h = .alloc ∧ (r.extent h).virtAddr ≤ virt ∧
      virt < (r.extent h).virtAddr + (r.extent h).size := by
  induction n generalizing c with
  | zero =>
      cases c with
      | none => cases hfind
      | some c => cases hfind
  | succ n ih =>
      cases c with
      | none => cases hfind
      | some c =>
          unfold findCovering at hfind
          dsimp only at hfind
          by_cases hcover : (r.headers c).type = .alloc ∧ (r.headers c).Intact ∧
              (r.headers c).virtAddr ≤ virt ∧ virt < (r.headers c).virtAddr + (r.headers c).size
          · rw [if_pos hcover] at hfind
            cases hfind
            exact ⟨hcover.1, hcover.2.2⟩
          · rw [if_neg hcover] at hfind
            exact ih hfind

-- The search ends alike however long it may take.
theorem findCovering_unique {r : Region} {virt m n : Nat} {c : Option Nat} {x y : Option Nat}
    (hm : findCovering r virt m c = some x) (hn : findCovering r virt n c = some y) : x = y := by
  induction m generalizing n c with
  | zero =>
      cases c with
      | none =>
          cases hm
          cases n <;> cases hn <;> rfl
      | some c => cases hm
  | succ m ih =>
      cases c with
      | none =>
          cases hm
          cases n <;> cases hn <;> rfl
      | some c =>
          cases n with
          | zero => cases hn
          | succ n =>
              unfold findCovering at hm hn
              dsimp only at hm hn
              by_cases hcover : (r.headers c).type = .alloc ∧ (r.headers c).Intact ∧
                  (r.headers c).virtAddr ≤ virt ∧ virt < (r.headers c).virtAddr + (r.headers c).size
              · rw [if_pos hcover] at hm hn
                exact Option.some.inj (hm.symm.trans hn)
              · rw [if_neg hcover] at hm hn
                exact ih hm hn

theorem freedHeader_eq_some {a : Avmf} {fuel virt i h : Nat} {hdr : Extent} :
    freedHeader a fuel virt = some (i, h, hdr) ↔ virt ≠ 0 ∧
      avmfFindRegion a virt UINT64_MAX ((virt + 1) % 2 ^ 64) = some i ∧
        ∃ r, a.regions[i]? = some r ∧
          findCovering r virt fuel (r.lists .alloc).list = some (some h) ∧ r.extent h = hdr := by
  unfold freedHeader
  by_cases hzero : virt = 0
  · simp [hzero]
  rw [if_neg hzero, and_iff_right hzero]
  simp only [Option.bind_eq_some_iff, Option.map_eq_some_iff, Option.join_eq_some_iff, Prod.mk.injEq]
  constructor
  · rintro ⟨j, hj, r, hr, a, ha, rfl, rfl, rfl⟩
    exact ⟨hj, r, hr, ha, rfl⟩
  · rintro ⟨hi, r, hr, ha, rfl⟩
    exact ⟨i, hi, r, hr, h, ha, rfl, rfl, rfl⟩

theorem freedHeader_unique {a : Avmf} {m n virt : Nat} {x y : Nat × Nat × Extent}
    (hm : freedHeader a m virt = some x) (hn : freedHeader a n virt = some y) : x = y := by
  obtain ⟨i, h, e⟩ := x
  obtain ⟨j, k, e'⟩ := y
  obtain ⟨-, hi, r, hr, hfind, rfl⟩ := freedHeader_eq_some.mp hm
  obtain ⟨-, hj, r', hr', hfind', rfl⟩ := freedHeader_eq_some.mp hn
  obtain rfl := Option.some.inj (hi.symm.trans hj)
  obtain rfl := Option.some.inj (hr.symm.trans hr')
  obtain rfl := Option.some.inj (findCovering_unique hfind hfind')
  rfl

theorem align4k_extent {r : Region} {v : VirtualRegion} (hinv : r.Inv v.base v.limit) {h : Nat}
    (hh : h < r.made) : align4k (r.extent h).size = (r.extent h).size := by
  obtain ⟨hlo, hhi, -⟩ := hinv.extent_mem hh
  have hpages := hinv.pages h hh
  have hbase := v.base_pos
  have hlimit := v.limit_lt
  unfold align4k alignUpPage UINT64_MAX PAGE_SIZE at *
  rw [if_neg (by omega)]
  omega

end Free

-- avmf_region_free on a region that nobody holds.
theorem regionFreeAt_gives {sv : Services Pager} {s : KernelState} {i base size : Nat} {r : Region}
    {v : VirtualRegion} {E : Halt → Prop} (hinv : r.Inv v.base v.limit)
    (hregion : s.avmf.regions[i]? = some r)
    (hlock : .region i ∈ s.held → E (.deadlock (.region i))) :
    Sat (regionFreeAt sv i base size) s (fun _ t => ∃ r₁ r',
      Passed .alloc (r.freeTurns base size) r r₁ ∧
        r₁.GivenBack base (align4k size) (r.freeTarget base size) r' ∧
          t = { s with avmf := s.avmf.setRegion i r' }) E := by
  unfold regionFreeAt
  rw [sat_bind, sat_get]
  simp only [hregion]
  by_cases hrejected : freeRejected r base size
  · rw [if_pos hrejected, freeTurns, freeTarget, if_pos hrejected, if_pos hrejected]
    refine ⟨r, r, .refl .alloc r, .missed, ?_⟩
    obtain ⟨hi, hget⟩ := List.getElem?_eq_some_iff.mp hregion
    rw [Avmf.setRegion, ← hget, List.set_getElem_self]
  rw [if_neg hrejected, sat_bind, sat_spinLock]
  refine ⟨hlock, fun _ => Sat.bind (avmfRegionFree_spec (nodePool sv) hinv v.base_lt base size _ E) ?_⟩
  rintro r' _ ⟨rfl, r₁, hpassed, hgiven⟩
  rw [sat_bind, sat_modifyAvmf, sat_spinUnlock]
  refine ⟨r₁, r', hpassed, hgiven, ?_⟩
  simp only [List.erase_cons_head]

section Given

variable {r r₁ r' : Region} {lo hi h : Nat} {turns : List (Region × Nat)} {target : Option Nat}

-- Only one header starts at an address, so what goes to the cache is the header meant.
theorem Region.GivenBack.target_eq (hinv : r.Inv lo hi) (hh : h < r.made)
    (hpassed : Passed .alloc turns r r₁)
    (hgiven : r₁.GivenBack (r.extent h).virtAddr (r.extent h).size target r') :
    target = none ∧ r' = r₁ ∨ target = some h ∧ Retyped r₁ h .cache r' := by
  cases hgiven with
  | missed => exact .inl ⟨rfl, rfl⟩
  | @cached c _ hc hretyped =>
      have hmade : c < r.made :=
        hpassed.made ▸ (hpassed.inv hinv).made_of_type (by rw [hc.type_eq]; decide)
      have hstart := hinv.mem_start hmade
      rw [← hpassed.extent, hc.virt_eq, hpassed.extent] at hstart
      obtain rfl := hinv.eq_of_mem hmade hh hstart (hinv.mem_start hh)
      exact .inr ⟨rfl, hretyped⟩

end Given

-- What avmf_free does to a header: its pages are free, and belong to nobody
-- where the header is found once more to be given back.
structure Freed (i h : Nat) (hdr : Extent) (s t : KernelState) : Prop where
  inv : AvmfInv t.avmf
  ready : t.rest.ready = s.rest.ready
  kept : ∀ p, cover (owners t) p ≤ cover (owners s) p
  owned : s.avmf.FreeReaches i h hdr → ∀ p,
    cover (owners t) p + cover hdr.owned p = cover (owners s) p
  marked : ∀ p, t.avmf.marked p = true ↔
    s.avmf.marked p = true ∧ ¬ Mem p (pagesOf hdr.physAddr hdr.size)

theorem regionFreeAt_freed {sv : Services Pager} {s t : KernelState} {i h : Nat} {r : Region}
    {hdr : Extent} (ht : Released (pagesOf hdr.physAddr hdr.size) s t) (hinv : AvmfInv s.avmf)
    (hregion : s.avmf.regions[i]? = some r) (htype : r.type h = .alloc) (hhdr : r.extent h = hdr) :
    Sat (regionFreeAt sv i hdr.virtAddr hdr.size) t (fun _ u => Freed i h hdr s u)
      fun _ => True := by
  obtain ⟨v, hv⟩ := hinv.regions r (List.mem_of_getElem? hregion)
  have hmade : h < r.made := hv.made_of_type (by rw [htype]; decide)
  have howners : owners t = owners s := by
    rw [owners, owners, Avmf.owned, Avmf.owned, ht.regions, ht.tables]
  have ht' : AvmfInv t.avmf :=
    ⟨ht.regions ▸ hinv.regions, ht.physicalRegions ▸ hinv.fits⟩
  subst hhdr
  refine (regionFreeAt_gives hv (ht.regions ▸ hregion) fun _ => trivial).imp ?_
  rintro _ _ ⟨r₁, r', hpassed, hgiven, rfl⟩
  rw [align4k_extent hv hmade] at hgiven
  obtain ⟨hinv', howned⟩ := hv.free hpassed hgiven
  have hset (p : Nat) := owners_setRegion (ht.regions ▸ hregion) r' p
  simp only [howners] at hset
  refine ⟨ht'.setRegion ⟨v, hinv'⟩, ht.ready, fun p => ?_, ?_, ht.marked⟩
  · have hle := howned p
    have hcover := hset p
    omega
  · rintro ⟨q, hq, htarget⟩ p
    obtain rfl : r = q := Option.some.inj (hregion.symm.trans hq)
    rcases hgiven.target_eq hv hmade hpassed with ⟨hnone, -⟩ | ⟨-, hretyped⟩
    · rw [htarget] at hnone
      cases hnone
    · have hadd := hretyped.owned_add (hpassed.kept (k := .alloc) htype)
        (hpassed.made.symm ▸ hmade) p
      rw [hpassed.owned_eq, hpassed.extent] at hadd
      have hcover := hset p
      omega

theorem avmfFree_spec {sv : Services Pager} (h : sv.Keeps Extends)
    (hunmap : ∀ virt, Keeps SameMemory (sv.pagerUnmap virt)) (fuel virt : Nat) (s : KernelState) :
    Sat (avmfFree sv fuel virt) s (fun _ t => s.requests <+: t.requests ∧ (AvmfInv s.avmf →
      match freedHeader s.avmf fuel virt with
      | none => t = s
      | some (i, h, hdr) => Freed i h hdr s t)) fun _ => True := by
  unfold avmfFree freedHeader
  refine Sat.ite (fun hzero => ?_) fun hzero => ?_
  · simp only [hzero, if_true]
    exact ⟨List.prefix_refl _, fun _ => rfl⟩
  rw [sat_bind, sat_get]
  simp only [hzero, if_false]
  cases hfind : avmfFindRegion s.avmf virt UINT64_MAX ((virt + 1) % 2 ^ 64) with
  | none => exact ⟨List.prefix_refl _, fun _ => rfl⟩
  | some i =>
      rw [Option.bind_some]
      cases hregion : s.avmf.regions[i]? with
      | none =>
          simp only [hregion, Option.bind_none]
          exact ⟨List.prefix_refl _, fun _ => rfl⟩
      | some r =>
          simp only [hregion, Option.bind_some]
          cases hsearch : findCovering r virt fuel (r.lists .alloc).list with
          | none => exact trivial
          | some found =>
              cases found with
              | none => exact ⟨List.prefix_refl _, fun _ => rfl⟩
              | some a =>
                  have htype := (findCovering_some hsearch).1
                  simp only [Option.join_some, Option.map_some, sat_bind, sat_spinLock]
                  refine ⟨fun _ => trivial, fun _ => ?_⟩
                  refine (releasePages_spec hunmap _ _ _ _).imp fun _ t ht => ?_
                  rw [sat_spinUnlock]
                  have ht' : Released (pagesOf (r.extent a).physAddr (r.extent a).size) s
                      { t with held := t.held.erase .avmf } :=
                    ⟨ht.regions, ht.physicalRegions, ht.requests, ht.ready, ht.tables, ht.marked⟩
                  refine sat_of_forall_returns fun _ u hret => ⟨?_, fun hinv => ?_⟩
                  · have hext := (regionFreeAt_extends h i _ _).returns hret
                    rw [← ht.requests]
                    exact hext.requests
                  · exact (regionFreeAt_freed ht' hinv hregion htype rfl).of_returns hret

end AosKernel.Mm
