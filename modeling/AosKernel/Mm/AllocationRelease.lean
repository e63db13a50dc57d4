import AosKernel.Mm.HeaderSearch
import AosKernel.Mm.PageRelease

namespace AosKernel.Mm

open Verif Verif.Exec Verif.Span Region

-- What avmf_region_free does when it is called for the ALLOC header `h`, which
-- its walk may come to or not.
structure HeaderGiven (r : Region) (h : Nat) (r' : Region) : Prop extends r.Relinked r' where
  inv : ∀ {lo hi : Nat}, r.Inv lo hi → r'.Inv lo hi
  type_eq : r'.type h =
    if r.freeTarget (r.extent h).virtAddr (r.extent h).size = some h then .cache else .alloc
  alloc : ∀ a, a ≠ h → r.type a = .alloc → r'.type a = .alloc
  taken : ∀ a, a ≠ h → r.type a ≠ .cache → r'.type a ≠ .cache

theorem headerGiven {r r₁ r' : Region} {lo hi h : Nat} {turns : List (Region × Nat)}
    (hinv : r.Inv lo hi) (htype : r.type h = .alloc) (hpassed : Passed .alloc turns r r₁)
    (hgiven : r₁.GivenBack (r.extent h).virtAddr (r.extent h).size
      (r.freeTarget (r.extent h).virtAddr (r.extent h).size) r') : HeaderGiven r h r' := by
  have hmade : h < r.made := hinv.made_of_type (by rw [htype]; decide)
  have hcase := hgiven.target_eq hinv hmade hpassed
  have hothers (a : Nat) (ha : a ≠ h) : r'.type a = r₁.type a := by
    rcases hcase with ⟨-, rfl⟩ | ⟨-, hretyped⟩
    · rfl
    · exact hretyped.others a ha
  refine ⟨hpassed.toRelinked.trans hgiven.relinked, fun hinv' => (hinv'.free hpassed hgiven).1, ?_,
    fun a ha halloc => ?_, fun a ha hnot => ?_⟩
  · rcases hcase with ⟨htarget, rfl⟩ | ⟨htarget, hretyped⟩
    · rw [htarget, if_neg nofun]
      exact hpassed.kept (k := .alloc) htype
    · rw [if_pos htarget, hretyped.type_eq]
  · exact (hothers a ha).trans (hpassed.kept (k := .alloc) halloc)
  · rw [hothers a ha]
    rcases hpassed.type_or a with heq | heq
    · rwa [heq]
    · rw [heq]
      decide

-- avmf_free has found the header `h` of region `i`: its pages have lost their
-- marks and the walks that ended at their entries are gone.
structure HeaderFreed (pml4 : PhysAddr) (i h : Nat) (r : Region) (s t : KernelState) : Prop where
  parts : Partitioned t.avmf
  given : ∃ r', t.avmf.regions = s.avmf.regions.set i r' ∧ HeaderGiven r h r'
  physicalRegions : t.avmf.physicalRegions = s.avmf.physicalRegions
  ready : t.rest.ready = s.rest.ready
  tables : t.rest.tables = s.rest.tables
  marked : ∀ p, t.avmf.marked p = true ↔
    s.avmf.marked p = true ∧ ¬ Mem p (pagesOf (r.extent h).physAddr (r.extent h).size)
  pages : PagesReleased pml4 ((r.extent h).physAddr / PAGE_SIZE) (r.extent h).virtAddr
    ((r.extent h).size / PAGE_SIZE) s t

theorem avmfFree_found (depth : Nat) {s : KernelState} {i h fuel : Nat} {r : Region}
    {pml4 : PhysAddr} {E : Halt → Prop} (hparts : Partitioned s.avmf)
    (hr : s.avmf.regions[i]? = some r)
    (hfound : freedHeader s.avmf fuel (r.extent h).virtAddr = some (i, h, r.extent h))
    (htree : s.rest.Tree pml4) (hloaded : s.rest.loaded = true) (hheld : s.held = [])
    (hout : (∃ p, Mem p (pagesOf (r.extent h).physAddr (r.extent h).size) ∧ BITMAP_SIZE ≤ p / 8) →
      E .outOfBounds) :
    Sat (avmfFree (pagerServices depth) fuel (r.extent h).virtAddr) s
      (fun _ t => HeaderFreed pml4 i h r s t) E := by
  obtain ⟨hne, hfind, q, hq, hsearch, -⟩ := freedHeader_eq_some.mp hfound
  obtain rfl := Option.some.inj (hr.symm.trans hq)
  obtain ⟨v, -, hinv⟩ := hparts.region hr
  have htype := (findCovering_some hsearch).1
  have hmade : h < r.made := hinv.made_of_type (by rw [htype]; decide)
  unfold avmfFree
  rw [if_neg hne, sat_bind, sat_get, hfind]
  simp only [hr, hsearch, sat_bind, sat_spinLock, hheld]
  refine ⟨fun hmem => absurd hmem List.not_mem_nil, fun _ => ?_⟩
  refine ((releasePages_released depth (s := { s with held := [.avmf] }) _ _ _ htree hloaded
    (by simp) hout).and (releasePages_spec (pagerServices_unmap depth) _ _ _ _)).imp fun _ t ht => ?_
  obtain ⟨hpages, hreleased⟩ := ht
  rw [sat_spinUnlock, hpages.held]
  refine (regionFreeAt_gives hinv (hreleased.regions ▸ hr)
    fun hmem => absurd hmem List.not_mem_nil).imp ?_
  rintro _ _ ⟨r₁, r', hpassed, hgiven, rfl⟩
  rw [show (r.headers h).size = (r.extent h).size from rfl, align4k_extent hinv hmade] at hgiven
  have hdone := headerGiven hinv htype hpassed hgiven
  have hparts' : Partitioned t.avmf := by
    rw [Partitioned, hreleased.regions]
    exact hparts
  exact ⟨hparts'.setRegion (hreleased.regions ▸ hr) fun _ hw => hdone.inv hw,
    ⟨r', congrArg (List.set · i r') hreleased.regions, hdone⟩, hreleased.physicalRegions,
    hreleased.ready, hreleased.tables, hreleased.marked, ⟨hpages.inside, hheld.symm ▸ rfl,
      hpages.loaded, hpages.history, hpages.tree, hpages.lost, hpages.kept⟩⟩

-- avmf_free of an address for which no header is found changes nothing.
theorem avmfFree_missed {sv : Services Pager} {s : KernelState} {fuel virt : Nat}
    (hmiss : freedHeader s.avmf fuel virt = none) :
    Sat (avmfFree sv fuel virt) s (fun _ t => t = s) fun _ => True := by
  unfold avmfFree
  unfold freedHeader at hmiss
  refine Sat.ite (fun _ => rfl) fun hzero => ?_
  rw [if_neg hzero] at hmiss
  rw [sat_bind, sat_get]
  cases hfind : avmfFindRegion s.avmf virt UINT64_MAX ((virt + 1) % 2 ^ 64) with
  | none => exact rfl
  | some i =>
      rw [hfind, Option.bind_some] at hmiss
      cases hr : s.avmf.regions[i]? with
      | none => simp only [hr, sat_pure]
      | some r =>
          rw [hr, Option.bind_some] at hmiss
          simp only [hr]
          cases hsearch : findCovering r virt fuel (r.lists .alloc).list with
          | none => exact trivial
          | some found =>
              cases found with
              | none => exact rfl
              | some h =>
                  rw [hsearch] at hmiss
                  cases hmiss

-- What avmf_alloc or avmf_alloc_virt has returned and nobody has freed yet. The
-- physical address is known to the callers of avmf_alloc alone.
structure Allocation where
  virt : Nat
  phys : Option Nat
  size : Nat
  deriving DecidableEq, Repr

-- The memory manager, its live allocations and the physical ranges lent to
-- callers of avmf_alloc_phys_contiguous.
structure KernelUse where
  mm : KernelState
  live : List Allocation
  lent : List (Nat × Nat)

-- The pages of everybody but the header at `virt`.
def KernelUse.otherPages (s : KernelUse) (virt : Nat) : List Span :=
  ((allocHeaders s.mm.avmf).filter fun h => h.virtAddr ≠ virt).flatMap Extent.owned ++
    s.mm.rest.tables.map (fun a => pagesOf a.toNat PAGE_SIZE) ++
      s.lent.map fun b => pagesOf b.1 (align4k b.2)

-- From `s` to `t` the allocation at `virt` has been released and no other
-- allocation has changed.
structure Releases (s : KernelUse) (virt phys size : Nat) (t : KernelState) : Prop where
  uncovered : ∀ h ∈ allocHeaders t.avmf, ¬ Mem virt h.span
  unmapped : ∀ k < size, t.rest.walk (BitVec.ofNat 64 (virt + k)) = none
  cleared : ∀ p, Mem p (pagesOf phys size) → t.avmf.marked p = false
  headers : ∀ h ∈ allocHeaders s.mm.avmf, h.virtAddr ≠ virt → h ∈ allocHeaders t.avmf
  mapping : ∀ h ∈ allocHeaders s.mm.avmf, h.virtAddr ≠ virt → ∀ k < h.size,
    t.rest.walk (BitVec.ofNat 64 (h.virtAddr + k)) =
      s.mm.rest.walk (BitVec.ofNat 64 (h.virtAddr + k))
  bits : ∀ pages ∈ s.otherPages virt, ∀ p, Mem p pages → t.avmf.marked p = s.mm.avmf.marked p

-- The alloc list of a region leads avmf_free to the header that covers an
-- address, and then avmf_region_free as well.
def Avmf.Reaches (a : Avmf) (virt size : Nat) : Prop :=
  ∃ r ∈ a.regions, ∃ fuel h, findCovering r virt fuel (r.lists .alloc).list = some (some h) ∧
    r.freeTarget virt size = some h

-- The region of the allocation is found and its list leads to the header, its
-- pages have bits in avmf_bitmap that nobody else needs, and nothing else is
-- mapped by the entries of its pages.
structure FreeOk (s : KernelUse) (virt phys size : Nat) : Prop where
  found : Findable virt
  reached : s.mm.avmf.Reaches virt size
  inside : ∀ p, Mem p (pagesOf phys size) → p / 8 < BITMAP_SIZE
  unshared : ∀ pages ∈ s.otherPages virt, ∀ p, Mem p pages → Mem p (pagesOf phys size) →
    s.mm.avmf.marked p = false
  alone : ∀ h ∈ allocHeaders s.mm.avmf, h.virtAddr ≠ virt → ∀ k < h.size,
    ∀ j < size / PAGE_SIZE, ¬ s.mm.rest.EndsOn (BitVec.ofNat 64 (virt + j * PAGE_SIZE))
      (BitVec.ofNat 64 (h.virtAddr + k))

-- The header that the list leads to is the only one at the address.
theorem Partitioned.reaches_iff {a : Avmf} (hp : Partitioned a) {i h : Nat} {r : Region}
    (hr : a.regions[i]? = some r) (hh : h < r.made) :
    a.Reaches (r.extent h).virtAddr (r.extent h).size ↔
      (∃ fuel, findCovering r (r.extent h).virtAddr fuel (r.lists .alloc).list = some (some h)) ∧
        r.freeTarget (r.extent h).virtAddr (r.extent h).size = some h := by
  constructor
  · rintro ⟨q, hq, fuel, k, hsearch, htarget⟩
    obtain ⟨j, hj⟩ := List.mem_iff_getElem?.mp hq
    obtain ⟨v, -, hinv⟩ := hp.region hr
    obtain ⟨w, -, hinv'⟩ := hp.region hj
    obtain ⟨htype, hcover⟩ := findCovering_some hsearch
    have hk : k < q.made := hinv'.made_of_type (by rw [htype]; decide)
    obtain ⟨rfl, rfl, rfl⟩ := hp.header_unique hr hj hh hk (hinv.mem_start hh) hcover
    exact ⟨⟨fuel, hsearch⟩, htarget⟩
  · rintro ⟨⟨fuel, hsearch⟩, htarget⟩
    exact ⟨r, List.mem_of_getElem? hr, fuel, h, hsearch, htarget⟩

-- All bytes of a page are walked to alike.
theorem walkPath_page {virt : Nat} (halign : virt % PAGE_SIZE = 0) (k : Nat) :
    walkPath (BitVec.ofNat 64 (virt + k)) =
      walkPath (BitVec.ofNat 64 (virt + k / PAGE_SIZE * PAGE_SIZE)) := by
  have hsmall : huge (0 : BitVec 64) = false := huge_zero
  have hfull (v : BitVec 64) : pagePath 0 v = walkPath v := by
    rw [pagePath, hsmall]
    rfl
  have hshift : pageShift 0 = 12 := by
    rw [pageShift, hsmall]
    rfl
  have hsplit : BitVec.ofNat 64 (virt + k) = BitVec.ofNat 64 (virt + k / PAGE_SIZE * PAGE_SIZE) +
      BitVec.ofNat 64 (k % PAGE_SIZE) := by
    rw [← BitVec.ofNat_add, Nat.add_assoc, Nat.div_add_mod']
  rw [hsplit, ← hfull, ← hfull, pagePath_eq_iff]
  refine pageNumber_add ?_ ?_ <;> rw [hshift]
  · rw [BitVec.toNat_ofNat]
    unfold PAGE_SIZE at *
    omega
  · exact Nat.mod_lt _ (by decide)

namespace HeaderFreed

variable {s : KernelUse} {t : KernelState} {i h : Nat} {r : Region} {pml4 : PhysAddr}
  (hfreed : HeaderFreed pml4 i h r s.mm t) (hr : s.mm.avmf.regions[i]? = some r)

include hfreed hr

-- The headers of `s` and of `t` are the same ones.
theorem headers_same {j k : Nat} {q : Region} (hq : s.mm.avmf.regions[j]? = some q) :
    ∃ q', t.avmf.regions[j]? = some q' ∧ q'.made = q.made ∧ q'.extent k = q.extent k ∧
      ((q.extent k).virtAddr ≠ (r.extent h).virtAddr →
        (q.type k = .alloc → q'.type k = .alloc) ∧ (q.type k ≠ .cache → q'.type k ≠ .cache)) := by
  obtain ⟨r', hregions, hgiven⟩ := hfreed.given
  rw [hregions]
  by_cases hij : i = j
  · subst hij
    obtain rfl := Option.some.inj (hr.symm.trans hq)
    refine ⟨r', List.getElem?_set_self (List.getElem?_eq_some_iff.mp hr).1, hgiven.made,
      hgiven.extent k, fun hne => ?_⟩
    have hk : k ≠ h := fun heq => hne (by rw [heq])
    exact ⟨hgiven.alloc k hk, hgiven.taken k hk⟩
  · exact ⟨q, (List.getElem?_set_ne hij).trans hq, rfl, rfl, fun _ => ⟨id, id⟩⟩

theorem headers {c : Extent} (hc : c ∈ allocHeaders s.mm.avmf)
    (hne : c.virtAddr ≠ (r.extent h).virtAddr) : c ∈ allocHeaders t.avmf := by
  obtain ⟨j, q, k, hq, hk, htype, rfl⟩ := mem_allocHeaders.mp hc
  obtain ⟨q', hq', hmade, hextent, hkept⟩ := hfreed.headers_same hr hq
  exact mem_allocHeaders.mpr ⟨j, q', k, hq', hmade.symm ▸ hk, (hkept hne).1 htype, hextent⟩

theorem taken {c : Extent} (hc : s.mm.avmf.Taken c) (hne : c.virtAddr ≠ (r.extent h).virtAddr) :
    t.avmf.Taken c := by
  obtain ⟨j, q, k, hq, hk, htype, rfl⟩ := hc
  obtain ⟨q', hq', hmade, hextent, hkept⟩ := hfreed.headers_same hr hq
  exact ⟨j, q', k, hq', hmade.symm ▸ hk, (hkept hne).2 htype, hextent⟩

-- No ALLOC header is left at the address exactly where avmf_region_free has
-- come to the one that was there.
theorem uncovered_iff (hh : h < r.made) :
    (∀ c ∈ allocHeaders t.avmf, ¬ Mem (r.extent h).virtAddr c.span) ↔
      r.freeTarget (r.extent h).virtAddr (r.extent h).size = some h := by
  obtain ⟨r', hregions, hgiven⟩ := hfreed.given
  have hr' : t.avmf.regions[i]? = some r' := by
    rw [hregions]
    exact List.getElem?_set_self (List.getElem?_eq_some_iff.mp hr).1
  have hh' : h < r'.made := hgiven.made.symm ▸ hh
  obtain ⟨v, -, hinv⟩ := hfreed.parts.region hr'
  have hself := hinv.mem_start hh'
  rw [hgiven.extent] at hself
  constructor
  · intro huncovered
    by_contra hmissed
    have htype := hgiven.type_eq
    rw [if_neg hmissed] at htype
    exact huncovered _ (mem_allocHeaders.mpr ⟨i, r', h, hr', hh', htype, hgiven.extent h⟩) hself
  · intro hreached c hc hmem
    obtain ⟨j, q, k, hq, hk, htype, rfl⟩ := mem_allocHeaders.mp hc
    rw [← hgiven.extent] at hself hmem
    obtain ⟨-, rfl, rfl⟩ := hfreed.parts.header_unique hr' hq hh' hk hself hmem
    rw [hgiven.type_eq, if_pos hreached] at htype
    cases htype

omit hr in
theorem unmapped (halign : (r.extent h).virtAddr % PAGE_SIZE = 0)
    (hpage : PAGE_SIZE ∣ (r.extent h).size) {k : Nat} (hk : k < (r.extent h).size) :
    t.rest.walk (BitVec.ofNat 64 ((r.extent h).virtAddr + k)) = none := by
  have hwalk := walkPath_page halign k
  cases hmet : s.mm.rest.walk (BitVec.ofNat 64 ((r.extent h).virtAddr + k)) with
  | none =>
      rw [hfreed.pages.kept _ fun j _ hends => ?_, hmet]
      obtain ⟨met, hmet', -⟩ := hends
      rw [Option.mem_def, hmet] at hmet'
      cases hmet'
  | some met =>
      refine hfreed.pages.lost _ (k / PAGE_SIZE) (Nat.div_lt_div_of_lt_of_dvd hpage hk) ⟨met, hmet, ?_⟩
      rw [hwalk]

-- What is left for the allocation to be released: that the header is given
-- back, and that the loop over its pages has taken nothing from anybody else.
theorem releases_iff {fuel : Nat} (hparts : Partitioned s.mm.avmf) (hh : h < r.made)
    (halign : (r.extent h).virtAddr % PAGE_SIZE = 0) (hpage : PAGE_SIZE ∣ (r.extent h).size)
    (hfind : Findable (r.extent h).virtAddr)
    (hsearch : findCovering r (r.extent h).virtAddr fuel (r.lists .alloc).list = some (some h)) :
    Releases s (r.extent h).virtAddr (r.extent h).physAddr (r.extent h).size t ↔
      FreeOk s (r.extent h).virtAddr (r.extent h).physAddr (r.extent h).size := by
  have huncovered := hfreed.uncovered_iff hr hh
  have hreaches := hparts.reaches_iff hr hh
  constructor
  · intro hreleases
    refine ⟨hfind, hreaches.mpr ⟨⟨fuel, hsearch⟩, huncovered.mp hreleases.uncovered⟩,
      hfreed.pages.inside, fun pages hpages p hp hown => ?_, fun c hc hne k hk j hj hends => ?_⟩
    · have hsame := hreleases.bits pages hpages p hp
      rw [← hsame]
      exact hreleases.cleared p hown
    · have hlost := hfreed.pages.lost _ j hj hends
      rw [hreleases.mapping c hc hne k hk] at hlost
      obtain ⟨met, hmet, -⟩ := hends
      rw [Option.mem_def, hlost] at hmet
      cases hmet
  · intro hok
    refine ⟨huncovered.mpr (hreaches.mp hok.reached).2,
      fun k hk => hfreed.unmapped halign hpage hk, fun p hp => ?_,
      fun c hc hne => hfreed.headers hr hc hne, fun c hc hne k hk => ?_, fun pages hpages p hp => ?_⟩
    · by_contra hmarked
      exact ((hfreed.marked p).mp (by simpa using hmarked)).2 hp
    · exact hfreed.pages.kept _ fun j hj => hok.alone c hc hne k hk j hj
    · by_cases hown : Mem p (pagesOf (r.extent h).physAddr (r.extent h).size)
      · rw [hok.unshared pages hpages p hp hown]
        by_contra hmarked
        exact ((hfreed.marked p).mp (by simpa using hmarked)).2 hown
      · rw [Bool.eq_iff_iff, hfreed.marked p]
        simp [hown]

end HeaderFreed

-- avmf_free finds the header of an allocation and releases it in exactly the
-- states in which its list leads to the header and its pages are its own.
theorem avmfFree_releases_iff {s : KernelUse} {hdr : Extent} {pml4 : PhysAddr} (depth : Nat)
    (hparts : Partitioned s.mm.avmf) (htaken : s.mm.avmf.Taken hdr)
    (halign : hdr.virtAddr % PAGE_SIZE = 0) (htree : s.mm.rest.Tree pml4)
    (hloaded : s.mm.rest.loaded = true) (hheld : s.mm.held = []) :
    (∃ fuel t, Returns (avmfFree (pagerServices depth) fuel hdr.virtAddr) s.mm () t ∧
      (∃ i h, freedHeader s.mm.avmf fuel hdr.virtAddr = some (i, h, hdr)) ∧
        Releases s hdr.virtAddr hdr.physAddr hdr.size t) ↔
      FreeOk s hdr.virtAddr hdr.physAddr hdr.size := by
  obtain ⟨i, r, h, hr, hh, -, rfl⟩ := htaken
  obtain ⟨v, -, hinv⟩ := hparts.region hr
  have hpage := hinv.pages h hh
  constructor
  · rintro ⟨fuel, t, hret, ⟨j, k, hfound⟩, hreleases⟩
    obtain ⟨heq, hfind, hsearch⟩ := (hparts.freedHeader_eq hr hh).mp hfound
    rw [heq] at hfound
    have hfreed := (avmfFree_found (E := fun _ => True) depth hparts hr hfound htree hloaded hheld
      fun _ => trivial).of_returns hret
    exact (hfreed.releases_iff hr hparts hh halign hpage hfind hsearch).mp hreleases
  · intro hok
    obtain ⟨⟨fuel, hsearch⟩, -⟩ := (hparts.reaches_iff hr hh).mp hok.reached
    have hfound := (hparts.freedHeader_eq hr hh).mpr ⟨rfl, hok.found, hsearch⟩
    have hinside : (∃ p, Mem p (pagesOf (r.extent h).physAddr (r.extent h).size) ∧
        BITMAP_SIZE ≤ p / 8) → False := by
      rintro ⟨p, hp, hlarge⟩
      have := hok.inside p hp
      omega
    rcases (avmfFree_found (E := fun _ => False) depth hparts hr hfound htree hloaded hheld
      hinside).returns_or_stops with ⟨⟨⟩, t, hret, hfreed⟩ | ⟨-, -, hfalse⟩
    · exact ⟨fuel, t, hret, ⟨i, h, hfound⟩,
        (hfreed.releases_iff hr hparts hh halign hpage hok.found hsearch).mpr hok⟩
    · exact hfalse.elim

end AosKernel.Mm
