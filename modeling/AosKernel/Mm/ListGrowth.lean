import Mathlib.Data.List.Forall2
import AosKernel.Mm.Locking
import AosKernel.Mm.MemoryCalls

namespace AosKernel.Mm

open Verif Verif.Exec Verif.Span Region

-- The regions of virtual memory, in the order of avmf_init.
def spaces : List VirtualRegion := [userSpace, kernelSpace, driverSpace, sensitiveSpace]

-- Each of them is partitioned.
def Partitioned (a : Avmf) : Prop :=
  List.Forall₂ (fun (v : VirtualRegion) r => Region.Inv r v.base v.limit) spaces a.regions

theorem Partitioned.region {a : Avmf} (h : Partitioned a) {i : Nat} {r : Region}
    (hr : a.regions[i]? = some r) :
    ∃ v : VirtualRegion, spaces[i]? = some v ∧ r.Inv v.base v.limit := by
  obtain ⟨hi, rfl⟩ := List.getElem?_eq_some_iff.mp hr
  have hi' : i < spaces.length := h.length_eq ▸ hi
  exact ⟨spaces[i], List.getElem?_eq_getElem hi', h.get hi' hi⟩

theorem Partitioned.setRegion {a : Avmf} {i : Nat} {r r' : Region} (h : Partitioned a)
    (hr : a.regions[i]? = some r)
    (hinv : ∀ v : VirtualRegion, r.Inv v.base v.limit → r'.Inv v.base v.limit) :
    Partitioned (a.setRegion i r') := by
  refine List.forall₂_iff_get.mpr ⟨?_, fun j hj hj' => ?_⟩
  · rw [Avmf.setRegion, List.length_set]
    exact h.length_eq
  · simp only [Avmf.setRegion, List.length_set] at hj'
    simp only [Avmf.setRegion, List.get_eq_getElem, List.getElem_set]
    have hold := h.get hj hj'
    simp only [List.get_eq_getElem] at hold
    split
    · rename_i hij
      subst hij
      rw [(List.getElem?_eq_some_iff.mp hr).2] at hold
      exact hinv _ hold
    · exact hold

theorem partitioned_avmfInit (phys : List (Nat × Nat)) : Partitioned (avmfInit phys) := by
  simp only [Partitioned, spaces, avmfInit, List.mapIdx_cons, List.mapIdx_nil,
    List.forall₂_cons, List.Forall₂.nil, and_true]
  exact ⟨avmfRegionInit_inv _ _, avmfRegionInit_inv _ _, avmfRegionInit_inv _ _,
    avmfRegionInit_inv _ _⟩

-- Headers are only added: those that are not for reuse stay so, and stand for
-- what they did.
structure HeadersGrow (r r' : Region) : Prop where
  made_le : r.made ≤ r'.made
  taken : ∀ h < r.made, r.type h ≠ .cache →
    r'.extent h = r.extent h ∧ (r'.type h = r.type h ∨ r'.type h = .corrupt)

theorem HeadersGrow.refl (r : Region) : HeadersGrow r r :=
  ⟨Nat.le_refl _, fun _ _ _ => ⟨rfl, .inl rfl⟩⟩

theorem HeadersGrow.not_cache {r r' : Region} (h : HeadersGrow r r') {a : Nat} (ha : a < r.made)
    (htype : r.type a ≠ .cache) : r'.type a ≠ .cache := by
  rcases (h.taken a ha htype).2 with heq | heq
  · rwa [heq]
  · rw [heq]
    decide

theorem HeadersGrow.trans {r r' r'' : Region} (h : HeadersGrow r r') (h' : HeadersGrow r' r'') :
    HeadersGrow r r'' := by
  refine ⟨h.made_le.trans h'.made_le, fun a ha htype => ?_⟩
  obtain ⟨hextent, hkept⟩ := h.taken a ha htype
  obtain ⟨hextent', hkept'⟩ :=
    h'.taken a (Nat.lt_of_lt_of_le ha h.made_le) (h.not_cache ha htype)
  refine ⟨hextent'.trans hextent, ?_⟩
  rcases hkept' with heq | heq
  · exact hkept.imp heq.trans heq.trans
  · exact .inr heq

-- The regions of `b` are partitioned, and have grown out of those of `a`.
structure RegionsGrow (a b : Avmf) : Prop where
  parts : Partitioned b
  lists : ∀ (i : Nat) (r : Region), a.regions[i]? = some r →
    ∃ r', b.regions[i]? = some r' ∧ HeadersGrow r r'

theorem RegionsGrow.trans {a b c : Avmf} (h : RegionsGrow a b) (h' : RegionsGrow b c) :
    RegionsGrow a c := by
  refine ⟨h'.parts, fun i r hr => ?_⟩
  obtain ⟨r', hr', hle⟩ := h.lists i r hr
  obtain ⟨r'', hr'', hle'⟩ := h'.lists i r' hr'
  exact ⟨r'', hr'', hle.trans hle'⟩

-- A region is written back that has grown as well.
theorem RegionsGrow.setRegion {a b : Avmf} {i : Nat} {r r' : Region} (h : RegionsGrow a b)
    (hregion : b.regions[i]? = some r)
    (hinv : ∀ v : VirtualRegion, r.Inv v.base v.limit → r'.Inv v.base v.limit)
    (hgrow : ∀ q, a.regions[i]? = some q → HeadersGrow q r') :
    RegionsGrow a (b.setRegion i r') := by
  refine ⟨h.parts.setRegion hregion hinv, fun j q hq => ?_⟩
  by_cases hij : i = j
  · subst hij
    exact ⟨r', List.getElem?_set_self (List.getElem?_eq_some_iff.mp hregion).1, hgrow q hq⟩
  · obtain ⟨q', hq', hle⟩ := h.lists j q hq
    refine ⟨q', ?_, hle⟩
    rw [Avmf.setRegion, List.getElem?_set_ne hij]
    exact hq'

-- The regions stay partitioned and headers are only added. A region whose lock
-- is held is left alone.
structure ListsGrow (s t : KernelState) : Prop where
  locked : ∀ i, .region i ∈ s.held →
    .region i ∈ t.held ∧ t.avmf.regions[i]? = s.avmf.regions[i]?
  parts : Partitioned s.avmf → Partitioned t.avmf
  lists : Partitioned s.avmf → ∀ (i : Nat) (r : Region), s.avmf.regions[i]? = some r →
    ∃ r', t.avmf.regions[i]? = some r' ∧ HeadersGrow r r'

theorem ListsGrow.regions {s t : KernelState} (h : ListsGrow s t) (hp : Partitioned s.avmf) :
    RegionsGrow s.avmf t.avmf :=
  ⟨h.parts hp, h.lists hp⟩

instance : IsPreorder KernelState ListsGrow where
  refl _ := ⟨fun _ h => ⟨h, rfl⟩, id, fun _ _ r hr => ⟨r, hr, .refl r⟩⟩
  trans s t u h h' := by
    have hboth (hp : Partitioned s.avmf) : RegionsGrow s.avmf u.avmf :=
      (h.regions hp).trans (h'.regions (h.parts hp))
    refine ⟨fun i hi => ?_, fun hp => (hboth hp).parts, fun hp => (hboth hp).lists⟩
    obtain ⟨hheld, hregion⟩ := h.locked i hi
    obtain ⟨hheld', hregion'⟩ := h'.locked i hheld
    exact ⟨hheld', hregion'.trans hregion⟩

theorem ListsGrow.refl (s : KernelState) : ListsGrow s s := Std.Refl.refl (r := ListsGrow) s

theorem ListsGrow.trans {s t u : KernelState} (h : ListsGrow s t) (h' : ListsGrow t u) :
    ListsGrow s u :=
  IsTrans.trans s t u h h'

theorem ListsGrow.of_regions {s t : KernelState}
    (hheld : ∀ i, .region i ∈ s.held → .region i ∈ t.held)
    (hregions : t.avmf.regions = s.avmf.regions) : ListsGrow s t := by
  refine ⟨fun i hi => ⟨hheld i hi, by rw [hregions]⟩, fun hp => ?_, fun _ i r hr =>
    ⟨r, hregions ▸ hr, .refl r⟩⟩
  rwa [Partitioned, hregions]

theorem PagesTaken.lists {size phys : Nat} {s t : KernelState} (h : PagesTaken size phys s t) :
    ListsGrow s t :=
  .of_regions (fun _ hi => h.held ▸ hi) h.regions

theorem modifyPager_lists (f : Pager → Pager) : Keeps ListsGrow (modifyPager f) :=
  .modify fun _ => .of_regions (fun _ h => h) rfl

theorem pagerSteps_lists : PagerSteps ListsGrow where
  lock s := (sat_spinLock _ s _ _).mpr ⟨fun _ => trivial, fun _ =>
    .of_regions (fun _ hi => List.mem_cons_of_mem _ hi) rfl⟩
  unlock := .modify fun _ => .of_regions (fun _ hi => (List.mem_erase_of_ne (by simp)).mpr hi) rfl
  write _ _ _ := modifyPager_lists _
  link _ _ _ := modifyPager_lists _

theorem nodeMoves_lists : NodeMoves ListsGrow where
  stores s := {
    lock := fun t ht => (sat_spinLock _ t _ _).mpr ⟨fun _ => trivial, fun _ =>
      ht.trans (.of_regions (fun _ hi => List.mem_cons_of_mem _ hi) rfl)⟩
    unlock := .modify fun _ ht =>
      ht.trans (.of_regions (fun _ hi => (List.mem_erase_of_ne (by simp)).mpr hi) rfl)
    node := fun _ hregions _ _ => .modify fun t ht =>
      ht.trans (.of_regions (fun _ hi => hi) (hregions t.avmf)) }
  taken h := h.lists
  freed h _ hu hv := (h.lists.trans hu).trans (.of_regions (fun _ hi => hv.held ▸ hi) hv.regions)

-- The step at the end of a call on region `i`: `s` is the state before the
-- call and `t` the one after what the region called.
theorem storeRegion_lists {s t : KernelState} {i : Nat} {r r' : Region} {requests : List Request}
    (hregion : s.avmf.regions[i]? = some r) (hfree : .region i ∉ s.held)
    (hcalls : ListsGrow { s with held := .region i :: s.held, requests := requests } t)
    (hinv : ∀ v : VirtualRegion, r.Inv v.base v.limit → r'.Inv v.base v.limit)
    (hgrow : Partitioned s.avmf → HeadersGrow r r') :
    ListsGrow s { t with
      avmf := t.avmf.setRegion i r'
      held := t.held.erase (.region i) } := by
  have hsame := ((hcalls.locked i List.mem_cons_self).2).trans hregion
  have hstored (hp : Partitioned s.avmf) : RegionsGrow s.avmf (t.avmf.setRegion i r') :=
    (hcalls.regions hp).setRegion hsame hinv fun q hq => by
      obtain rfl : r = q := Option.some.inj (hregion.symm.trans hq)
      exact hgrow hp
  exact ⟨fun j hj => storeRegion_locked hfree hj (hcalls.locked j (List.mem_cons_of_mem _ hj)),
    fun hp => (hstored hp).parts, fun hp => (hstored hp).lists⟩

-- In region `i` a header stands for `hdr`, on space that none covers in `s`
-- that is not for reuse.
structure HeaderLinked (i size : Nat) (hdr : Extent) (s t : KernelState) : Prop where
  size_eq : hdr.size = size
  aligned : hdr.virtAddr % PAGE_SIZE = 0
  linked : ∃ r r' h, s.avmf.regions[i]? = some r ∧ t.avmf.regions[i]? = some r' ∧ h < r'.made ∧
    r'.type h ≠ .cache ∧ r'.extent h = hdr ∧
      ∀ a < r.made, r.type a ≠ .cache → Apart (r.extent a).span hdr.span

-- It is the ALLOC header `h`, which is new or was one for reuse.
def JustLinked (i h : Nat) (hdr : Extent) (s t : KernelState) : Prop :=
  ∃ r r' : Region, s.avmf.regions[i]? = some r ∧ t.avmf.regions[i]? = some r' ∧ HeadersGrow r r' ∧
    (h < r.made → r.type h = .cache) ∧ h < r'.made ∧ r'.type h = .alloc ∧ r'.extent h = hdr

theorem HeaderLinked.trans {i size : Nat} {hdr : Extent} {s t u : KernelState}
    (h : HeaderLinked i size hdr s t) (hp : Partitioned t.avmf) (htu : ListsGrow t u) :
    HeaderLinked i size hdr s u := by
  obtain ⟨r, r', a, hr, hr', hmade, htype, hextent, hfresh⟩ := h.linked
  obtain ⟨r'', hr'', hgrow⟩ := htu.lists hp i r' hr'
  exact ⟨h.size_eq, h.aligned, r, r'', a, hr, hr'', Nat.lt_of_lt_of_le hmade hgrow.made_le,
    hgrow.not_cache hmade htype, (hgrow.taken a hmade htype).1.trans hextent, hfresh⟩

theorem Region.AllocPost.grow {r r' : Region} {lo hi size align minVirt maxVirt : Nat}
    {hits : List Extent} {found : Option Nat}
    (hpost : AllocPost r lo hi size align minVirt maxVirt hits found r') : HeadersGrow r r' :=
  ⟨hpost.kept.made_le, hpost.kept.taken⟩

-- A header that stands for memory already is no result.
theorem Region.AllocPost.reused {r r' : Region} {lo hi size align minVirt maxVirt h : Nat}
    {hits : List Extent} (hpost : AllocPost r lo hi size align minVirt maxVirt hits (some h) r')
    (hh : h < r.made) : r.type h = .cache := by
  have hnew := hpost.new h rfl
  by_contra htype
  have hstart := hpost.inv.mem_start hnew.made
  refine hnew.fresh h hh htype _ ?_ hstart
  rwa [← (hpost.kept.taken h hh htype).1]

section Alloc

variable {sv : Services Pager} (h : sv.Keeps ListsGrow)

include h

theorem nodePool_lists : (nodePool sv).Keeps ListsGrow := nodePool_keeps nodeMoves_lists h.pagerMap

theorem regionAllocAt_lists (i : Nat) {size minVirt : Nat} (maxVirt : Nat) (hpos : 0 < size)
    (hpage : PAGE_SIZE ∣ size) (hmin : minVirt < 2 ^ 64) (s : KernelState) :
    Sat (regionAllocAt sv i size PAGE_SIZE minVirt maxVirt) s (fun result t => ListsGrow s t ∧
      ∀ a hdr, result = some (a, hdr) → Partitioned s.avmf → .region i ∉ s.held ∧
        HeaderLinked i size hdr s t ∧ JustLinked i a hdr s t) fun _ => True := by
  unfold regionAllocAt
  rw [sat_bind, sat_get]
  split
  · exact ⟨.refl s, nofun⟩
  · rename_i r hregion
    refine Sat.ite (fun _ => ⟨.refl s, nofun⟩) fun _ => ?_
    simp only [sat_bind, sat_spinLock, sat_modify]
    refine ⟨fun _ => trivial, fun hfree => sat_of_forall_returns fun result t hret => ?_⟩
    obtain ⟨found, r'⟩ := result
    have hcalls := (avmfRegionAlloc_keeps (nodePool_lists h) r size PAGE_SIZE
      minVirt maxVirt).returns hret
    have hpost (v : VirtualRegion) (hv : r.Inv v.base v.limit) :=
      ((avmfRegionAlloc_spec (nodePool sv) hv v.base_lt v.base_pos v.limit_lt hpos hpage PAGE_SIZE_eq
        (by decide) hmin _).of_returns hret).1
    have hgrow := storeRegion_lists hregion hfree hcalls (fun v hv => (hpost v hv).inv) fun hp => by
      obtain ⟨v, -, hv⟩ := hp.region hregion
      exact (hpost v hv).grow
    refine ⟨hgrow, fun a hdr hsome hp => ?_⟩
    obtain ⟨b, rfl, heq⟩ := Option.map_eq_some_iff.mp hsome
    obtain ⟨rfl, rfl⟩ := Prod.mk.inj heq
    obtain ⟨v, -, hv⟩ := hp.region hregion
    have hpost := hpost v hv
    have hnew := hpost.new b rfl
    have hsame := ((hcalls.locked i List.mem_cons_self).2).trans hregion
    have hset : (t.avmf.setRegion i r').regions[i]? = some r' :=
      List.getElem?_set_self (List.getElem?_eq_some_iff.mp hsame).1
    exact ⟨hfree, ⟨hnew.size_eq, hnew.aligned, r, r', b, hregion, hset, hnew.made,
      by rw [hnew.type_eq]; decide, rfl, hnew.fresh⟩, r, r', hregion, hset, hpost.grow,
      hpost.reused, hnew.made, hnew.type_eq, rfl⟩

theorem avmfAllocHdrInternal_lists (size : Nat) (hpage : PAGE_SIZE ∣ size)
    (type : MemoryAllocType) (s : KernelState) :
    Sat (avmfAllocHdrInternal sv size type) s (fun result t => ListsGrow s t ∧
      ∀ i a hdr, result = some (i, a, hdr) → Partitioned s.avmf → .region i ∉ s.held ∧
        HeaderLinked i size hdr s t ∧ JustLinked i a hdr s t) fun _ => True := by
  refine avmfAllocHdrInternal_sat ⟨.refl s, nofun⟩ fun i minVirt maxVirt hpos hmin => ?_
  refine (regionAllocAt_lists h i maxVirt hpos hpage hmin s).mono ?_ fun _ hE => hE
  intro found t ht
  refine ⟨ht.1, fun j a hdr hsome => ?_⟩
  obtain ⟨⟨b, e⟩, rfl, heq⟩ := Option.map_eq_some_iff.mp hsome
  cases heq
  exact ht.2 _ _ rfl

theorem avmfAllocVirt_lists (size : Nat) (type : MemoryAllocType) (s : KernelState) :
    Sat (avmfAllocVirt sv size type) s (fun virt t => ListsGrow s t ∧
      (Partitioned s.avmf → virt ≠ 0 → ∃ i hdr, HeaderLinked i (align4k size) hdr s t ∧
        hdr.virtAddr = virt)) fun _ => True := by
  unfold avmfAllocVirt
  refine Sat.bind (avmfAllocHdrInternal_lists h _ (PAGE_SIZE_dvd_align4k size) type s)
    fun found t ht => ?_
  split
  · exact ⟨ht.1, fun _ hne => absurd rfl hne⟩
  · rename_i i a hdr
    exact ⟨ht.1, fun hp _ => ⟨i, hdr, (ht.2 i a hdr rfl hp).2.1, rfl⟩⟩

theorem allocPageTable_lists : Keeps ListsGrow (allocPageTable sv) := by
  have htake : Keeps ListsGrow takeTablePage := by
    intro s
    unfold takeTablePage
    rw [sat_bind]
    refine (avmfAllocPhysContiguous_spec s PAGE_SIZE).imp fun phys t ht => ?_
    exact Sat.ite (fun _ => ht.lists.trans (.of_regions (fun _ hi => hi) rfl)) fun _ => ht.lists
  have hvirt : Keeps ListsGrow (avmfAllocVirt sv PAGE_SIZE .sensitive) :=
    fun s => (avmfAllocVirt_lists h PAGE_SIZE .sensitive s).imp fun _ _ ht => ht.1
  unfold allocPageTable
  refine .get_bind fun s => .ite ?_ (.ite (.pure _) ?_)
  · exact .bind htake fun phys => .bind hvirt fun virt => .ite (.pure _)
      (.bind (modifyPager_lists _) fun _ => .pure _)
  · exact .bind (modifyPager_lists _) fun _ => .ite (.pure _) (.bind (modifyPager_lists _) fun _ =>
      .bind (modifyPager_lists _) fun _ => .pure _)

end Alloc

theorem pagerServices_lists (depth : Nat) : (pagerServices depth).Keeps ListsGrow :=
  pagerServices_keeps pagerSteps_lists (fun _ h => allocPageTable_lists h) depth

-- A header that is given back was none of those that only may grow.
theorem HeadersGrow.free {r q q₁ q' : Region} {lo hi h : Nat} {turns : List (Region × Nat)}
    {target : Option Nat} (hgrow : HeadersGrow r q) (hreused : h < r.made → r.type h = .cache)
    (hinv : q.Inv lo hi) (hh : h < q.made) (hpassed : Passed .alloc turns q q₁)
    (hgiven : q₁.GivenBack (q.extent h).virtAddr (q.extent h).size target q') :
    HeadersGrow r q' := by
  have hwalked : HeadersGrow q q₁ :=
    ⟨hpassed.made.ge, fun a _ _ => ⟨hpassed.extent a, hpassed.type_or a⟩⟩
  have hboth := hgrow.trans hwalked
  rcases hgiven.target_eq hinv hh hpassed with ⟨-, rfl⟩ | ⟨-, hretyped⟩
  · exact hboth
  · refine ⟨hboth.made_le.trans hretyped.made.ge, fun a ha htype => ?_⟩
    have hne : a ≠ h := by
      rintro rfl
      exact htype (hreused ha)
    obtain ⟨hextent, hkept⟩ := hboth.taken a ha htype
    rw [hretyped.others a hne, hretyped.extent]
    exact ⟨hextent, hkept⟩

-- The physical address is set in a header that is new, or was one for reuse.
theorem HeadersGrow.setPhys {r r' : Region} {a : Nat} (h : HeadersGrow r r')
    (hreused : a < r.made → r.type a = .cache) (phys : Nat) : HeadersGrow r (r'.setPhys a phys) := by
  refine ⟨h.made_le, fun b hb hnot => ?_⟩
  have hne : b ≠ a := by
    rintro rfl
    exact hnot (hreused hb)
  rw [setPhys_extent_of_ne hne, setPhys_type]
  exact h.taken b hb hnot

theorem HeaderLinked.setPhys {i size a phys : Nat} {hdr : Extent} {s t u : KernelState} {r' : Region}
    (h : HeaderLinked i size hdr s t) (hr' : u.avmf.regions[i]? = some (r'.setPhys a phys))
    (hmade : a < r'.made) (htype : r'.type a = .alloc) (hextent : r'.extent a = hdr) :
    HeaderLinked i size { hdr with physAddr := phys } s u := by
  obtain ⟨r, -, -, hr, -, -, -, -, hfresh⟩ := h.linked
  refine ⟨h.size_eq, h.aligned, r, _, a, hr, hr', hmade, ?_, ?_, hfresh⟩
  · rw [setPhys_type, htype]
    decide
  · rw [setPhys_extent_self, hextent]

-- A result of avmf_alloc is a header, with the physical address returned.
theorem avmfAlloc_lists {sv : Services Pager} (h : sv.Keeps ListsGrow) (hext : sv.Keeps Extends)
    (size : Nat) (type : MemoryAllocType) (flags : BitVec 32) (s : KernelState) :
    Sat (avmfAlloc sv size type flags) s (fun result t => ListsGrow s t ∧
      (Partitioned s.avmf → result.1 ≠ 0 → result.2 ≠ 0 ∧ ∃ i hdr,
        HeaderLinked i (align4k size) hdr s t ∧ hdr.virtAddr = result.1 ∧
          hdr.physAddr = result.2)) fun _ => True := by
  have hlocked := avmfAlloc_extends hext size type flags s
  suffices hmain : Partitioned s.avmf → Sat (avmfAlloc sv size type flags) s (fun result t =>
      RegionsGrow s.avmf t.avmf ∧
      (result.1 ≠ 0 → result.2 ≠ 0 ∧ ∃ i hdr, HeaderLinked i (align4k size) hdr s t ∧
        hdr.virtAddr = result.1 ∧ hdr.physAddr = result.2)) fun _ => True by
    refine sat_of_forall_returns fun result t hret => ?_
    have hthen (hp : Partitioned s.avmf) := (hmain hp).of_returns hret
    exact ⟨⟨(hlocked.of_returns hret).locked, fun hp => (hthen hp).1.parts,
      fun hp => (hthen hp).1.lists⟩, fun hp => (hthen hp).2⟩
  intro hp
  unfold avmfAlloc
  dsimp only
  refine Sat.ite (fun _ => ⟨(ListsGrow.refl s).regions hp, fun hne => absurd rfl hne⟩) fun _ => ?_
  refine Sat.bind (avmfAllocHdrInternal_lists h _ (PAGE_SIZE_dvd_align4k size) type s)
    fun found t ht => ?_
  split
  · exact ⟨ht.1.regions hp, fun hne => absurd rfl hne⟩
  · rename_i i a hdr
    obtain ⟨-, hlinked, r, r', hr, hr', hgrown, hreused, hmade, htype, hextent⟩ :=
      ht.2 i a hdr rfl hp
    have hparts := ht.1.parts hp
    refine Sat.ite (fun hphys => ?_) fun _ => ?_
    · refine Sat.bind (h.pagerMapRange _ _ _ _ t) fun _ u hu =>
        ⟨(ht.1.trans hu).regions hp, fun _ => ?_⟩
      exact ⟨Nat.ne_of_gt hphys, i, hdr, hlinked.trans hparts hu, rfl, rfl⟩
    · refine Sat.bind (avmfAllocPhysContiguous_spec t hdr.size) fun phys u hu => ?_
      have hsu := (ht.1.trans hu.lists).regions hp
      rw [← hu.regions] at hr'
      refine Sat.ite (fun _ => ?_) fun hne => ?_
      · -- without physical memory the header is given back
        obtain ⟨v, -, hv⟩ := hsu.parts.region hr'
        subst hextent
        refine Sat.bind (regionFreeAt_gives hv hr' fun _ => trivial) ?_
        rintro _ w ⟨r₁, r'', hpassed, hgiven, rfl⟩
        rw [align4k_extent hv hmade] at hgiven
        refine ⟨hsu.setRegion hr' (fun v' hv' => (hv'.free hpassed hgiven).1) fun q hq => ?_,
          fun hne => absurd rfl hne⟩
        cases hr.symm.trans hq
        exact hgrown.free hreused hv hmade hpassed hgiven
      · have hset := modify_eq_set_of_getElem? (fun r => r.setPhys a phys) hr'
        rw [sat_bind, sat_modifyAvmf, hset]
        have hstored := hsu.setRegion hr' (fun v hv => hv.setPhys) fun q hq => by
          cases hr.symm.trans hq
          exact hgrown.setPhys hreused phys
        refine Sat.bind (h.pagerMapRange _ _ _ _ _) fun _ w hw => ?_
        refine ⟨hstored.trans (hw.regions hstored.parts), fun _ =>
          ⟨hne, i, { hdr with physAddr := phys }, ?_, rfl, rfl⟩⟩
        refine (hlinked.setPhys ?_ hmade htype hextent).trans hstored.parts hw
        exact List.getElem?_set_self (List.getElem?_eq_some_iff.mp hr').1

end AosKernel.Mm
