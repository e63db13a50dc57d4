import AosKernel.Mm.AvmfEffects

namespace AosKernel.Mm

open Verif Verif.Exec Verif.Span Region

-- Putting one list in the place of another trades what they cover.
theorem cover_flatMap_set {α : Type} {f : α → List Span} {l : List α} {i : Nat} {a : α}
    (h : l[i]? = some a) (b : α) (p : Nat) :
    cover ((l.set i b).flatMap f) p + cover (f a) p = cover (l.flatMap f) p + cover (f b) p := by
  induction l generalizing i with
  | nil => simp at h
  | cons c l ih =>
      cases i with
      | zero =>
          cases h
          simp only [List.set_cons_zero, List.flatMap_cons, cover_append]
          omega
      | succ i =>
          have hl := ih (i := i) (by simpa using h)
          simp only [List.set_cons_succ, List.flatMap_cons, cover_append]
          omega

theorem owners_setRegion {s : KernelState} {i : Nat} {r : Region}
    (h : s.avmf.regions[i]? = some r) (r' : Region) (p : Nat) :
    cover (owners { s with avmf := s.avmf.setRegion i r' }) p + cover r.owned p =
      cover (owners s) p + cover r'.owned p := by
  have hset := cover_flatMap_set (f := Region.owned) h r' p
  simp only [owners, Avmf.owned, Avmf.setRegion, cover_append] at hset ⊢
  omega

theorem AvmfInv.setRegion {a : Avmf} {i : Nat} {r' : Region} (h : AvmfInv a)
    (hr' : ∃ v : VirtualRegion, r'.Inv v.base v.limit) : AvmfInv (a.setRegion i r') := by
  refine ⟨fun r hr => ?_, h.fits⟩
  rcases List.mem_or_eq_of_mem_set hr with hr | rfl
  · exact h.regions r hr
  · exact hr'

-- A call on region `i` leaves the regions alone whose locks were held before.
theorem storeRegion_locked {s t : KernelState} {i j : Nat} {r' : Region}
    (hfree : .region i ∉ s.held) (hj : .region j ∈ s.held)
    (hlocked : .region j ∈ t.held ∧ t.avmf.regions[j]? = s.avmf.regions[j]?) :
    .region j ∈ t.held.erase (.region i) ∧
      (t.avmf.setRegion i r').regions[j]? = s.avmf.regions[j]? := by
  obtain ⟨hheld, hsame⟩ := hlocked
  have hne : i ≠ j := by
    rintro rfl
    exact hfree hj
  refine ⟨(List.mem_erase_of_ne fun h => hne (Lock.region.inj h).symm).mpr hheld, ?_⟩
  rw [Avmf.setRegion, List.getElem?_set_ne hne]
  exact hsame

-- The step at the end of a call on region `i`: the region is stored and its
-- lock given back. `s` is the state before the call and `t` the one after what
-- the region called.
theorem storeRegion_extends {s t : KernelState} {i : Nat} {r r' : Region} {requests : List Request}
    (hregion : s.avmf.regions[i]? = some r) (hfree : .region i ∉ s.held)
    (hrequests : s.requests <+: requests)
    (hcalls : Extends { s with held := .region i :: s.held, requests := requests } t)
    (hkeeps : s.rest.ready = true → AllClean t.requests → AvmfInv s.avmf →
      (∃ v : VirtualRegion, r'.Inv v.base v.limit) ∧ ∀ p, cover r'.owned p ≤ cover r.owned p) :
    Extends s { t with
      avmf := t.avmf.setRegion i r'
      held := t.held.erase (.region i) } := by
  refine ⟨hrequests.trans hcalls.requests, hcalls.ready, fun j hj => ?_,
    fun hready hclean hinv => ?_⟩
  · exact storeRegion_locked hfree hj (hcalls.locked j (List.mem_cons_of_mem _ hj))
  · obtain ⟨hinv', howned⟩ := hkeeps hready hclean hinv
    have hroom := hcalls.room hready hclean hinv
    have hsame := ((hcalls.locked i List.mem_cons_self).2).trans hregion
    refine ⟨hroom.inv.setRegion hinv', hroom.marked, fun p => ?_⟩
    have hspare : cover (owners t) p + s.avmf.mark p ≤ cover (owners s) p + t.avmf.mark p :=
      hroom.spare p
    have hset := owners_setRegion hsame r' p
    have hless := howned p
    change cover (owners { t with avmf := t.avmf.setRegion i r' }) p + s.avmf.mark p ≤
      cover (owners s) p + t.avmf.mark p
    omega

-- What an allocation in region `i` guarantees besides what all code does.
structure Allocated (i size : Nat) (result : Option (Nat × Extent)) (s t : KernelState) : Prop where
  toExtends : Extends s t
  unlocked : result ≠ none → .region i ∉ s.held
  linked : ∀ h e, result = some (h, e) → s.rest.ready = true → AllClean t.requests →
    AvmfInv s.avmf → e.physAddr = 0 ∧ e.size = size ∧
      ∃ r, t.avmf.regions[i]? = some r ∧ h < r.made ∧ r.type h = .alloc ∧ r.extent h = e

theorem Allocated.none (i size : Nat) (s : KernelState) : Allocated i size none s s :=
  ⟨.refl s, fun h => absurd rfl h, nofun⟩

-- The pool of early tables is not physical memory the allocator knows of, so
-- only a pager that is ready keeps the marks and owners in step.
theorem early_extends {s t : KernelState} (hready : ¬ s.rest.ready = true)
    (havmf : t.avmf = s.avmf) (hheld : t.held = s.held) (hrequests : t.requests = s.requests)
    (hsame : t.rest.ready = s.rest.ready) : Extends s t :=
  ⟨hrequests ▸ List.prefix_refl _, hsame, fun i hi => ⟨hheld ▸ hi, by rw [havmf]⟩,
    fun h => absurd h hready⟩

theorem PAGE_SIZE_eq : PAGE_SIZE = 2 ^ 12 := rfl

section Alloc

variable {sv : Services Pager} (h : sv.Keeps Extends)

include h

theorem regionAllocAt_spec (i : Nat) {size minVirt : Nat} (maxVirt : Nat) (hpos : 0 < size)
    (hpage : PAGE_SIZE ∣ size) (hmin : minVirt < 2 ^ 64) (s : KernelState) :
    Sat (regionAllocAt sv i size PAGE_SIZE minVirt maxVirt) s
      (fun result t => Allocated i size result s t) fun _ => True := by
  unfold regionAllocAt
  rw [sat_bind, sat_get]
  split
  · exact .none i size s
  · rename_i r hregion
    refine Sat.ite (fun _ => .none i size s) fun _ => ?_
    simp only [sat_bind, sat_spinLock, sat_modify]
    refine ⟨fun _ => trivial, fun hfree => sat_of_forall_returns fun result t hret => ?_⟩
    obtain ⟨found, r'⟩ := result
    have hcalls := (avmfRegionAlloc_keeps (nodePool_extends h) r size PAGE_SIZE
      minVirt maxVirt).returns hret
    have hpost (hinv : AvmfInv s.avmf) : ∃ v : VirtualRegion, AllocPost r v.base v.limit size
        PAGE_SIZE minVirt maxVirt (r.allocHits size PAGE_SIZE minVirt maxVirt) found r' := by
      obtain ⟨v, hv⟩ := hinv.regions r (List.mem_of_getElem? hregion)
      exact ⟨v, ((avmfRegionAlloc_spec (nodePool sv) hv v.base_lt v.base_pos v.limit_lt hpos hpage
        PAGE_SIZE_eq (by decide) hmin _).of_returns hret).1⟩
    have hhits (hclean : AllClean t.requests) :
        ∀ e ∈ r.allocHits size PAGE_SIZE minVirt maxVirt, e.physAddr = 0 :=
      hclean _ (hcalls.requests.subset (List.mem_append_right _ List.mem_cons_self))
    have hext := storeRegion_extends hregion hfree (List.prefix_append _ _) hcalls
      fun _ hclean hinv => by
        obtain ⟨v, hpost⟩ := hpost hinv
        exact ⟨⟨v, hpost.inv⟩, hpost.owned_le (hhits hclean)⟩
    refine ⟨hext, fun _ => hfree, fun a e hsome _ hclean hinv => ?_⟩
    obtain ⟨b, rfl, heq⟩ := Option.map_eq_some_iff.mp hsome
    obtain ⟨rfl, rfl⟩ := Prod.mk.inj heq
    obtain ⟨v, hpost⟩ := hpost hinv
    have hnew := hpost.new b rfl
    have hlength : i < t.avmf.regions.length := by
      have hsame := ((hcalls.locked i List.mem_cons_self).2).trans hregion
      exact (List.getElem?_eq_some_iff.mp hsame).1
    refine ⟨?_, hnew.size_eq, r', List.getElem?_set_self hlength, hnew.made, hnew.type_eq, rfl⟩
    rcases hpost.phys b rfl with hzero | ⟨e, he, heq⟩
    · exact hzero
    · exact heq.trans (hhits hclean e he)

-- What holds of an allocation in every region holds of the one in the region that is found.
omit h in
theorem avmfAllocHdrInternal_sat {size : Nat} {type : MemoryAllocType} {s : KernelState}
    {Q : Option (Nat × Nat × Extent) → KernelState → Prop} (hnone : Q none s)
    (hregion : ∀ i minVirt maxVirt, 0 < size → minVirt < 2 ^ 64 →
      Sat (regionAllocAt sv i size PAGE_SIZE minVirt maxVirt) s
        (fun hdr t => Q (hdr.map (i, ·)) t) fun _ => True) :
    Sat (avmfAllocHdrInternal sv size type) s Q fun _ => True := by
  unfold avmfAllocHdrInternal
  refine Sat.ite (fun _ => hnone) fun hpos => ?_
  split
  · exact hnone
  · rename_i minVirt maxVirt hbounds
    have hmin : minVirt < 2 ^ 64 := by
      cases type <;> cases hbounds <;> decide
    rw [sat_bind, sat_get]
    split
    · exact hnone
    · exact Sat.bind (hregion _ _ _ (by omega) hmin) fun _ _ ht => ht

theorem avmfAllocHdrInternal_spec (size : Nat) (hpage : PAGE_SIZE ∣ size) (type : MemoryAllocType)
    (s : KernelState) :
    Sat (avmfAllocHdrInternal sv size type) s (fun result t => Extends s t ∧
      ∀ i hdr, result = some (i, hdr) → Allocated i size (some hdr) s t) fun _ => True := by
  refine avmfAllocHdrInternal_sat ⟨.refl s, nofun⟩ fun i minVirt maxVirt hpos hmin => ?_
  refine (regionAllocAt_spec h i maxVirt hpos hpage hmin s).mono ?_ fun _ hE => hE
  intro hdr t ht
  refine ⟨ht.toExtends, fun j hdr' hsome => ?_⟩
  cases hdr with
  | none => cases hsome
  | some hdr =>
      cases hsome
      exact ht

theorem avmfAllocVirt_extends (size : Nat) (type : MemoryAllocType) :
    Keeps Extends (avmfAllocVirt sv size type) := by
  intro s
  unfold avmfAllocVirt
  refine Sat.bind (avmfAllocHdrInternal_spec h _ (PAGE_SIZE_dvd_align4k size) type s)
    fun found t ht => ?_
  split <;> exact ht.1

theorem allocPageTable_extends : Keeps Extends (allocPageTable sv) := by
  intro s
  unfold allocPageTable
  rw [sat_bind, sat_get]
  refine Sat.ite (fun _ => ?_) fun hready => Sat.ite (fun _ => Extends.refl s) fun _ => ?_
  · refine Keeps.bind takeTablePage_extends (fun phys => .bind (avmfAllocVirt_extends h _ _)
      fun virt => .ite (.pure _) (.bind ?_ fun _ => .pure _)) s
    exact pagerWrite_extends (fun _ => rfl) fun _ => rfl
  · exact Sat.ite (fun _ => early_extends hready rfl rfl rfl rfl) fun _ =>
      early_extends hready rfl rfl rfl rfl

end Alloc

theorem pagerServices_extends (depth : Nat) : (pagerServices depth).Keeps Extends :=
  pagerServices_keeps pagerSteps_extends (fun _ h => allocPageTable_extends h) depth

-- What avmf_region_free keeps of a region.
theorem Region.Inv.free {r r₁ r' : Region} {lo hi base size : Nat} {turns : List (Region × Nat)}
    {target : Option Nat} (hinv : r.Inv lo hi) (hpassed : Passed .alloc turns r r₁)
    (hgiven : Region.GivenBack r₁ base size target r') :
    r'.Inv lo hi ∧ ∀ p, cover r'.owned p ≤ cover r.owned p := by
  have hinv₁ := hpassed.inv hinv
  refine ⟨hgiven.inv hinv₁, fun p => ?_⟩
  rw [← hpassed.owned_eq]
  cases hgiven with
  | missed => exact Nat.le_refl _
  | cached hc hretyped =>
      have hadd := hretyped.owned_add hc.type_eq (hinv₁.made_of_type (by rw [hc.type_eq]; decide)) p
      omega

-- Giving a range back takes pages from nobody but the header.
theorem regionFreeAt_extends {sv : Services Pager} (h : sv.Keeps Extends) (i base size : Nat) :
    Keeps Extends (regionFreeAt sv i base size) := by
  intro s
  unfold regionFreeAt
  rw [sat_bind, sat_get]
  split
  · exact Extends.refl s
  · rename_i r hregion
    refine Sat.ite (fun _ => Extends.refl s) fun _ => ?_
    simp only [sat_bind, sat_spinLock]
    refine ⟨fun _ => trivial, fun hfree => sat_of_forall_returns fun r' t hret => ?_⟩
    have hcalls := (avmfRegionFree_keeps (nodePool_extends h) r base size).returns hret
    refine storeRegion_extends hregion hfree (List.prefix_refl _) hcalls fun _ _ hinv => ?_
    obtain ⟨v, hv⟩ := hinv.regions r (List.mem_of_getElem? hregion)
    obtain ⟨-, r₁, hpassed, hgiven⟩ :=
      (avmfRegionFree_spec (nodePool sv) hv v.base_lt base size _ fun _ => True).of_returns hret
    obtain ⟨hinv', howned⟩ := hv.free hpassed hgiven
    exact ⟨⟨v, hinv'⟩, howned⟩

end AosKernel.Mm
