import AosKernel.Mm.ListGrowth

namespace AosKernel.Mm

open Verif Verif.Exec Verif.Span Region

-- What the ALLOC headers of all regions stand for.
def allocHeaders (a : Avmf) : List Extent := a.regions.flatMap fun r => r.ofType .alloc

theorem mem_allocHeaders {a : Avmf} {hdr : Extent} :
    hdr ∈ allocHeaders a ↔ ∃ (i : Nat) (r : Region) (h : Nat), a.regions[i]? = some r ∧
      h < r.made ∧ r.type h = .alloc ∧ r.extent h = hdr := by
  rw [allocHeaders, List.mem_flatMap]
  constructor
  · rintro ⟨r, hr, hmem⟩
    obtain ⟨i, hi⟩ := List.mem_iff_getElem?.mp hr
    obtain ⟨h, hh, htype, hextent⟩ := mem_ofType.mp hmem
    exact ⟨i, r, h, hi, hh, htype, hextent⟩
  · rintro ⟨i, r, h, hr, hh, htype, hextent⟩
    exact ⟨r, List.mem_of_getElem? hr, mem_ofType.mpr ⟨h, hh, htype, hextent⟩⟩

-- A header of the allocator stands for `hdr`, and it is not for reuse.
def Avmf.Taken (a : Avmf) (hdr : Extent) : Prop :=
  ∃ (i : Nat) (r : Region) (h : Nat), a.regions[i]? = some r ∧ h < r.made ∧ r.type h ≠ .cache ∧
    r.extent h = hdr

theorem spaces_apart : spaces.Pairwise fun v w => v.limit ≤ w.base := by decide

theorem Partitioned.region_apart {a : Avmf} (hp : Partitioned a) {i j : Nat} {r q : Region}
    (hr : a.regions[i]? = some r) (hq : a.regions[j]? = some q) (hij : i ≠ j) {h k : Nat}
    (hh : h < r.made) (hk : k < q.made) : Apart (r.extent h).span (q.extent k).span := by
  obtain ⟨v, hv, hinv⟩ := hp.region hr
  obtain ⟨w, hw, hinv'⟩ := hp.region hq
  have hspaces : v.limit ≤ w.base ∨ w.limit ≤ v.base := by
    obtain ⟨hi, rfl⟩ := List.getElem?_eq_some_iff.mp hv
    obtain ⟨hj, rfl⟩ := List.getElem?_eq_some_iff.mp hw
    rcases Nat.lt_or_gt_of_ne hij with hlt | hlt
    · exact .inl (List.pairwise_iff_getElem.mp spaces_apart i j hi hj hlt)
    · exact .inr (List.pairwise_iff_getElem.mp spaces_apart j i hj hi hlt)
  have hhspan := hinv.extent_mem hh
  have hkspan := hinv'.extent_mem hk
  intro x hxh hxk
  simp only [Mem, Extent.span] at hxh hxk
  omega

-- No address is covered by two headers.
theorem Partitioned.header_unique {a : Avmf} (hp : Partitioned a) {i j : Nat} {r q : Region}
    (hr : a.regions[i]? = some r) (hq : a.regions[j]? = some q) {h k : Nat} (hh : h < r.made)
    (hk : k < q.made) {x : Nat} (hxh : Mem x (r.extent h).span) (hxk : Mem x (q.extent k).span) :
    i = j ∧ r = q ∧ h = k := by
  by_cases hij : i = j
  · subst hij
    obtain rfl := Option.some.inj (hr.symm.trans hq)
    obtain ⟨v, -, hinv⟩ := hp.region hr
    exact ⟨rfl, rfl, hinv.eq_of_mem hh hk hxh hxk⟩
  · exact absurd hxk (hp.region_apart hr hq hij hh hk x hxh)

theorem Partitioned.mem_span {a : Avmf} (hp : Partitioned a) {hdr : Extent} (htaken : a.Taken hdr) :
    Mem hdr.virtAddr hdr.span ∧ hdr.virtAddr ≠ 0 := by
  obtain ⟨i, r, h, hr, hh, -, rfl⟩ := htaken
  obtain ⟨v, -, hinv⟩ := hp.region hr
  have hlow := (hinv.extent_mem hh).1
  have hbase := v.base_pos
  exact ⟨hinv.mem_start hh, by omega⟩

-- Of the addresses in the lower half of the address space, avmf_find_region
-- finds those alone whose wrapping score 2v + 1 stays below the USER limit.
def Findable (virt : Nat) : Prop :=
  2 * virt + 1 < AOS_USER_SPACE_BASE_END ∨ AOS_USER_SPACE_BASE_END ≤ virt

instance (virt : Nat) : Decidable (Findable virt) := by unfold Findable; infer_instance

-- One turn of the loop over the regions, when all addresses are asked for.
theorem findRegion_cons {minVirt minSize i : Nat} {best : Option Nat} {r : Region}
    (rest : List Region) (hvalid : ¬ r.Rejected) (hlimit : r.limit < UINT64_MAX) :
    findRegion minVirt UINT64_MAX minSize i best (r :: rest) =
      findRegion minVirt UINT64_MAX minSize (i + 1)
        (if r.base ≤ minVirt ∧ (minSize + minVirt) % 2 ^ 64 < r.limit then some i else best) rest := by
  have hscore : 0 < regionScore r minVirt UINT64_MAX minSize ↔
      (minSize + minVirt) % 2 ^ 64 < r.limit := by
    rw [regionScore, if_neg (by omega), if_neg (by omega)]
    split <;> simp_all
  rw [findRegion]
  by_cases hbase : r.base > minVirt
  · rw [if_pos (.inr hbase), if_neg (by omega)]
  · rw [if_neg (by simp [hvalid, hbase])]
    by_cases hlow : (minSize + minVirt) % 2 ^ 64 < r.limit
    · rw [if_pos (hscore.mpr hlow), if_pos ⟨by omega, hlow⟩]
    · rw [if_neg (mt hscore.mp hlow), if_neg (mt And.right hlow)]

-- avmf_find_region, for the address of a header of region `i`.
theorem Partitioned.find_region {a : Avmf} (h : Partitioned a) {i k : Nat} {r : Region}
    (hr : a.regions[i]? = some r) (hk : k < r.made) :
    avmfFindRegion a (r.extent k).virtAddr UINT64_MAX (((r.extent k).virtAddr + 1) % 2 ^ 64) =
      if Findable (r.extent k).virtAddr then some i else none := by
  obtain ⟨v, hv, hinv⟩ := h.region hr
  obtain ⟨hlow, hhigh, hpos⟩ := hinv.extent_mem hk
  have hspan : v.base ≤ (r.extent k).virtAddr ∧ (r.extent k).virtAddr < v.limit := ⟨hlow, by omega⟩
  clear hr hk hinv hlow hhigh hpos
  generalize (r.extent k).virtAddr = virt at hspan ⊢
  unfold Partitioned spaces at h
  simp only [List.forall₂_cons_left_iff, List.forall₂_nil_left_iff] at h
  obtain ⟨user, _, huser, ⟨kernel, _, hkernel, ⟨driver, _, hdriver, ⟨sensitive, _, hsensitive, rfl,
    rfl⟩, rfl⟩, rfl⟩, hregions⟩ := h
  have hnodes : ∀ w ∈ spaces, w.base < w.limit ∧ w.limit < UINT64_MAX := by decide
  have hturn {q : Region} {w : VirtualRegion} (hw : w ∈ spaces) (hq : q.Inv w.base w.limit)
      (rest : List Region) (j : Nat) (best : Option Nat) :
      findRegion virt UINT64_MAX ((virt + 1) % 2 ^ 64) j best (q :: rest) =
        findRegion virt UINT64_MAX ((virt + 1) % 2 ^ 64) (j + 1)
          (if w.base ≤ virt ∧ ((virt + 1) % 2 ^ 64 + virt) % 2 ^ 64 < w.limit then some j else best)
          rest := by
    rw [← hq.base_eq, ← hq.limit_eq]
    refine findRegion_cons rest (hq.not_rejected (hnodes w hw).1) ?_
    rw [hq.limit_eq]
    exact (hnodes w hw).2
  rw [avmfFindRegion, hregions, hturn (by simp [spaces]) huser, hturn (by simp [spaces]) hkernel,
    hturn (by simp [spaces]) hdriver, hturn (by simp [spaces]) hsensitive, findRegion]
  have huser : userSpace.base = 0x1000 ∧ userSpace.limit = 0x20000000 := ⟨rfl, rfl⟩
  have hkernel : kernelSpace.base = 0xFFFFA00000000000 ∧ kernelSpace.limit = 0xFFFFC00000000000 :=
    ⟨rfl, rfl⟩
  have hdriver : driverSpace.base = 0xFFFFC00000000000 ∧ driverSpace.limit = 0xFFFFE00000000000 :=
    ⟨rfl, rfl⟩
  have hsensitive : sensitiveSpace.base = 0xFFFFE00000000000 ∧
      sensitiveSpace.limit = 0xFFFFF00000000000 := ⟨rfl, rfl⟩
  have hfindable : Findable virt ↔ 2 * virt + 1 < 0x20000000 ∨ 0x20000000 ≤ virt := Iff.rfl
  rcases i with _ | _ | _ | _ | i
  · cases hv
    rw [if_neg (by omega), if_neg (by omega), if_neg (by omega)]
    by_cases hhalf : 2 * virt + 1 < 0x20000000
    · rw [if_pos (by omega), if_pos (hfindable.mpr (.inl hhalf))]
    · rw [if_neg (by omega), if_neg (mt hfindable.mp (by omega))]
  · cases hv
    rw [if_neg (by omega), if_neg (by omega), if_pos (by omega), if_pos (hfindable.mpr (by omega))]
  · cases hv
    rw [if_neg (by omega), if_pos (by omega), if_pos (hfindable.mpr (by omega))]
  · cases hv
    rw [if_pos (by omega), if_pos (hfindable.mpr (by omega))]
  · cases hv

-- The header that avmf_free finds for the address of one is that one.
theorem Partitioned.freedHeader_eq {a : Avmf} (hp : Partitioned a) {i h fuel : Nat} {r : Region}
    (hr : a.regions[i]? = some r) (hh : h < r.made) {found : Nat × Nat × Extent} :
    freedHeader a fuel (r.extent h).virtAddr = some found ↔ found = (i, h, r.extent h) ∧
      Findable (r.extent h).virtAddr ∧
        findCovering r (r.extent h).virtAddr fuel (r.lists .alloc).list = some (some h) := by
  obtain ⟨v, -, hinv⟩ := hp.region hr
  have hzero : (r.extent h).virtAddr ≠ 0 := by
    have hlow := (hinv.extent_mem hh).1
    have hbase := v.base_pos
    omega
  obtain ⟨j, k, e⟩ := found
  rw [freedHeader_eq_some, and_iff_right hzero, hp.find_region hr hh]
  constructor
  · rintro ⟨hfind, q, hq, hsearch, rfl⟩
    by_cases hfindable : Findable (r.extent h).virtAddr
    · rw [if_pos hfindable] at hfind
      cases hfind
      obtain rfl := Option.some.inj (hr.symm.trans hq)
      obtain ⟨htype, hcover⟩ := findCovering_some hsearch
      have hk : k < r.made := hinv.made_of_type (by rw [htype]; decide)
      obtain rfl := hinv.eq_of_mem hh hk (hinv.mem_start hh) hcover
      exact ⟨rfl, hfindable, hsearch⟩
    · rw [if_neg hfindable] at hfind
      cases hfind
  · rintro ⟨heq, hfindable, hsearch⟩
    cases heq
    exact ⟨if_pos hfindable, r, hr, hsearch, rfl⟩

-- A header that has just been linked keeps off all that were there before.
theorem HeaderLinked.fresh {i size : Nat} {hdr : Extent} {s t : KernelState}
    (h : HeaderLinked i size hdr s t) (hp : Partitioned s.avmf) (hst : ListsGrow s t) :
    t.avmf.Taken hdr ∧ ∀ c, s.avmf.Taken c → Apart c.span hdr.span := by
  obtain ⟨r, r', a, hr, hr', hmade, htype, rfl, hfresh⟩ := h.linked
  refine ⟨⟨i, r', a, hr', hmade, htype, rfl⟩, ?_⟩
  rintro _ ⟨j, q, k, hq, hk, hkept, rfl⟩
  by_cases hij : j = i
  · subst hij
    cases hr.symm.trans hq
    exact hfresh k hk hkept
  · obtain ⟨q', hq', hgrow⟩ := hst.lists hp j q hq
    rw [← (hgrow.taken k hk hkept).1]
    exact (hst.parts hp).region_apart hq' hr' hij (Nat.lt_of_lt_of_le hk hgrow.made_le) hmade

theorem ListsGrow.taken {s t : KernelState} (h : ListsGrow s t) (hp : Partitioned s.avmf)
    {c : Extent} (hc : s.avmf.Taken c) : t.avmf.Taken c := by
  obtain ⟨i, r, k, hr, hk, hkept, rfl⟩ := hc
  obtain ⟨r', hr', hgrow⟩ := h.lists hp i r hr
  exact ⟨i, r', k, hr', Nat.lt_of_lt_of_le hk hgrow.made_le, hgrow.not_cache hk hkept,
    (hgrow.taken k hk hkept).1⟩

end AosKernel.Mm
