import AosKernel.Lib.MapRange
import AosKernel.Mm.HeaderContents
import AosKernel.Mm.Region

namespace AosKernel.Mm

open Verif Verif.Span

def Range.span (f : Range) : Span := ⟨f.base, f.size⟩
def Extent.span (e : Extent) : Span := ⟨e.virtAddr, e.size⟩

@[simp] theorem Range.span_mk (addr base size : Nat) :
    (Range.mk addr base size).span = ⟨base, size⟩ := rfl

namespace Region

def extent (r : Region) (h : Nat) : Extent := (r.headers h).toExtent

def type (r : Region) (h : Nat) : AvmfHeaderType := (r.headers h).type

-- The headers that have been set up, whatever has become of them.
def extents (r : Region) : List Extent := (List.range r.made).map r.extent

def spans (r : Region) : List Span := r.freeList.map Range.span ++ r.extents.map Extent.span

-- What the operations keep. The free ranges and the headers tile the region,
-- and page-multiple sizes make every header large enough for the cache.
structure Inv (r : Region) (lo hi : Nat) : Prop where
  signature : r.signature = AVMF_SIGNATURE
  version : r.version = AVMF_VERSION
  base_eq : r.base = lo
  limit_eq : r.limit = hi
  count : r.freeCount = r.freeList.length
  intact : ∀ h, (r.headers h).Intact
  unmade : ∀ h, r.made ≤ h → r.type h = .corrupt
  pages : ∀ h < r.made, PAGE_SIZE ∣ (r.extent h).size
  tiles : Tiles r.spans lo hi
  allocated : r.allocatedBytes = total (r.extents.map Extent.span)

section Inv

variable {r : Region} {lo hi h k : Nat}

theorem mem_extents {e : Extent} : e ∈ r.extents ↔ ∃ h < r.made, r.extent h = e := by
  simp [extents]

theorem Inv.free_mem (hinv : r.Inv lo hi) {f : Range} (hf : f ∈ r.freeList) :
    lo ≤ f.base ∧ f.base + f.size ≤ hi ∧ 0 < f.size := by
  have hs : f.span ∈ r.spans := List.mem_append_left _ (List.mem_map_of_mem hf)
  exact ⟨hinv.tiles.lo_le hs, hinv.tiles.le_hi hs, hinv.tiles.size_pos _ hs⟩

theorem Inv.extent_mem (hinv : r.Inv lo hi) (hh : h < r.made) :
    lo ≤ (r.extent h).virtAddr ∧ (r.extent h).virtAddr + (r.extent h).size ≤ hi ∧
      0 < (r.extent h).size := by
  have hs : (r.extent h).span ∈ r.spans :=
    List.mem_append_right _ (List.mem_map_of_mem (mem_extents.mpr ⟨h, hh, rfl⟩))
  exact ⟨hinv.tiles.lo_le hs, hinv.tiles.le_hi hs, hinv.tiles.size_pos _ hs⟩

theorem Inv.made_of_type (hinv : r.Inv lo hi) (htype : r.type h ≠ .corrupt) : h < r.made := by
  by_contra hge
  exact htype (hinv.unmade h (Nat.le_of_not_lt hge))

theorem Inv.not_rejected (hinv : r.Inv lo hi) (hlt : lo < hi) : ¬ r.Rejected := by
  rw [RegionHeader.Rejected, hinv.signature, hinv.version, hinv.base_eq, hinv.limit_eq]
  omega

-- Space that one header covers is covered by no other and is not free.
theorem Inv.apart (hinv : r.Inv lo hi) (hh : h < r.made) (hk : k < r.made) (hne : h ≠ k) :
    Apart (r.extent h).span (r.extent k).span := by
  have hpair := (List.pairwise_append.mp hinv.tiles.apart).2.1
  rw [extents, List.map_map, List.pairwise_map] at hpair
  have hsymm : Std.Symm fun a b => Apart ((Extent.span ∘ r.extent) a) ((Extent.span ∘ r.extent) b) :=
    ⟨fun _ _ => Apart.symm⟩
  exact hpair.forall (List.mem_range.mpr hh) (List.mem_range.mpr hk) hne

theorem Inv.apart_free (hinv : r.Inv lo hi) (hh : h < r.made) {f : Range} (hf : f ∈ r.freeList) :
    Apart (r.extent h).span f.span :=
  ((List.pairwise_append.mp hinv.tiles.apart).2.2 _ (List.mem_map_of_mem hf) _
    (List.mem_map_of_mem (mem_extents.mpr ⟨h, hh, rfl⟩))).symm

-- The header at an address is the only one there.
theorem Inv.eq_of_mem (hinv : r.Inv lo hi) (hh : h < r.made) (hk : k < r.made) {x : Nat}
    (hxh : Mem x (r.extent h).span) (hxk : Mem x (r.extent k).span) : h = k := by
  by_contra hne
  exact hinv.apart hh hk hne x hxh hxk

theorem Inv.mem_start (hinv : r.Inv lo hi) (hh : h < r.made) :
    Mem (r.extent h).virtAddr (r.extent h).span := by
  have hpos := (hinv.extent_mem hh).2.2
  simp only [Mem, Extent.span]
  omega

end Inv

-- Links, lists, types and use marks may differ, but no header stands for
-- anything else.
structure Relinked (r r' : Region) : Prop where
  header : r'.toRegionHeader = r.toRegionHeader
  allocatedBytes : r'.allocatedBytes = r.allocatedBytes
  freeList : r'.freeList = r.freeList
  freeCount : r'.freeCount = r.freeCount
  made : r'.made = r.made
  extent : ∀ h, r'.extent h = r.extent h
  intact : ∀ h, (r.headers h).Intact → (r'.headers h).Intact

section Relinked

variable {r r' r'' : Region} {lo hi : Nat}

theorem Relinked.refl (r : Region) : r.Relinked r :=
  ⟨rfl, rfl, rfl, rfl, rfl, fun _ => rfl, fun _ h => h⟩

theorem Relinked.trans (h : r.Relinked r') (h' : r'.Relinked r'') : r.Relinked r'' :=
  ⟨h'.header.trans h.header, h'.allocatedBytes.trans h.allocatedBytes, h'.freeList.trans h.freeList,
    h'.freeCount.trans h.freeCount, h'.made.trans h.made,
    fun a => (h'.extent a).trans (h.extent a), fun a ha => h'.intact a (h.intact a ha)⟩

theorem Relinked.extents (h : r.Relinked r') : r'.extents = r.extents := by
  rw [Region.extents, Region.extents, h.made]
  exact List.map_congr_left fun a _ => h.extent a

theorem Relinked.rejected (h : r.Relinked r') : r'.Rejected ↔ r.Rejected := by rw [h.header]

theorem Inv.relinked (hinv : r.Inv lo hi) (h : r.Relinked r')
    (hunmade : ∀ a, r.made ≤ a → r'.type a = .corrupt) : r'.Inv lo hi where
  signature := h.header ▸ hinv.signature
  version := h.header ▸ hinv.version
  base_eq := h.header ▸ hinv.base_eq
  limit_eq := h.header ▸ hinv.limit_eq
  count := by rw [h.freeCount, h.freeList, hinv.count]
  intact a := h.intact a (hinv.intact a)
  unmade a ha := hunmade a (h.made ▸ ha)
  pages a ha := by
    rw [h.extent]
    exact hinv.pages a (h.made ▸ ha)
  tiles := by
    have htiles := hinv.tiles
    rw [spans] at htiles ⊢
    rwa [h.freeList, h.extents]
  allocated := by rw [h.allocatedBytes, h.extents, hinv.allocated]

-- A store to one header that is none of its extent and signature.
theorem modifyHeader_relinked (r : Region) (c : Nat) {f : Header → Header}
    (hextent : ∀ x, (f x).toExtent = x.toExtent) (hintact : ∀ x, x.Intact → (f x).Intact) :
    r.Relinked (r.modifyHeader c f) := by
  refine ⟨rfl, rfl, rfl, rfl, rfl, fun h => ?_, fun h hh => ?_⟩
  · by_cases hc : h = c
    · subst hc
      rw [Region.extent, modifyHeader, HeaderRegion.headers_modify_self, hextent]
      rfl
    · rw [Region.extent, modifyHeader, HeaderRegion.headers_modify_of_ne _ hc]
      rfl
  · by_cases hc : h = c
    · subst hc
      rw [modifyHeader, HeaderRegion.headers_modify_self]
      exact hintact _ hh
    · rwa [modifyHeader, HeaderRegion.headers_modify_of_ne _ hc]

theorem relinked_of_sameContents {links : HeaderRegion} (h : r.SameContents links) :
    r.Relinked { r with toHeaderRegion := links } :=
  ⟨h.header, rfl, rfl, rfl, rfl, h.extent, fun _ ha => h.intact ha⟩

end Relinked

end Region

end AosKernel.Mm
