import AosKernel.Font.ReaderSafety
import Mathlib.Data.List.Forall2

namespace AosKernel.Font

open Verif

-- The records that make a glyph.
def usedRecords (records : List FontGlyph) : List FontGlyph := records.filter fun g => ¬ g.Skipped

section Table

variable {grants : Nat → Bool} {data front rest : List UInt8} {hdr : FontHdr} {i count : Nat}
  {g : FontGlyph} {records : List FontGlyph} {c : Converted}

theorem readGlyph_record (front rest : List UInt8) (g : FontGlyph) :
    readGlyph (front ++ (g.bytes ++ rest)) front.length = .ok g := by
  have hin : front.length + 34 ≤ (front ++ (g.bytes ++ rest)).length := by
    rw [List.length_append, List.length_append, FontGlyph.length_bytes]
    unfold sizeofFontGlyph
    omega
  rw [readGlyph, if_pos hin, fontGlyph_bytes]

-- The `i`-th record and those behind it are `records`.
structure TableAt (data : List UInt8) (hdr : FontHdr) (i : Nat) (records : List FontGlyph) : Prop where
  split : ∃ front rest, front.length = glyphOffset hdr i ∧
    data = front ++ (records.flatMap FontGlyph.bytes ++ rest)

theorem TableAt.first (h : TableAt data hdr i (g :: records)) :
    readGlyph data (glyphOffset hdr i) = .ok g := by
  obtain ⟨front, rest, hfront, rfl⟩ := h.split
  rw [← hfront, List.flatMap_cons, List.append_assoc]
  exact readGlyph_record front _ g

theorem TableAt.next (h : TableAt data hdr i (g :: records)) : TableAt data hdr (i + 1) records := by
  obtain ⟨front, rest, hfront, hdata⟩ := h.split
  refine ⟨front ++ g.bytes, rest, ?_, ?_⟩
  · rw [List.length_append, hfront, FontGlyph.length_bytes, glyphOffset, glyphOffset, Nat.succ_mul,
      Nat.add_assoc]
  · rw [hdata, List.flatMap_cons, List.append_assoc, List.append_assoc]

theorem TableAt.inside (h : TableAt data hdr i records) :
    hdr.glyphs.toNat ≤ data.length ∧ i ≤ wholeRecords data hdr := by
  obtain ⟨front, rest, hfront, hdata⟩ := h.split
  have hlength : glyphOffset hdr i ≤ data.length := by
    rw [hdata, List.length_append, hfront]
    exact Nat.le_add_right _ _
  unfold glyphOffset sizeofFontGlyph at hlength
  unfold wholeRecords sizeofFontGlyph
  omega

-- The first pass counts the records that are used.
theorem countGlyphs_table (htable : TableAt data hdr i records)
    (hpasses : ∀ g ∈ records, g.Passes data.length hdr) (hcount : records.length ≤ count) :
    countGlyphs data hdr records.length i count =
      .ok (count - records.length + (usedRecords records).length) := by
  induction records generalizing i count with
  | nil => rfl
  | cons g records ih =>
      obtain ⟨hstarts, hi⟩ := htable.inside
      have hlater : ∀ g ∈ records, g.Passes data.length hdr :=
        fun g hg => hpasses g (List.mem_cons_of_mem _ hg)
      rw [List.length_cons] at hcount
      rw [List.length_cons, countGlyphs_step hstarts hi htable.first, usedRecords]
      by_cases hskip : g.Skipped
      · rw [if_pos hskip, ih htable.next hlater (by omega), List.filter_cons_of_neg (by simpa using hskip),
          ← usedRecords]
        congr 2
        omega
      · have hinside : g.bitmapInside data.length hdr = true :=
          (hpasses g List.mem_cons_self).resolve_left hskip
        rw [if_neg hskip, if_neg (not_not.mpr hinside), ih htable.next hlater (by omega),
          List.filter_cons_of_pos (by simpa using hskip), ← usedRecords, List.length_cons]
        congr 1
        omega

-- What the last marked record makes, or what was there before.
def lastMarked : Option PyrionGlyph → List (FontGlyph × PyrionGlyph) → Option PyrionGlyph
  | before, [] => before
  | before, (g, og) :: rest => lastMarked (if g.isFallback = 0 then before else some og) rest

def makeGlyph (g : FontGlyph) (r : Rect) : PyrionGlyph := pyrionGlyph g r.x r.y

-- The second pass makes its glyphs of them, where the converter puts them.
theorem convertGlyphs_table (htable : TableAt data hdr i records) {a : AtlasData} {rects : List Rect}
    (hconvert : convertAll grants c.atlas ((usedRecords records).map (glyphBitmap data hdr)) =
      .ok (a, rects))
    (hcount : c.glyphs.length + (usedRecords records).length ≤ count) :
    convertGlyphs grants data hdr count records.length i c =
      .ok { atlas := a
            glyphs := c.glyphs ++ List.zipWith makeGlyph (usedRecords records) rects
            fallbackGlyph := lastMarked c.fallbackGlyph
              ((usedRecords records).zip (List.zipWith makeGlyph (usedRecords records) rects)) } := by
  induction records generalizing i c rects with
  | nil =>
      cases hconvert
      rw [usedRecords, List.filter_nil, List.zipWith_nil_left, List.append_nil]
      rfl
  | cons g records ih =>
      rw [List.length_cons, convertGlyphs, htable.first, bind_ok]
      by_cases hskip : g.Skipped
      · have hused : usedRecords (g :: records) = usedRecords records :=
          List.filter_cons_of_neg (by simpa using hskip)
        rw [hused] at hconvert hcount ⊢
        rw [if_pos hskip]
        exact ih htable.next hconvert hcount
      · have hused : usedRecords (g :: records) = g :: usedRecords records :=
          List.filter_cons_of_pos (by simpa using hskip)
        rw [hused] at hconvert hcount ⊢
        rw [if_neg hskip]
        rw [List.map_cons, convertAll] at hconvert
        cases hfirst : convertGlyphToRgba8 grants c.atlas (glyphBitmap data hdr g) with
        | error e =>
            rw [hfirst] at hconvert
            cases hconvert
        | ok made =>
            obtain ⟨a₁, x, y⟩ := made
            rw [hfirst, bind_ok] at hconvert
            dsimp only at hconvert
            cases hrest : convertAll grants a₁ ((usedRecords records).map (glyphBitmap data hdr)) with
            | error e =>
                rw [hrest] at hconvert
                cases hconvert
            | ok last =>
                rw [hrest, bind_ok] at hconvert
                cases hconvert
                rw [List.length_cons] at hcount
                have hroom : ¬ count ≤ c.glyphs.length := by omega
                rw [bind_ok]
                dsimp only
                have hmore : (c.glyphs ++ [pyrionGlyph g x y]).length +
                    (usedRecords records).length ≤ count := by
                  rw [List.length_append, List.length_singleton]
                  omega
                rw [if_neg hroom, ih htable.next hrest hmore, List.zipWith_cons_cons,
                  List.zip_cons_cons, lastMarked, List.append_assoc, List.singleton_append]
                rfl

end Table

-- A file the reader has no reason to refuse, with its table of records.
structure FileOf (data : List UInt8) (records : List FontGlyph) : Prop where
  size : sizeofFontHdr ≤ data.length
  accepted : (fontHdr data).accepted data.length = true
  table : TableAt data (fontHdr data) 0 records
  count : (fontHdr data).glyphCount.toNat = records.length
  passes : ∀ g ∈ records, g.Passes data.length (fontHdr data)
  used : usedRecords records ≠ []
  regular : ∀ g ∈ usedRecords records, (glyphBitmap data (fontHdr data) g).Regular
  height : (((usedRecords records).map fun g => (g.width.toNat, g.height.toNat)).foldl
    (Shelf.add INITIAL_WIDTH 512) ⟨0, 0, 0, INITIAL_HEIGHT⟩).height ≤ 65536

section File

variable {grants : Nat → Bool} {data : List UInt8} {records : List FontGlyph}

theorem FileOf.backed (h : FileOf data records) :
    ∀ b ∈ (usedRecords records).map (glyphBitmap data (fontHdr data)), b.Backed := by
  intro b hb
  obtain ⟨g, hg, rfl⟩ := List.mem_map.mp hb
  obtain ⟨hmem, hused⟩ := List.mem_filter.mp hg
  exact glyphBitmap_backed ((h.passes g hmem).resolve_left (by simpa using hused))

theorem FileOf.accepts (h : FileOf data records) (hgranted : ∀ n, grants n = true) :
    AcceptsAll grants (emptyAtlas 1) ((usedRecords records).map (glyphBitmap data (fontHdr data))) := by
  refine ⟨hgranted, Nat.zero_le _, List.forall_mem_map.mpr h.regular, ?_⟩
  have hextents : (usedRecords records).map (Bitmap.extent ∘ glyphBitmap data (fontHdr data)) =
      (usedRecords records).map fun g => (g.width.toNat, g.height.toNat) :=
    List.map_congr_left fun g _ => glyphBitmap_extent data (fontHdr data) g
  rw [List.map_map, hextents]
  exact h.height

-- It becomes a font with one glyph for each record that is used.
theorem aosbfToPyrionFont_reads (h : FileOf data records) (hgranted : ∀ n, grants n = true) :
    ∃ (font : PyrionFont) (a : AtlasData) (rects : List Rect),
      aosbfToPyrionFont grants data = .ok font ∧ font.atlas = a.atlas ∧ (∃ s, a.Packed s) ∧
        font.glyphs = List.zipWith makeGlyph (usedRecords records) rects ∧
        font.fallbackGlyph = lastMarked none ((usedRecords records).zip font.glyphs) ∧
        List.Forall₂ (fun g r => a.Shows (glyphBitmap data (fontHdr data) g) r)
          (usedRecords records) rects := by
  have hsize : ¬ data.length < sizeofFontHdr := Nat.not_lt.mpr h.size
  have hpass := countGlyphs_table h.table h.passes (Nat.le_refl _)
  rw [Nat.sub_self, Nat.zero_add] at hpass
  have hused : 0 < (usedRecords records).length := List.length_pos_of_ne_nil h.used
  have hfew : (usedRecords records).length < 2 ^ 32 := by
    have hle : (usedRecords records).length ≤ records.length := List.length_filter_le _ _
    rw [← h.count] at hle
    exact Nat.lt_of_le_of_lt hle (fontHdr data).glyphCount.isLt
  have hentries : ¬ UINT64_MAX / sizeofPyrionGlyph < (usedRecords records).length := by
    unfold UINT64_MAX sizeofPyrionGlyph
    omega
  have hgrant : ¬ ¬ grants 0 = true := not_not.mpr (hgranted 0)
  rcases convertAll_spots grants (Or.inl ⟨1, rfl⟩) h.backed with
    ⟨-, hno⟩ | ⟨a, hconvert, hleft, -, -, -, hshows⟩
  · exact absurd (h.accepts hgranted) hno
  have hpacked : ∃ s, a.Packed s := by
    rcases hleft with ⟨hnil, -⟩ | hp
    · exact absurd (List.map_eq_nil_iff.mp hnil) h.used
    · exact hp
  have hsecond := convertGlyphs_table h.table (c := ⟨emptyAtlas 1, [], none⟩) hconvert
    (Nat.le_of_eq (Nat.zero_add _))
  rw [List.nil_append] at hsecond
  rw [aosbfToPyrionFont, if_neg hsize]
  dsimp only
  rw [if_neg (not_not.mpr h.accepted), h.count, hpass, bind_ok, if_neg hentries,
    if_neg (Nat.not_lt.mpr hused), if_neg hgrant, hsecond, bind_ok]
  exact ⟨_, a, _, rfl, rfl, hpacked, rfl, rfl, List.forall₂_map_left_iff.mp hshows⟩

end File

end AosKernel.Font
