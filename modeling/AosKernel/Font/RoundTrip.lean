import AosKernel.Font.GrayLevel
import AosKernel.Font.ReaderRun
import AosKernel.Font.WrittenFile
import AosKernel.Lib.Pairs

namespace AosKernel.Font

open Verif

-- What an int16_t holds.
def FitsField (v : Int) : Prop := -32768 ≤ v ∧ v < 32768

-- The measures of a glyph that its record has 16 bits for.
structure RenderedGlyph.Fits (r : RenderedGlyph) : Prop where
  rows : r.bitmap.rows < 65536
  bearingX : FitsField r.slot.bitmapLeft
  bearingY : FitsField r.slot.bitmapTop
  advanceX : FitsField (r.slot.advanceX / 64)
  advanceY : FitsField (r.slot.advanceY / 64)

-- Glyphs the reader can put into an atlas.
structure FtFace.Convertible (face : FtFace) : Prop where
  narrow : ∀ r ∈ face.rendered, r.bitmap.width ≤ INITIAL_WIDTH
  pitch : ∀ r ∈ face.rendered,
    (r.bitmap.width * r.bitmap.pixelMode.depth + 7) / 8 ≤ r.bitmap.pitch ∧ r.bitmap.pitch < 65536
  bytes : (face.rendered.map RenderedGlyph.size).sum < 2 ^ 32
  some : face.rendered ≠ []
  atlas : INITIAL_WIDTH * ((face.rendered.map fun r => (r.bitmap.width, r.bitmap.rows)).foldl
    (Shelf.add INITIAL_WIDTH 512) ⟨0, 0, 0, INITIAL_HEIGHT⟩).height * 4 ≤ AOSBF_ATLAS_MAX_HEIGHT

-- `og` is the glyph as it was rendered, with its pixels in an atlas of `columns` columns.
structure RenderedGlyph.Kept (s : Sheet) (columns : Nat) (r : RenderedGlyph) (og : PyrionGlyph) :
    Prop where
  valid : og.valid = true
  codepoint : og.codepoint.toNat = r.charcode
  width : og.width.toNat = r.bitmap.width
  height : og.height.toNat = r.bitmap.rows
  bearingX : og.bearingX.toInt = r.slot.bitmapLeft
  bearingY : og.bearingY.toInt = r.slot.bitmapTop
  advanceX : og.advanceX.toInt = r.slot.advanceX / 64
  advanceY : og.advanceY.toInt = r.slot.advanceY / 64
  pixels : ∀ x < r.bitmap.width, ∀ y < r.bitmap.rows,
    s.read ((og.atlasY.toNat + y) * columns + (og.atlasX.toNat + x)) = .ok (r.bitmap.rgba x y)

def glyphOf (charcode : Nat) (glyphs : List PyrionGlyph) : Option PyrionGlyph :=
  glyphs.find? fun og => og.codepoint.toNat == charcode

-- The reader makes of the file what was rendered.
def RoundTrips (grants : Nat → Bool) (face : FtFace) (data : List UInt8) : Prop :=
  ∃ font s, aosbfToPyrionFont grants data = .ok font ∧ font.atlas = some s ∧
    List.Forall₂ (RenderedGlyph.Kept s font.w.toNat) face.rendered font.glyphs ∧
    font.glyphCount = font.glyphs.length ∧
    font.fallbackGlyph =
      (glyphOf replacementChar font.glyphs).or (glyphOf questionMark font.glyphs)

section Fields

theorem toNat_field {w n : Nat} (h : n < 2 ^ w) : (BitVec.ofNat w n).toNat = n := by
  rw [BitVec.toNat_ofNat]
  exact Nat.mod_eq_of_lt h

theorem fitsField_toInt (v : BitVec 16) : FitsField v.toInt := by
  have hlow := BitVec.le_toInt v
  have hhigh := BitVec.toInt_lt (x := v)
  exact ⟨by simpa using hlow, by simpa using hhigh⟩

theorem toInt_ofInt_fits {v : Int} (h : FitsField v) : (BitVec.ofInt 16 v).toInt = v := by
  obtain ⟨hlow, hhigh⟩ := h
  rw [BitVec.toInt_ofInt]
  exact Int.bmod_eq_of_le (by simpa using hlow) (by simpa using hhigh)

-- What has gone through the fields fits them.
theorem RoundTrips.fits {grants : Nat → Bool} {face : FtFace} {data : List UInt8}
    (h : RoundTrips grants face data) : ∀ r ∈ face.rendered, r.Fits := by
  intro r hr
  obtain ⟨font, s, -, -, hkept, -, -⟩ := h
  obtain ⟨og, -, hog⟩ := forall₂_partner_left hkept hr
  refine ⟨?_, ?_, ?_, ?_, ?_⟩
  · rw [← hog.height]
    exact og.height.isLt
  · rw [← hog.bearingX]
    exact fitsField_toInt _
  · rw [← hog.bearingY]
    exact fitsField_toInt _
  · rw [← hog.advanceX]
    exact fitsField_toInt _
  · rw [← hog.advanceY]
    exact fitsField_toInt _

end Fields

-- A glyph the reader gets right: it fits the record, and the record fits the reader.
structure RenderedGlyph.Sound (r : RenderedGlyph) : Prop extends r.Fits where
  narrow : r.bitmap.width ≤ INITIAL_WIDTH
  pitch : (r.bitmap.width * r.bitmap.pixelMode.depth + 7) / 8 ≤ r.bitmap.pitch
  pitchFits : r.bitmap.pitch < 65536

theorem FtFace.Convertible.sound {face : FtFace} (h : face.Convertible)
    (hfits : ∀ r ∈ face.rendered, r.Fits) : ∀ r ∈ face.rendered, r.Sound := by
  intro r hr
  obtain ⟨hpitch, hpitchFits⟩ := h.pitch r hr
  exact ⟨hfits r hr, h.narrow r hr, hpitch, hpitchFits⟩

section Records

variable {r : RenderedGlyph} {g : FontGlyph} {x : Nat} {format : Format} {blob : List UInt8}

theorem Format.ofCode_code (format : Format) : Format.ofCode format.code = some format := by
  cases format <;> rfl

theorem minimumPitch_eq (hformat : getBitmapAosbfCformat r.bitmap.pixelMode = some format) :
    format.minimumPitch r.bitmap.width = (r.bitmap.width * r.bitmap.pixelMode.depth + 7) / 8 := by
  cases hmode : r.bitmap.pixelMode with
  | mono | gray | gray2 | gray4 =>
      rw [hmode] at hformat
      cases hformat
      simp only [Format.minimumPitch, PixelMode.depth]
      omega
  | none | lcd | lcdV | bgra =>
      rw [hmode] at hformat
      cases hformat

theorem RenderedGlyph.Sound.record_width (h : r.Sound) :
    (r.record x format).width.toNat = r.bitmap.width := by
  have hnarrow := h.narrow
  unfold INITIAL_WIDTH at hnarrow
  exact toNat_field (by omega)

theorem RenderedGlyph.Sound.record_height (h : r.Sound) :
    (r.record x format).height.toNat = r.bitmap.rows :=
  toNat_field h.rows

theorem RenderedGlyph.Sound.record_pitch (h : r.Sound) :
    (r.record x format).pitch.toNat = r.bitmap.pitch :=
  toNat_field h.pitchFits

theorem RenderedGlyph.Sound.record_size (h : r.Sound) :
    (r.record x format).bitmapSize = r.size := by
  rw [FontGlyph.bitmapSize, h.record_pitch, h.record_height, RenderedGlyph.size]

theorem record_source (hx : x < 2 ^ 32) : (r.record x format).sourceOffset = x := by
  have hfield : (r.record x format).atlasX.toNat = x := toNat_field hx
  rw [FontGlyph.sourceOffset, hfield]
  exact Nat.one_mul x

theorem RenderedGlyph.Sound.size_pos (h : r.Sound) : 0 < r.size := by
  have hnotEmpty := r.notEmpty
  have hpitch := h.pitch
  have hwidth : 0 < r.bitmap.width := Nat.pos_of_ne_zero fun hzero => hnotEmpty (Or.inl hzero)
  have hrows : 0 < r.bitmap.rows := Nat.pos_of_ne_zero fun hzero => hnotEmpty (Or.inr hzero)
  have hdepth : 0 < r.bitmap.pixelMode.depth := by
    cases r.bitmap.pixelMode <;> decide
  have hbits := Nat.mul_pos hwidth hdepth
  exact Nat.mul_pos (by omega) hrows

theorem RenderedGlyph.Sound.record_used (h : r.Sound) : ¬ (r.record x format).Skipped := by
  have hnotEmpty := r.notEmpty
  rintro (hvalid | hwidth | hheight)
  · cases hvalid
  · have hzero : (r.record x format).width.toNat = r.bitmap.width := h.record_width
    rw [hwidth] at hzero
    exact hnotEmpty (Or.inl hzero.symm)
  · have hzero : (r.record x format).height.toNat = r.bitmap.rows := h.record_height
    rw [hheight] at hzero
    exact hnotEmpty (Or.inr hzero.symm)

-- The records that are used are those of the glyphs.
theorem usedRecords_written {chars : List FtChar} {glyphs : List FontGlyph}
    (htable : List.Forall₂ (WrittenAs blob) chars glyphs)
    (hsound : ∀ r ∈ chars.filterMap FtChar.rendered, r.Sound) :
    List.Forall₂ (RecordOf blob) (chars.filterMap FtChar.rendered) (usedRecords glyphs) := by
  induction htable with
  | nil => exact .nil
  | @cons c g chars glyphs hfirst hrest ih =>
      unfold WrittenAs at hfirst
      cases hrendered : c.rendered with
      | none =>
          rw [hrendered] at hfirst
          rw [List.filterMap_cons_none hrendered] at hsound ⊢
          rw [usedRecords, List.filter_cons_of_neg (by simpa using hfirst)]
          exact ih hsound
      | some r =>
          rw [hrendered] at hfirst
          rw [List.filterMap_cons_some hrendered] at hsound ⊢
          have hused : ¬ g.Skipped := by
            obtain ⟨x, format, -, -, -, rfl⟩ := hfirst
            exact (hsound r List.mem_cons_self).record_used
          rw [usedRecords, List.filter_cons_of_pos (by simpa using hused)]
          exact .cons hfirst (ih fun r hr => hsound r (List.mem_cons_of_mem _ hr))

end Records

section File

variable {face : FtFace} {hdr : FontHdr} {strings blob : List UInt8} {glyphs : List FontGlyph}
  {r : RenderedGlyph} {g : FontGlyph}

theorem FtFace.Convertible.blob_lt (hface : face.Convertible)
    (h : WrittenParts face hdr strings glyphs blob) : blob.length < 2 ^ 32 := by
  rw [h.blob]
  exact hface.bytes

-- The bitmap of a record is in the file.
theorem RecordOf.inside (hrecord : RecordOf blob r g) (hsound : r.Sound)
    (h : WrittenParts face hdr strings glyphs blob) (hblob : blob.length < 2 ^ 32) :
    g.bitmapInside (writeAosbf hdr strings glyphs blob).length (hdr.withOffsets strings blob) =
      true := by
  obtain ⟨x, format, -, hfits, -, rfl⟩ := hrecord
  have hsource : (r.record x format).sourceOffset = x := record_source (by omega)
  have hsize : (r.record x format).bitmapSize = r.size := hsound.record_size
  have hlength := length_writeAosbf hdr strings blob glyphs
  have hatlas := h.offsets.2.1
  have hrow : ¬ (r.record x format).atlasY.toNat = UINT32_MAX := by
    show ¬ 0 = UINT32_MAX
    decide
  have hcolumn : ¬ ((r.record x format).atlasX ≠ 0 ∧
      UINT64_MAX / (r.record x format).atlasX.toNat < (r.record x format).atlasY.toNat + 1) := by
    rintro ⟨hne, hover⟩
    have hx := (r.record x format).atlasX.isLt
    have hone : UINT64_MAX / (r.record x format).atlasX.toNat < 1 := hover
    rw [Nat.div_lt_iff_lt_mul (toNat_pos hne)] at hone
    unfold UINT64_MAX at hone
    omega
  have hpitch : ¬ UINT64_MAX / (r.record x format).height.toNat < (r.record x format).pitch.toNat := by
    intro hover
    rw [Nat.div_lt_iff_lt_mul (toNat_pos fun hzero => hsound.record_used (Or.inr (Or.inr hzero)))]
      at hover
    have hlarge : UINT64_MAX < (r.record x format).bitmapSize := hover
    unfold UINT64_MAX at hlarge
    omega
  have hend : ¬ UINT64_MAX - (r.record x format).bitmapSize < (r.record x format).sourceOffset := by
    unfold UINT64_MAX
    omega
  have hin : ¬ ((writeAosbf hdr strings glyphs blob).length < (hdr.withOffsets strings blob).atlas.toNat ∨
      (writeAosbf hdr strings glyphs blob).length - (hdr.withOffsets strings blob).atlas.toNat <
        (r.record x format).sourceOffset + (r.record x format).bitmapSize) := by
    omega
  rw [FontGlyph.bitmapInside, if_neg hrow, if_neg hcolumn, if_neg hpitch, if_neg hend, if_neg hin]

theorem readByte_same {bytes buffer : List UInt8} {size i : Nat}
    (hsame : bytes.take size = buffer.take size) (hi : i < size) (hbuffer : size ≤ buffer.length) :
    readByte bytes i = .ok (buffer.getD i 0) := by
  have hbyte : bytes[i]? = buffer[i]? := by
    rw [← List.getElem?_take_of_lt hi, hsame, List.getElem?_take_of_lt hi]
  rw [readByte, hbyte, List.getD_eq_getElem?_getD,
    List.getElem?_eq_getElem (Nat.lt_of_lt_of_le hi hbuffer)]
  rfl

-- The converter gets what was rendered.
theorem RecordOf.regular (hrecord : RecordOf blob r g) (hsound : r.Sound) (data : List UInt8)
    (hdr : FontHdr) : (glyphBitmap data hdr g).Regular := by
  obtain ⟨x, format, hformat, -, -, rfl⟩ := hrecord
  have hwidth : (glyphBitmap data hdr (r.record x format)).width.toNat = r.bitmap.width :=
    (toNat_extended _).trans hsound.record_width
  have hheight : (glyphBitmap data hdr (r.record x format)).height.toNat = r.bitmap.rows :=
    (toNat_extended _).trans hsound.record_height
  have hpitch : (glyphBitmap data hdr (r.record x format)).pitch.toNat = r.bitmap.pitch :=
    (toNat_extended _).trans hsound.record_pitch
  refine ⟨fun hzero => ?_, fun hzero => ?_, ?_, ?_, format, Format.ofCode_code format, ?_⟩
  · rw [hzero] at hwidth
    exact r.notEmpty (Or.inl hwidth.symm)
  · rw [hzero] at hheight
    exact r.notEmpty (Or.inr hheight.symm)
  · rw [hwidth]
    exact hsound.narrow
  · rw [hpitch, hheight]
    exact Nat.le_of_eq hsound.record_size.symm
  · rw [hwidth, hpitch, minimumPitch_eq hformat]
    exact hsound.pitch

theorem RecordOf.pixel (hrecord : RecordOf blob r g) (hsound : r.Sound)
    (h : WrittenParts face hdr strings glyphs blob) (hblob : blob.length < 2 ^ 32) {px py : Nat}
    (hpx : px < r.bitmap.width) (hpy : py < r.bitmap.rows) :
    (glyphBitmap (writeAosbf hdr strings glyphs blob) (hdr.withOffsets strings blob) g).pixel px py =
      r.bitmap.rgba px py := by
  obtain ⟨x, format, hformat, hfits, hbytes, rfl⟩ := hrecord
  have hpitch : ((r.record x format).pitch.setWidth 32).toNat = r.bitmap.pitch :=
    (toNat_extended _).trans hsound.record_pitch
  have hsource : (r.record x format).sourceOffset = x := record_source (by omega)
  have hrow : ∀ i < format.minimumPitch r.bitmap.width,
      readByte (blob.drop x) (py * r.bitmap.pitch + i) =
        .ok (r.bitmap.buffer.getD (py * r.bitmap.pitch + i) 0) := by
    intro i hi
    rw [minimumPitch_eq hformat] at hi
    have hin : py * r.bitmap.pitch + i < r.bitmap.rows * r.bitmap.pitch + 0 :=
      cell_lt (Nat.lt_of_lt_of_le hi hsound.pitch) hpy
    rw [Nat.add_zero, Nat.mul_comm r.bitmap.rows] at hin
    exact readByte_same hbytes hin r.bitmap.filled
  rw [Bitmap.pixel, glyphBitmap]
  dsimp only
  have hcode : Format.ofCode (r.record x format).format = some format := Format.ofCode_code format
  rw [hcode, ← List.drop_drop, h.drop_atlas, hsource, hpitch]
  dsimp only
  rw [pixel_level hformat hpx hrow]
  rfl

theorem blob_pos (hface : face.Convertible) (hsound : ∀ r ∈ face.rendered, r.Sound)
    (h : WrittenParts face hdr strings glyphs blob) : 0 < blob.length := by
  obtain ⟨r, rest, hrendered⟩ := List.exists_cons_of_ne_nil hface.some
  have hpos := (hsound r (hrendered ▸ List.mem_cons_self)).size_pos
  rw [h.blob, hrendered, List.map_cons, List.sum_cons]
  exact Nat.lt_of_lt_of_le hpos (Nat.le_add_right _ _)

theorem WrittenParts.accepted (hface : face.Convertible) (hsound : ∀ r ∈ face.rendered, r.Sound)
    (h : WrittenParts face hdr strings glyphs blob) :
    (hdr.withOffsets strings blob).accepted (writeAosbf hdr strings glyphs blob).length = true := by
  have hpos := blob_pos hface hsound h
  have hblob := hface.blob_lt h
  have hlength := length_writeAosbf hdr strings blob glyphs
  have hatlas := h.offsets.2.1
  have hmagic : ¬ (hdr.withOffsets strings blob).magic ≠ AOS_BITMAP_FONT_MAGIC :=
    not_not.mpr h.magic
  have hversion : ¬ ((hdr.withOffsets strings blob).version ≠ AOS_BITMAP_FONT_VERSION ∨
      (hdr.withOffsets strings blob).revision ≠ AOS_BITMAP_FONT_REVISION) :=
    not_or.mpr ⟨not_not.mpr h.version, not_not.mpr h.revision⟩
  have hstart : (hdr.withOffsets strings blob).stringTable.toNat = sizeofFontHdr := rfl
  have hwide : (hdr.withOffsets strings blob).totalW.toNat = blob.length := toNat_field hblob
  have hhigh : (hdr.withOffsets strings blob).totalH.toNat = 1 := rfl
  rw [FontHdr.accepted, if_neg hmagic, if_neg hversion, if_neg (by omega), if_neg (by omega)]

theorem WrittenParts.tableAt (h : WrittenParts face hdr strings glyphs blob) :
    TableAt (writeAosbf hdr strings glyphs blob) (hdr.withOffsets strings blob) 0 glyphs := by
  refine ⟨(hdr.withOffsets strings blob).bytes ++ strings, blob, ?_, ?_⟩
  · rw [List.length_append, FontHdr.length_bytes, glyphOffset, h.offsets.1, Nat.zero_mul,
      Nat.add_zero]
  · rw [writeAosbf, List.append_assoc]

-- What is written of a convertible font is a file the reader takes.
theorem WrittenParts.fileOf (hface : face.Convertible) (hsound : ∀ r ∈ face.rendered, r.Sound)
    (h : WrittenParts face hdr strings glyphs blob) :
    FileOf (writeAosbf hdr strings glyphs blob) glyphs := by
  have hrecords : List.Forall₂ (RecordOf blob) face.rendered (usedRecords glyphs) :=
    usedRecords_written h.table hsound
  have hheader : fontHdr (writeAosbf hdr strings glyphs blob) = hdr.withOffsets strings blob :=
    fontHdr_writeAosbf hdr strings blob glyphs
  refine ⟨?_, ?_, ?_, ?_, ?_, ?_, ?_, ?_⟩
  · rw [length_writeAosbf]
    omega
  · rw [hheader]
    exact h.accepted hface hsound
  · rw [hheader]
    exact h.tableAt
  · rw [hheader]
    exact h.offsets.2.2
  · intro g hg
    rw [hheader]
    by_cases hskip : g.Skipped
    · exact Or.inl hskip
    · have hused : g ∈ usedRecords glyphs := List.mem_filter.mpr ⟨hg, by simpa using hskip⟩
      obtain ⟨r, hr, hrecord⟩ := forall₂_partner_right hrecords hused
      exact Or.inr (hrecord.inside (hsound r hr) h (hface.blob_lt h))
  · intro hnil
    have hlength := hrecords.length_eq
    rw [hnil] at hlength
    exact hface.some (List.eq_nil_of_length_eq_zero hlength)
  · intro g hg
    obtain ⟨r, hr, hrecord⟩ := forall₂_partner_right hrecords hg
    exact hrecord.regular (hsound r hr) _ _
  · have hextents : (face.rendered.map fun r => (r.bitmap.width, r.bitmap.rows)) =
        (usedRecords glyphs).map fun g => (g.width.toNat, g.height.toNat) := by
      apply forall₂_map_eq hrecords
      rintro r hr g ⟨x, format, -, -, -, rfl⟩
      rw [(hsound r hr).record_width, (hsound r hr).record_height]
    have hatlas := hface.atlas
    rw [hextents] at hatlas
    unfold AOSBF_ATLAS_MAX_HEIGHT INITIAL_WIDTH at hatlas
    unfold INITIAL_WIDTH
    omega

-- A glyph that the reader makes of the record of a rendered one.
theorem RecordOf.kept (hrecord : RecordOf blob r g) (hsound : r.Sound)
    (h : WrittenParts face hdr strings glyphs blob) (hblob : blob.length < 2 ^ 32) {a : AtlasData}
    {s : Sheet} (hp : a.Packed s) {rect : Rect}
    (hshows : a.Shows (glyphBitmap (writeAosbf hdr strings glyphs blob)
      (hdr.withOffsets strings blob) g) rect) :
    r.Kept s INITIAL_WIDTH (makeGlyph g rect) := by
  have hpixel : ∀ x < r.bitmap.width, ∀ y < r.bitmap.rows, (glyphBitmap
      (writeAosbf hdr strings glyphs blob) (hdr.withOffsets strings blob) g).pixel x y =
        r.bitmap.rgba x y :=
    fun _ hx _ hy => hrecord.pixel hsound h hblob hx hy
  obtain ⟨off, format, -, -, -, rfl⟩ := hrecord
  have hwidth : (r.record off format).width.toNat = r.bitmap.width := hsound.record_width
  have hheight : (r.record off format).height.toNat = r.bitmap.rows := hsound.record_height
  obtain ⟨hextent, hwithin, hpixels⟩ := hshows
  have hmeasures := hextent
  rw [glyphBitmap_extent, hwidth, hheight] at hmeasures
  obtain ⟨hw, hh⟩ := Prod.mk.inj hmeasures
  obtain ⟨hw', hh'⟩ := Prod.mk.inj hextent
  rw [Rect.Within, hw, hh, hp.shelf_eq] at hwithin
  have hrows : rect.y + r.bitmap.rows ≤ a.height := hwithin.2
  have hplace : (pyrionGlyph (r.record off format) rect.x rect.y).rect =
      ⟨rect.x, rect.y, (r.record off format).width.toNat, (r.record off format).height.toNat⟩ := by
    apply pyrionGlyph_rect hsound.record_used _ hp.height
    rwa [hwidth, hheight]
  refine ⟨rfl, toNat_field (Nat.lt_trans r.isUnicode (by decide)), hwidth, hheight,
    toInt_ofInt_fits hsound.bearingX, toInt_ofInt_fits hsound.bearingY,
    toInt_ofInt_fits hsound.advanceX, toInt_ofInt_fits hsound.advanceY, fun x hx y hy => ?_⟩
  have hcolumn : (makeGlyph (r.record off format) rect).atlasX.toNat = rect.x :=
    congrArg Rect.x hplace
  have hrow : (makeGlyph (r.record off format) rect).atlasY.toNat = rect.y :=
    congrArg Rect.y hplace
  have hword := hpixels x (by rw [← hw', hw]; exact hx) y (by rw [← hh', hh]; exact hy)
  rw [hp.pixel_eq, hpixel x hx y hy] at hword
  have hcell : (rect.y + y) * INITIAL_WIDTH + (rect.x + x) < a.height * INITIAL_WIDTH + 0 :=
    cell_lt (by omega) (by omega)
  rw [Nat.add_zero, ← hp.words] at hcell
  rw [hrow, hcolumn, Sheet.read, if_pos hcell, hword]

end File

section Fallback

theorem glyphOf_cons (charcode : Nat) (og : PyrionGlyph) (glyphs : List PyrionGlyph) :
    glyphOf charcode (og :: glyphs) =
      if og.codepoint.toNat = charcode then some og else glyphOf charcode glyphs := by
  rw [glyphOf, List.find?_cons]
  by_cases hmine : og.codepoint.toNat = charcode
  · rw [if_pos hmine, beq_iff_eq.mpr hmine]
  · rw [if_neg hmine, beq_eq_false_iff_ne.mpr hmine, glyphOf]

theorem glyphOf_none {charcode : Nat} {glyphs : List PyrionGlyph}
    (h : ∀ og ∈ glyphs, charcode < og.codepoint.toNat) : glyphOf charcode glyphs = none := by
  apply List.find?_eq_none.mpr
  intro og hog hmine
  exact absurd (beq_iff_eq.mp hmine) (Nat.ne_of_gt (h og hog))

-- In ascending order U+FFFD is marked last, after the question mark.
theorem lastMarked_eq {made : List (FontGlyph × PyrionGlyph)} (before : Option PyrionGlyph)
    (hmarks : ∀ p ∈ made, p.1.isFallback ≠ 0 ↔
      p.2.codepoint.toNat = questionMark ∨ p.2.codepoint.toNat = replacementChar)
    (hascending : (made.map Prod.snd).Pairwise fun og og' =>
      og.codepoint.toNat < og'.codepoint.toNat) :
    lastMarked before made = (glyphOf replacementChar (made.map Prod.snd)).or
      ((glyphOf questionMark (made.map Prod.snd)).or before) := by
  induction made generalizing before with
  | nil => rfl
  | cons p made ih =>
      obtain ⟨g, og⟩ := p
      rw [List.map_cons] at hascending ⊢
      obtain ⟨hbehind, hrest⟩ := List.pairwise_cons.mp hascending
      have hmine := hmarks (g, og) List.mem_cons_self
      have hlater := fun before =>
        ih before (fun p hp => hmarks p (List.mem_cons_of_mem _ hp)) hrest
      rw [lastMarked, hlater, glyphOf_cons, glyphOf_cons]
      by_cases hask : og.codepoint.toNat = questionMark
      · have hother : ¬ og.codepoint.toNat = replacementChar := by
          rw [hask]
          decide
        have hnone : glyphOf questionMark (made.map Prod.snd) = none := by
          apply glyphOf_none
          rw [← hask]
          exact hbehind
        rw [if_neg (hmine.mpr (Or.inl hask)), if_neg hother, if_pos hask, hnone]
        rfl
      · by_cases hreplacement : og.codepoint.toNat = replacementChar
        · have hnone : glyphOf replacementChar (made.map Prod.snd) = none := by
            apply glyphOf_none
            rw [← hreplacement]
            exact hbehind
          have hnone' : glyphOf questionMark (made.map Prod.snd) = none := by
            apply glyphOf_none
            intro og' hog'
            have hlt := hbehind og' hog'
            rw [hreplacement] at hlt
            exact Nat.lt_trans (by decide) hlt
          rw [if_neg (hmine.mpr (Or.inr hreplacement)), if_pos hreplacement, hnone, hnone']
          rfl
        · have hplain : g.isFallback = 0 := by
            by_contra hmarked
            exact (hmine.mp hmarked).elim hask hreplacement
          rw [if_pos hplain, if_neg hask, if_neg hreplacement]

end Fallback

section Whole

variable {grants : Nat → Bool} {host : Host} {face : FtFace} {data : List UInt8}

theorem rendered_charcode {c : FtChar} {r : RenderedGlyph} (h : c.rendered = some r) :
    r.charcode = c.charcode := by
  unfold FtChar.rendered at h
  split at h
  · split at h
    · cases h
    · cases h
      rfl
  · cases h

theorem FtFace.rendered_ascending (face : FtFace) :
    face.rendered.Pairwise fun r r' => r.charcode < r'.charcode := by
  have htaken := face.ascending.sublist (List.take_sublist face.numGlyphs face.chars)
  apply htaken.filterMap
  intro c c' hlt r hr r' hr'
  rwa [rendered_charcode hr, rendered_charcode hr']

-- Two glyphs alone are marked.
theorem record_marked (r : RenderedGlyph) (x : Nat) (format : Format) :
    (r.record x format).isFallback ≠ 0 ↔
      r.charcode = questionMark ∨ r.charcode = replacementChar := by
  have hfield : (r.record x format).isFallback = if marksFallback 0 r.charcode then 1 else 0 := rfl
  have hmarks : marksFallback 0 r.charcode = true ↔
      r.charcode = questionMark ∨ r.charcode = replacementChar := by
    simp [marksFallback, replacementChar]
  rw [hfield, ← hmarks]
  cases marksFallback 0 r.charcode
  · simp
  · simp

-- The marks of the records are those of the glyphs that are made of them.
theorem made_marks {rendered : List RenderedGlyph} {used : List FontGlyph} {blob : List UInt8}
    {rects : List Rect} {S : FontGlyph → Rect → Prop}
    (hrecords : List.Forall₂ (RecordOf blob) rendered used) (hrects : List.Forall₂ S used rects) :
    ∀ p ∈ used.zip (List.zipWith makeGlyph used rects), p.1.isFallback ≠ 0 ↔
      p.2.codepoint.toNat = questionMark ∨ p.2.codepoint.toNat = replacementChar := by
  have hself : List.Forall₂ (fun g g' => g' = g ∧ ∃ r ∈ rendered, RecordOf blob r g) used used :=
    List.forall₂_same.mpr fun g hg => ⟨rfl, forall₂_partner_right hrecords hg⟩
  rintro ⟨g, og⟩ hp
  obtain ⟨-, rect, ⟨rfl, r, -, x, format, -, -, -, rfl⟩, -, rfl⟩ :=
    List.forall₂_zip (forall₂_zipWith hself hrects) hp
  have hcode : (makeGlyph (r.record x format) rect).codepoint.toNat = r.charcode :=
    toNat_field (Nat.lt_trans r.isUnicode (by decide))
  rw [hcode]
  exact record_marked r x format

theorem roundTrips_of_fits (hgranted : ∀ n, grants n = true) (hface : face.Convertible)
    (hwritten : buildAosbf host face = some data) (hfits : ∀ r ∈ face.rendered, r.Fits) :
    RoundTrips grants face data := by
  obtain ⟨hdr, strings, glyphs, blob, rfl, h⟩ := buildAosbf_writes hwritten
  have hsound := hface.sound hfits
  have hrecords : List.Forall₂ (RecordOf blob) face.rendered (usedRecords glyphs) :=
    usedRecords_written h.table hsound
  obtain ⟨font, a, rects, hread, hatlas, ⟨s, hp⟩, hglyphs, hfallback, hshows⟩ :=
    aosbfToPyrionFont_reads (h.fileOf hface hsound) hgranted
  have hdrawable := aosbfToPyrionFont_drawable hread
  rw [fontHdr_writeAosbf] at hshows
  have hkept : List.Forall₂ (RenderedGlyph.Kept s font.w.toNat) face.rendered font.glyphs := by
    rw [hdrawable.width, hglyphs]
    apply (forall₂_zipWith ((List.forall₂_and_left _ _).mpr ⟨hsound, hrecords⟩) hshows).imp
    rintro r - ⟨g, rect, ⟨hr, hrecord⟩, hshown, rfl⟩
    exact hrecord.kept hr h (hface.blob_lt h) hp hshown
  have hcodes : face.rendered.map RenderedGlyph.charcode =
      font.glyphs.map fun og => og.codepoint.toNat :=
    forall₂_map_eq hkept fun _ _ _ hog => hog.codepoint.symm
  have hascending : font.glyphs.Pairwise fun og og' => og.codepoint.toNat < og'.codepoint.toNat := by
    rw [← List.pairwise_map (R := fun m n => m < n), ← hcodes, List.pairwise_map]
    exact face.rendered_ascending
  have hboth : ((usedRecords glyphs).zip font.glyphs).map Prod.snd = font.glyphs := by
    apply List.map_snd_zip
    exact Nat.le_of_eq (hkept.length_eq.symm.trans hrecords.length_eq)
  refine ⟨font, s, hread, hatlas.trans hp.atlas, hkept, hdrawable.count.symm, ?_⟩
  rw [hfallback, lastMarked_eq none (hglyphs ▸ made_marks hrecords hshows) (hboth.symm ▸ hascending),
    hboth, Option.or_none]

-- A font goes through the file unchanged exactly if its measures fit the records.
theorem aosbf_roundTrips_iff (hgranted : ∀ n, grants n = true) (hface : face.Convertible)
    (hwritten : buildAosbf host face = some data) :
    RoundTrips grants face data ↔ ∀ r ∈ face.rendered, r.Fits :=
  ⟨RoundTrips.fits, roundTrips_of_fits hgranted hface hwritten⟩

end Whole

def singleDot : FtBitmap := ⟨1, 1, 1, .mono, [0x80], by decide⟩

-- A font with one glyph, which is a single dot.
def dotFace (advanceX : Int) : FtFace where
  familyName := none
  pixelSize := some 8
  metrics := some ⟨512, 0, 512⟩
  numGlyphs := 1
  chars := [⟨0x41, some ⟨singleDot, 0, 1, advanceX, 0⟩, by decide⟩]
  ascending := List.pairwise_singleton _ _

def dotGlyph (advanceX : Int) : RenderedGlyph where
  charcode := 0x41
  slot := ⟨singleDot, 0, 1, advanceX, 0⟩
  isUnicode := by decide
  notEmpty := by simp [singleDot]

theorem dotFace_rendered (advanceX : Int) : (dotFace advanceX).rendered = [dotGlyph advanceX] := rfl

theorem dotFace_convertible (advanceX : Int) : (dotFace advanceX).Convertible := by
  have hnarrow : singleDot.width ≤ INITIAL_WIDTH := by decide
  have hpitch : (singleDot.width * singleDot.pixelMode.depth + 7) / 8 ≤ singleDot.pitch ∧
      singleDot.pitch < 65536 := by decide
  have hbytes : [singleDot.pitch * singleDot.rows].sum < 2 ^ 32 := by decide
  have hatlas : INITIAL_WIDTH * ([(singleDot.width, singleDot.rows)].foldl
      (Shelf.add INITIAL_WIDTH 512) ⟨0, 0, 0, INITIAL_HEIGHT⟩).height * 4 ≤
        AOSBF_ATLAS_MAX_HEIGHT := by decide
  exact ⟨List.forall_mem_singleton.mpr hnarrow, List.forall_mem_singleton.mpr hpitch, hbytes,
    List.cons_ne_nil _ _, hatlas⟩

def ample : Host := ⟨fun _ => true, fun _ => true, fun _ => true⟩

theorem dotFace_written (advanceX : Int) : ∃ data, buildAosbf ample (dotFace advanceX) = some data :=
  ⟨_, rfl⟩

-- An advance of six pixels comes back.
theorem aosbf_roundTrips_iff_dot : ∃ data, buildAosbf ample (dotFace 384) = some data ∧
    RoundTrips (fun _ => true) (dotFace 384) data := by
  obtain ⟨data, hwritten⟩ := dotFace_written 384
  have hfits : (dotGlyph 384).Fits := by
    refine ⟨by decide, ?_, ?_, ?_, ?_⟩
    all_goals
      unfold FitsField
      decide
  refine ⟨data, hwritten, ?_⟩
  apply (aosbf_roundTrips_iff (fun _ => rfl) (dotFace_convertible 384) hwritten).mpr
  rw [dotFace_rendered]
  exact List.forall_mem_singleton.mpr hfits

-- One of 40000 pixels, in 26.6 bits, comes back negative.
theorem advance_lost : (dotFace 2560000).Convertible ∧
    ∃ data, buildAosbf ample (dotFace 2560000) = some data ∧
      ¬ RoundTrips (fun _ => true) (dotFace 2560000) data := by
  obtain ⟨data, hwritten⟩ := dotFace_written 2560000
  refine ⟨dotFace_convertible _, data, hwritten, fun h => ?_⟩
  have hadvance := (h.fits (dotGlyph 2560000) List.mem_cons_self).advanceX
  have hlarge : ¬ FitsField ((dotGlyph 2560000).slot.advanceX / 64) := by
    unfold FitsField
    decide
  exact hlarge hadvance

end AosKernel.Font
