import Mathlib.Algebra.GroupWithZero.Nat
import AosKernel.Font.Reader
import AosKernel.Font.Writer
import Mathlib.Algebra.BigOperators.Group.List.Basic
import Mathlib.Data.List.Basic

namespace AosKernel.Font

open Verif

-- A character whose bitmap is not empty, with its slot.
structure RenderedGlyph where
  charcode : Nat
  slot : GlyphSlot
  isUnicode : charcode < 0x110000
  notEmpty : ¬ (slot.bitmap.width = 0 ∨ slot.bitmap.rows = 0)

def RenderedGlyph.bitmap (g : RenderedGlyph) : FtBitmap := g.slot.bitmap

def RenderedGlyph.size (g : RenderedGlyph) : Nat := g.bitmap.pitch * g.bitmap.rows

def FtChar.rendered (c : FtChar) : Option RenderedGlyph :=
  match c.slot with
  | some slot =>
      if h : slot.bitmap.width = 0 ∨ slot.bitmap.rows = 0 then none
      else some ⟨c.charcode, slot, c.isUnicode, h⟩
  | none => none

-- The glyphs of a font, as far as the table has room for the characters.
def FtFace.rendered (face : FtFace) : List RenderedGlyph :=
  (face.chars.take face.numGlyphs).filterMap FtChar.rendered

def blobSize (chars : List FtChar) : Nat :=
  ((chars.filterMap FtChar.rendered).map RenderedGlyph.size).sum

-- The record of a glyph whose bitmap is at `x` of the blob.
def RenderedGlyph.record (g : RenderedGlyph) (x : Nat) (format : Format) : FontGlyph :=
  ((blankGlyph 0 g.charcode).withSlot g.slot).withBitmap x g.bitmap format

-- `g` is the record of a glyph, next to a blob of all bitmaps.
def RecordOf (blob : List UInt8) (r : RenderedGlyph) (g : FontGlyph) : Prop :=
  ∃ x format, getBitmapAosbfCformat r.bitmap.pixelMode = some format ∧
    x + r.size ≤ blob.length ∧ (blob.drop x).take r.size = r.bitmap.buffer.take r.size ∧
      g = r.record x format

-- `g` is what a character has in the table.
def WrittenAs (blob : List UInt8) (c : FtChar) (g : FontGlyph) : Prop :=
  match c.rendered with
  | none => g.Skipped
  | some r => RecordOf blob r g

section Glyphs

variable {host : Host} {fallback numGlyphs glyphNo : Nat} {atlas atlas' : HostAtlas} {c : FtChar}
  {chars : List FtChar} {g : FontGlyph} {glyphs : List FontGlyph} {blob : List UInt8}

-- As long as U+FFFD was not marked, its turn comes after the question mark.
def InTurn (fallback charcode : Nat) : Prop := fallback = replacementChar → questionMark < charcode

theorem blankGlyph_inTurn {charcode : Nat} (h : InTurn fallback charcode) :
    blankGlyph fallback charcode = blankGlyph 0 charcode := by
  have hmarks : marksFallback fallback charcode = marksFallback 0 charcode := by
    unfold marksFallback
    by_cases hask : charcode = questionMark
    · have hother : (fallback != replacementChar) = true :=
        bne_iff_ne.mpr fun hmarked => absurd (h hmarked) (by omega)
      rw [hother]
      rfl
    · rw [beq_eq_false_iff_ne.mpr hask, Bool.false_and, Bool.false_and]
  rw [blankGlyph, hmarks, ← blankGlyph]

theorem atlasResize_bytes {newCap : Nat} (h : atlasResize host atlas newCap = some atlas') :
    atlas'.bytes = atlas.bytes := by
  unfold atlasResize at h
  split at h
  · cases h
  split at h
  · cases h
    rfl
  split at h
  · cases h
    rfl
  · cases h

theorem pushBitmap_bytes {bitmap : FtBitmap} {x : Nat}
    (h : pushBitmap host atlas bitmap = some (x, atlas')) :
    x = atlas.bytes.length ∧
      atlas'.bytes = atlas.bytes ++ bitmap.buffer.take (bitmap.pitch * bitmap.rows) := by
  unfold pushBitmap at h
  split at h
  · cases h
  obtain ⟨resized, hresized, hpair⟩ := Option.map_eq_some_iff.mp h
  have hbytes : resized.bytes = atlas.bytes := by
    split at hresized
    · exact atlasResize_bytes hresized
    · cases hresized
      rfl
  cases hpair
  rw [hbytes]
  exact ⟨rfl, rfl⟩

theorem RecordOf.append {r : RenderedGlyph} (h : RecordOf blob r g) (new : List UInt8) :
    RecordOf (blob ++ new) r g := by
  obtain ⟨x, format, hformat, hfits, hbytes, hrecord⟩ := h
  refine ⟨x, format, hformat, ?_, ?_, hrecord⟩
  · rw [List.length_append]
    exact Nat.le_trans hfits (Nat.le_add_right _ _)
  · rw [List.drop_append_of_le_length (by omega), List.take_append_of_le_length, hbytes]
    rw [List.length_drop]
    omega

theorem WrittenAs.append (h : WrittenAs blob c g) (new : List UInt8) :
    WrittenAs (blob ++ new) c g := by
  unfold WrittenAs at *
  cases hrendered : c.rendered with
  | none =>
      rw [hrendered] at h
      exact h
  | some r =>
      rw [hrendered] at h
      exact h.append new

-- One character appends the bytes of its bitmap.
theorem buildGlyph_writes (hturn : InTurn fallback c.charcode)
    (h : buildGlyph host fallback atlas c = some (g, atlas')) :
    WrittenAs atlas'.bytes c g ∧
      ∃ new, atlas'.bytes = atlas.bytes ++ new ∧ new.length = blobSize [c] := by
  unfold buildGlyph at h
  rw [blankGlyph_inTurn hturn] at h
  unfold blobSize WrittenAs FtChar.rendered
  cases hslot : c.slot with
  | none =>
      rw [hslot] at h
      cases h
      exact ⟨Or.inl rfl, [], (List.append_nil _).symm, by simp [hslot]⟩
  | some slot =>
      rw [hslot] at h
      dsimp only at h ⊢
      by_cases hempty : slot.bitmap.width = 0 ∨ slot.bitmap.rows = 0
      · rw [if_pos hempty] at h
        rw [dif_pos hempty]
        cases h
        exact ⟨Or.inr (Or.inl rfl), [], (List.append_nil _).symm, by simp [hslot, hempty]⟩
      · rw [if_neg hempty] at h
        rw [dif_neg hempty]
        obtain ⟨format, hformat, h⟩ := Option.bind_eq_some_iff.mp h
        obtain ⟨⟨x, pushed⟩, hpush, h⟩ := Option.bind_eq_some_iff.mp h
        cases h
        obtain ⟨rfl, hbytes⟩ := pushBitmap_bytes hpush
        have hlength : (slot.bitmap.buffer.take (slot.bitmap.pitch * slot.bitmap.rows)).length =
            slot.bitmap.pitch * slot.bitmap.rows :=
          List.length_take_of_le slot.bitmap.filled
        refine ⟨⟨atlas.bytes.length, format, hformat, ?_, ?_, rfl⟩, _, hbytes, ?_⟩
        · rw [hbytes, List.length_append, hlength]
          exact Nat.le_refl _
        · rw [hbytes, List.drop_left]
          exact List.take_of_length_le (Nat.le_of_eq hlength)
        · rw [hlength]
          simp [hslot, hempty, RenderedGlyph.size, RenderedGlyph.bitmap]

theorem nextFallback_inTurn {later : Nat} (hturn : InTurn fallback c.charcode)
    (hlater : c.charcode < later) : InTurn (nextFallback fallback c.charcode) later := by
  intro hmarked
  unfold nextFallback at hmarked
  split at hmarked
  · rw [hmarked] at hlater
    exact Nat.lt_trans (by decide) hlater
  · exact Nat.lt_trans (hturn hmarked) hlater

theorem blobSize_cons (c : FtChar) (chars : List FtChar) :
    blobSize (c :: chars) = blobSize [c] + blobSize chars := by
  have hcons : c :: chars = [c] ++ chars := rfl
  rw [blobSize, hcons, List.filterMap_append, List.map_append, List.sum_append]
  rfl

-- The table has the characters it has room for, and their bitmaps are in the blob.
theorem buildGlyphs_writes (hascending : chars.Pairwise fun c d => c.charcode < d.charcode)
    (hturn : ∀ c ∈ chars, InTurn fallback c.charcode)
    (h : buildGlyphs host numGlyphs chars glyphNo fallback atlas = some (glyphs, atlas')) :
    List.Forall₂ (WrittenAs atlas'.bytes) (chars.take (numGlyphs - glyphNo)) glyphs ∧
      ∃ new, atlas'.bytes = atlas.bytes ++ new ∧
        new.length = blobSize (chars.take (numGlyphs - glyphNo)) := by
  induction chars generalizing glyphNo fallback atlas glyphs with
  | nil =>
      cases h
      rw [List.take_nil]
      exact ⟨.nil, [], (List.append_nil _).symm, rfl⟩
  | cons c chars ih =>
      rw [buildGlyphs] at h
      by_cases hroom : numGlyphs ≤ glyphNo
      · rw [if_pos hroom] at h
        cases h
        rw [Nat.sub_eq_zero_of_le hroom, List.take_zero]
        exact ⟨.nil, [], (List.append_nil _).symm, rfl⟩
      rw [if_neg hroom] at h
      obtain ⟨⟨g, between⟩, hfirst, h⟩ := Option.bind_eq_some_iff.mp h
      obtain ⟨⟨rest, last⟩, hrest, h⟩ := Option.bind_eq_some_iff.mp h
      cases h
      obtain ⟨hbefore, hafter⟩ := List.pairwise_cons.mp hascending
      have hmine := hturn c List.mem_cons_self
      obtain ⟨hwritten, new, hnew, hlength⟩ := buildGlyph_writes hmine hfirst
      obtain ⟨hwrittens, news, hnews, hlengths⟩ :=
        ih hafter (fun d hd => nextFallback_inTurn hmine (hbefore d hd)) hrest
      have hcount : numGlyphs - glyphNo = (numGlyphs - (glyphNo + 1)) + 1 := by omega
      rw [hcount, List.take_succ_cons]
      refine ⟨.cons ?_ hwrittens, new ++ news, ?_, ?_⟩
      · rw [hnews]
        exact hwritten.append news
      · rw [hnews, hnew, List.append_assoc]
      · rw [blobSize_cons, List.length_append, hlength, hlengths]

end Glyphs

-- What the parts of a written file have to do with the font.
structure WrittenParts (face : FtFace) (hdr : FontHdr) (strings : List UInt8)
    (glyphs : List FontGlyph) (blob : List UInt8) : Prop where
  magic : hdr.magic = AOS_BITMAP_FONT_MAGIC
  version : hdr.version = AOS_BITMAP_FONT_VERSION
  revision : hdr.revision = AOS_BITMAP_FONT_REVISION
  count : hdr.glyphCount = BitVec.ofNat 32 glyphs.length
  strings : strings.length ≤ 2 ^ 62
  table : List.Forall₂ (WrittenAs blob) (face.chars.take face.numGlyphs) glyphs
  blob : blob.length = (face.rendered.map RenderedGlyph.size).sum

section File

variable {host : Host} {face : FtFace} {hdr : FontHdr} {table : StringTable} {data : List UInt8}

theorem pushString_bytes {table' : StringTable} {str : CString} {off : Nat}
    (h : pushString host table str = some (off, table')) :
    table'.bytes = table.bytes ++ str.bytes ++ [0] := by
  unfold pushString at h
  dsimp only at h
  split at h
  · split at h
    · cases h
      rfl
    · cases h
  · cases h
    rfl

theorem pushFamilyName_length {familyName : Option CString} {off : Nat}
    (h : pushFamilyName host familyName = some (off, table)) : table.bytes.length ≤ 2 ^ 62 := by
  cases familyName with
  | none =>
      cases h
      exact Nat.zero_le _
  | some name =>
      have hfits := name.fits
      rw [pushFamilyName] at h
      rw [pushString_bytes h, List.nil_append, List.length_append, List.length_singleton]
      omega

theorem buildFontHeader_some (h : buildFontHeader host face = some (hdr, table)) :
    hdr.magic = AOS_BITMAP_FONT_MAGIC ∧ hdr.version = AOS_BITMAP_FONT_VERSION ∧
      hdr.revision = AOS_BITMAP_FONT_REVISION ∧ table.bytes.length ≤ 2 ^ 62 := by
  unfold buildFontHeader at h
  obtain ⟨⟨off, pushed⟩, hpush, h⟩ := Option.bind_eq_some_iff.mp h
  obtain ⟨pixelSize, -, h⟩ := Option.bind_eq_some_iff.mp h
  obtain ⟨m, -, h⟩ := Option.bind_eq_some_iff.mp h
  cases h
  exact ⟨rfl, rfl, rfl, pushFamilyName_length hpush⟩

theorem buildAosbf_writes (h : buildAosbf host face = some data) :
    ∃ hdr strings glyphs blob, data = writeAosbf hdr strings glyphs blob ∧
      WrittenParts face hdr strings glyphs blob := by
  unfold buildAosbf at h
  obtain ⟨⟨hdr, table⟩, hheader, h⟩ := Option.bind_eq_some_iff.mp h
  dsimp only at h
  split at h
  · cases h
  obtain ⟨atlas, hatlas, h⟩ := Option.bind_eq_some_iff.mp h
  obtain ⟨⟨glyphs, last⟩, hglyphs, h⟩ := Option.bind_eq_some_iff.mp h
  cases h
  obtain ⟨hmagic, hversion, hrevision, hstrings⟩ := buildFontHeader_some hheader
  have hturn : ∀ c ∈ face.chars, InTurn 0 c.charcode := fun _ _ hno => nomatch hno
  obtain ⟨hwritten, new, hnew, hlength⟩ := buildGlyphs_writes face.ascending hturn hglyphs
  rw [atlasResize_bytes hatlas, List.nil_append] at hnew
  exact ⟨_, table.bytes, glyphs, last.bytes, rfl, hmagic, hversion, hrevision, rfl, hstrings,
    hwritten, hnew ▸ hlength⟩

-- There are no more characters than code points.
theorem FtFace.length_chars_le (face : FtFace) : face.chars.length ≤ 0x110000 := by
  have hnodup : (face.chars.map FtChar.charcode).Nodup := by
    rw [List.Nodup, List.pairwise_map]
    exact face.ascending.imp fun hlt => Nat.ne_of_lt hlt
  have hcodes : face.chars.map FtChar.charcode ⊆ List.range 0x110000 := by
    intro code hcode
    obtain ⟨c, -, rfl⟩ := List.mem_map.mp hcode
    exact List.mem_range.mpr c.isUnicode
  have hle := (List.subperm_of_subset hnodup hcodes).length_le
  rwa [List.length_map, List.length_range] at hle

end File

section Layout

variable {face : FtFace} {hdr : FontHdr} {strings blob : List UInt8} {glyphs : List FontGlyph}

theorem length_flatMap_bytes (glyphs : List FontGlyph) :
    (glyphs.flatMap FontGlyph.bytes).length = glyphs.length * sizeofFontGlyph := by
  induction glyphs with
  | nil => rw [List.flatMap_nil, List.length_nil, List.length_nil, Nat.zero_mul]
  | cons g glyphs ih =>
      rw [List.flatMap_cons, List.length_append, FontGlyph.length_bytes, ih, List.length_cons,
        Nat.succ_mul, Nat.add_comm]

theorem fontHdr_writeAosbf (hdr : FontHdr) (strings blob : List UInt8) (glyphs : List FontGlyph) :
    fontHdr (writeAosbf hdr strings glyphs blob) = hdr.withOffsets strings blob :=
  fontHdr_bytes _ _

theorem length_writeAosbf (hdr : FontHdr) (strings blob : List UInt8) (glyphs : List FontGlyph) :
    (writeAosbf hdr strings glyphs blob).length =
      sizeofFontHdr + strings.length + glyphs.length * sizeofFontGlyph + blob.length := by
  rw [writeAosbf, List.length_append, List.length_append, List.length_append,
    FontHdr.length_bytes, length_flatMap_bytes, Nat.add_assoc, Nat.add_assoc]

theorem WrittenParts.length_glyphs_le (h : WrittenParts face hdr strings glyphs blob) :
    glyphs.length ≤ 0x110000 := by
  rw [← h.table.length_eq]
  exact Nat.le_trans (List.length_take_le' _ _) face.length_chars_le

-- The offsets do not wrap.
theorem WrittenParts.offsets (h : WrittenParts face hdr strings glyphs blob) :
    (hdr.withOffsets strings blob).glyphs.toNat = sizeofFontHdr + strings.length ∧
      (hdr.withOffsets strings blob).atlas.toNat =
        sizeofFontHdr + strings.length + glyphs.length * sizeofFontGlyph ∧
      (hdr.withOffsets strings blob).glyphCount.toNat = glyphs.length := by
  have hglyphs := h.length_glyphs_le
  have hstrings := h.strings
  have hcount : hdr.glyphCount.toNat = glyphs.length := by
    rw [h.count, BitVec.toNat_ofNat]
    exact Nat.mod_eq_of_lt (by omega)
  simp only [FontHdr.withOffsets, BitVec.toNat_ofNat, hcount, sizeofFontHdr, sizeofFontGlyph]
  refine ⟨Nat.mod_eq_of_lt (by omega), Nat.mod_eq_of_lt (by omega), trivial⟩

theorem WrittenParts.drop_atlas (h : WrittenParts face hdr strings glyphs blob) :
    (writeAosbf hdr strings glyphs blob).drop (hdr.withOffsets strings blob).atlas.toNat = blob := by
  have hfront : (hdr.withOffsets strings blob).atlas.toNat =
      ((hdr.withOffsets strings blob).bytes ++ strings ++ glyphs.flatMap FontGlyph.bytes).length := by
    rw [h.offsets.2.1, List.length_append, List.length_append, FontHdr.length_bytes,
      length_flatMap_bytes]
  rw [hfront, writeAosbf, ← List.append_assoc, ← List.append_assoc]
  exact List.drop_left

end Layout

end AosKernel.Font
