import AosKernel.Lib.Records

namespace AosKernel.Font

open Verif

def UINT64_MAX : Nat := 2 ^ 64 - 1

-- The members of enum aos_bitmap_font_format a glyph can have.
inductive Format
  | mono
  | gray2
  | gray4
  | a8
  | rgb
  | rgba
  deriving DecidableEq

def Format.code : Format → BitVec 32
  | .mono => 1
  | .gray2 => 2
  | .gray4 => 3
  | .a8 => 4
  | .rgb => 5
  | .rgba => 6

def Format.ofCode (code : BitVec 32) : Option Format :=
  if code = 1 then some .mono
  else if code = 2 then some .gray2
  else if code = 3 then some .gray4
  else if code = 4 then some .a8
  else if code = 5 then some .rgb
  else if code = 6 then some .rgba
  else none

-- "AOSBF" and the zero behind it.
def AOS_BITMAP_FONT_MAGIC : BitVec 48 := 0x46_4253_4F41
def AOS_BITMAP_FONT_VERSION : BitVec 32 := 0x000100
def AOS_BITMAP_FONT_REVISION : BitVec 16 := 0

-- aos_bitmap_font_hdr
structure FontHdr where
  magic : BitVec 48
  version : BitVec 32
  revision : BitVec 16
  stringTable : BitVec 64
  fontName : BitVec 64
  fontFamilyName : BitVec 64
  authorName : BitVec 64
  fontSize : BitVec 16
  lineGap : BitVec 16
  lineHeight : BitVec 16
  ascent : BitVec 16
  descent : BitVec 16
  comments : BitVec 64
  commentCount : BitVec 16
  totalW : BitVec 32
  totalH : BitVec 32
  atlas : BitVec 64
  glyphs : BitVec 64
  glyphCount : BitVec 32
  deriving DecidableEq

def sizeofFontHdr : Nat := 112

-- The fields and, as zeroes, what the compiler leaves free between them.
def FontHdr.bytes (hdr : FontHdr) : List UInt8 :=
  [fieldBytes hdr.magic, fieldBytes 0#16, fieldBytes hdr.version, fieldBytes hdr.revision,
    fieldBytes 0#16, fieldBytes hdr.stringTable, fieldBytes hdr.fontName,
    fieldBytes hdr.fontFamilyName, fieldBytes hdr.authorName, fieldBytes hdr.fontSize,
    fieldBytes hdr.lineGap, fieldBytes hdr.lineHeight, fieldBytes hdr.ascent,
    fieldBytes hdr.descent, fieldBytes 0#48, fieldBytes hdr.comments,
    fieldBytes hdr.commentCount, fieldBytes 0#16, fieldBytes hdr.totalW, fieldBytes hdr.totalH,
    fieldBytes 0#32, fieldBytes hdr.atlas, fieldBytes hdr.glyphs, fieldBytes hdr.glyphCount,
    fieldBytes 0#32].flatten

def fontHdr (data : List UInt8) : FontHdr where
  magic := fieldAt 48 data 0
  version := fieldAt 32 data 8
  revision := fieldAt 16 data 12
  stringTable := fieldAt 64 data 16
  fontName := fieldAt 64 data 24
  fontFamilyName := fieldAt 64 data 32
  authorName := fieldAt 64 data 40
  fontSize := fieldAt 16 data 48
  lineGap := fieldAt 16 data 50
  lineHeight := fieldAt 16 data 52
  ascent := fieldAt 16 data 54
  descent := fieldAt 16 data 56
  comments := fieldAt 64 data 64
  commentCount := fieldAt 16 data 72
  totalW := fieldAt 32 data 76
  totalH := fieldAt 32 data 80
  atlas := fieldAt 64 data 88
  glyphs := fieldAt 64 data 96
  glyphCount := fieldAt 32 data 104

-- aos_bitmap_font_glyph
structure FontGlyph where
  codepoint : BitVec 32
  atlasX : BitVec 32
  atlasY : BitVec 32
  width : BitVec 16
  height : BitVec 16
  pitch : BitVec 16
  bearingX : BitVec 16
  bearingY : BitVec 16
  advanceX : BitVec 16
  advanceY : BitVec 16
  format : BitVec 32
  isFallback : BitVec 8
  valid : BitVec 8
  deriving DecidableEq

def sizeofFontGlyph : Nat := 36

-- struct pyrion_glyph, what the kernel makes of it.
structure PyrionGlyph where
  codepoint : BitVec 32
  atlasX : BitVec 16
  atlasY : BitVec 16
  width : BitVec 16
  height : BitVec 16
  bearingX : BitVec 16
  bearingY : BitVec 16
  advanceX : BitVec 16
  advanceY : BitVec 16
  valid : Bool
  deriving DecidableEq

def sizeofPyrionGlyph : Nat := 24

def FontGlyph.bytes (g : FontGlyph) : List UInt8 :=
  [fieldBytes g.codepoint, fieldBytes g.atlasX, fieldBytes g.atlasY, fieldBytes g.width,
    fieldBytes g.height, fieldBytes g.pitch, fieldBytes g.bearingX, fieldBytes g.bearingY,
    fieldBytes g.advanceX, fieldBytes g.advanceY, fieldBytes 0#16, fieldBytes g.format,
    fieldBytes g.isFallback, fieldBytes g.valid, fieldBytes 0#16].flatten

def fontGlyph (data : List UInt8) (base : Nat) : FontGlyph where
  codepoint := fieldAt 32 data base
  atlasX := fieldAt 32 data (base + 4)
  atlasY := fieldAt 32 data (base + 8)
  width := fieldAt 16 data (base + 12)
  height := fieldAt 16 data (base + 14)
  pitch := fieldAt 16 data (base + 16)
  bearingX := fieldAt 16 data (base + 18)
  bearingY := fieldAt 16 data (base + 20)
  advanceX := fieldAt 16 data (base + 22)
  advanceY := fieldAt 16 data (base + 24)
  format := fieldAt 32 data (base + 28)
  isFallback := fieldAt 8 data (base + 32)
  valid := fieldAt 8 data (base + 33)

@[simp] theorem FontHdr.length_bytes (hdr : FontHdr) : hdr.bytes.length = sizeofFontHdr := by
  simp only [FontHdr.bytes, List.length_flatten, List.map_cons, List.map_nil, length_fieldBytes]
  rfl

@[simp] theorem FontGlyph.length_bytes (g : FontGlyph) : g.bytes.length = sizeofFontGlyph := by
  simp only [FontGlyph.bytes, List.length_flatten, List.map_cons, List.map_nil, length_fieldBytes]
  rfl

-- A header read back is the one that was written.
theorem fontHdr_bytes (hdr : FontHdr) (rest : List UInt8) : fontHdr (hdr.bytes ++ rest) = hdr := by
  simp only [fontHdr, FontHdr.bytes, List.flatten_cons, List.append_assoc, fieldAt_here,
    fieldAt_skip, Nat.reduceDiv, Nat.reduceLeDiff, Nat.reduceSub, Nat.reduceMod]

theorem fontGlyph_bytes (front rest : List UInt8) (g : FontGlyph) :
    fontGlyph (front ++ (g.bytes ++ rest)) front.length = g := by
  simp only [fontGlyph, fieldAt_front, fieldAt_behind, FontGlyph.bytes, List.flatten_cons,
    List.append_assoc, fieldAt_here, fieldAt_skip, Nat.reduceDiv, Nat.reduceLeDiff,
    Nat.reduceSub, Nat.reduceMod]

end AosKernel.Font
