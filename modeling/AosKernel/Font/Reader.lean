import AosKernel.Font.Atlas

namespace AosKernel.Font

open Verif

def UINT32_MAX : Nat := 2 ^ 32 - 1

-- struct pyrion_font, as it is made of a file. font_size is a float with this value.
structure PyrionFont where
  atlas : Option Sheet
  w : BitVec 32
  h : BitVec 32
  lineHeight : BitVec 16
  lineGap : BitVec 16
  ascent : BitVec 16
  descent : BitVec 16
  glyphCount : Nat
  glyphs : List PyrionGlyph
  fallbackGlyph : Option PyrionGlyph
  baseFontSize : BitVec 32
  fontSize : Nat

-- The record at an offset. `valid`, its last field, is looked at before any other.
def readGlyph (data : List UInt8) (off : Nat) : Except Stop FontGlyph :=
  if off + 34 ≤ data.length then .ok (fontGlyph data off) else .error .outside

-- Records of glyphs that are not used.
def FontGlyph.Skipped (g : FontGlyph) : Prop := g.valid = 0 ∨ g.width = 0 ∨ g.height = 0

instance (g : FontGlyph) : Decidable g.Skipped :=
  inferInstanceAs (Decidable (g.valid = 0 ∨ g.width = 0 ∨ g.height = 0))

namespace FontGlyph

def bitmapSize (g : FontGlyph) : Nat := g.pitch.toNat * g.height.toNat

def sourceOffset (g : FontGlyph) : Nat := (g.atlasY.toNat + 1) * g.atlasX.toNat

-- The checks on the bitmap of a glyph, in a file of `size` bytes.
def bitmapInside (size : Nat) (hdr : FontHdr) (g : FontGlyph) : Bool :=
  if g.atlasY.toNat = UINT32_MAX then false
  else if g.atlasX ≠ 0 ∧ UINT64_MAX / g.atlasX.toNat < g.atlasY.toNat + 1 then false
  else if UINT64_MAX / g.height.toNat < g.pitch.toNat then false
  else if UINT64_MAX - g.bitmapSize < g.sourceOffset then false
  else if size < hdr.atlas.toNat ∨ size - hdr.atlas.toNat < g.sourceOffset + g.bitmapSize then false
  else true

end FontGlyph

-- The checks on the header.
def FontHdr.accepted (size : Nat) (hdr : FontHdr) : Bool :=
  if hdr.magic ≠ AOS_BITMAP_FONT_MAGIC then false
  else if hdr.version ≠ AOS_BITMAP_FONT_VERSION ∨ hdr.revision ≠ AOS_BITMAP_FONT_REVISION then false
  else if size ≤ hdr.stringTable.toNat ∨ size ≤ hdr.atlas.toNat then false
  else if hdr.totalW.toNat < 1 ∨ hdr.totalH.toNat < 1 then false
  else true

section

variable (grants : Nat → Bool) (data : List UInt8) (hdr : FontHdr)

-- Where the `i`-th record starts.
def glyphOffset (i : Nat) : Nat := hdr.glyphs.toNat + i * sizeofFontGlyph

-- The first pass, over `rest` more records from the `i`-th on: the number of glyphs is
-- reduced for every record that is not used.
def countGlyphs : Nat → Nat → Nat → Except Stop Nat
  | 0, _, count => .ok count
  | rest + 1, i, count =>
      if data.length < hdr.glyphs.toNat then .error .refused
      else if (data.length - hdr.glyphs.toNat) / sizeofFontGlyph < i then .error .refused
      else if data.length < glyphOffset hdr i then .error .refused
      else do
        let g ← readGlyph data (glyphOffset hdr i)
        if g.Skipped then countGlyphs rest (i + 1) (count - 1)
        else if ¬ g.bitmapInside data.length hdr then .error .refused
        else countGlyphs rest (i + 1) count

-- What the converter gets of a record.
def glyphBitmap (g : FontGlyph) : Bitmap where
  bytes := data.drop (hdr.atlas.toNat + g.sourceOffset)
  size := g.bitmapSize
  width := g.width.setWidth 32
  height := g.height.setWidth 32
  pitch := g.pitch.setWidth 32
  format := g.format

def pyrionGlyph (g : FontGlyph) (x y : Nat) : PyrionGlyph where
  codepoint := g.codepoint
  atlasX := BitVec.ofNat 16 x
  atlasY := BitVec.ofNat 16 y
  width := g.width
  height := g.height
  bearingX := g.bearingX
  bearingY := g.bearingY
  advanceX := g.advanceX
  advanceY := g.advanceY
  valid := true

-- What the second pass has made so far.
structure Converted where
  atlas : AtlasData
  glyphs : List PyrionGlyph
  fallbackGlyph : Option PyrionGlyph

-- The second pass. `count` entries were allocated for the glyphs.
def convertGlyphs (count : Nat) : Nat → Nat → Converted → Except Stop Converted
  | 0, _, c => .ok c
  | rest + 1, i, c => do
      let g ← readGlyph data (glyphOffset hdr i)
      if g.Skipped then convertGlyphs count rest (i + 1) c
      else do
        let (atlas, x, y) ← convertGlyphToRgba8 grants c.atlas (glyphBitmap data hdr g)
        let og := pyrionGlyph g x y
        if count ≤ c.glyphs.length then .error .outside
        else
          convertGlyphs count rest (i + 1) {
            atlas := atlas
            glyphs := c.glyphs ++ [og]
            fallbackGlyph := if g.isFallback = 0 then c.fallbackGlyph else some og }

end

-- The allocation of the glyphs is the first one.
def aosbfToPyrionFont (grants : Nat → Bool) (data : List UInt8) : Except Stop PyrionFont :=
  if data.length < sizeofFontHdr then .error .refused
  else
    let hdr := fontHdr data
    if ¬ hdr.accepted data.length then .error .refused
    else do
      let count ← countGlyphs data hdr hdr.glyphCount.toNat 0 hdr.glyphCount.toNat
      if UINT64_MAX / sizeofPyrionGlyph < count then .error .refused
      else if count < 1 then .error .refused
      else if ¬ grants 0 then .error .refused
      else do
        let c ← convertGlyphs grants data hdr count hdr.glyphCount.toNat 0
          ⟨emptyAtlas 1, [], none⟩
        .ok {
          atlas := c.atlas.atlas
          w := BitVec.ofNat 32 c.atlas.width
          h := BitVec.ofNat 32 c.atlas.height
          lineHeight := hdr.lineHeight
          lineGap := hdr.lineGap
          ascent := hdr.ascent
          descent := hdr.descent
          glyphCount := count
          glyphs := c.glyphs
          fallbackGlyph := c.fallbackGlyph
          baseFontSize := hdr.fontSize.setWidth 32
          fontSize := hdr.fontSize.toNat }

end AosKernel.Font
