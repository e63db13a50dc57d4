import AosKernel.Font.Format

namespace AosKernel.Font

open Verif

-- FT_Pixel_Mode
inductive PixelMode
  | none
  | mono
  | gray
  | gray2
  | gray4
  | lcd
  | lcdV
  | bgra
  deriving DecidableEq

-- FT_Bitmap with its rows from the top down, all of them in the buffer.
structure FtBitmap where
  rows : Nat
  width : Nat
  pitch : Nat
  pixelMode : PixelMode
  buffer : List UInt8
  filled : pitch * rows ≤ buffer.length

-- The glyph slot after FT_Load_Glyph and FT_Render_Glyph. An advance has 26.6 bits.
structure GlyphSlot where
  bitmap : FtBitmap
  bitmapLeft : Int
  bitmapTop : Int
  advanceX : Int
  advanceY : Int

-- A character that has a glyph, with what loading and rendering it gives, if both succeed.
structure FtChar where
  charcode : Nat
  slot : Option GlyphSlot
  isUnicode : charcode < 0x110000

-- A string that lies in memory, without the zero at its end.
structure CString where
  bytes : List UInt8
  fits : bytes.length < 2 ^ 62

structure SizeMetrics where
  ascender : Int
  descender : Int
  height : Int

-- The metrics are those after FT_Set_Pixel_Sizes, if it succeeds. The characters are what
-- FT_Get_First_Char and FT_Get_Next_Char give until the first glyph index 0.
structure FtFace where
  familyName : Option CString
  pixelSize : Option Int
  metrics : Option SizeMetrics
  numGlyphs : Nat
  chars : List FtChar
  ascending : chars.Pairwise fun c d => c.charcode < d.charcode

-- Which sizes the host has memory for: the string table, the glyph table and the atlas.
structure Host where
  strings : Nat → Bool
  glyphs : Nat → Bool
  atlas : Nat → Bool

def AOSBF_ATLAS_INITIAL_SIZE : Nat := 4096

def ft26_6ToI32 (v : Int) : BitVec 32 :=
  if 0 ≤ v then BitVec.ofInt 32 ((v + 32) / 64) else -BitVec.ofInt 32 ((-v + 32) / 64)

-- The other modes are AOSBF_FORMAT_INVALID.
def getBitmapAosbfCformat : PixelMode → Option Format
  | .mono => some .mono
  | .gray => some .a8
  | .gray2 => some .gray2
  | .gray4 => some .gray4
  | _ => none

structure StringTable where
  bytes : List UInt8
  capacity : Nat

def grownCapacity (capacity required : Nat) : Nat :=
  if capacity < required then
    if UINT64_MAX / 2 < capacity then required else grownCapacity (capacity + 128) required
  else capacity
termination_by required - capacity
decreasing_by omega

-- The table starts with 128 bytes.
def newCapacity (capacity required : Nat) : Nat :=
  grownCapacity (if capacity = 0 then 128 else capacity) required

-- The string with its zero goes behind the others.
def StringTable.append (table : StringTable) (str : CString) : StringTable :=
  { table with bytes := table.bytes ++ str.bytes ++ [0] }

-- The offset of the string and the table with it.
def pushString (host : Host) (table : StringTable) (str : CString) : Option (Nat × StringTable) :=
  let required := table.bytes.length + (str.bytes.length + 1)
  if table.capacity < required then
    let capacity := newCapacity table.capacity required
    if host.strings capacity then
      some (table.bytes.length, { table.append str with capacity := capacity })
    else none
  else some (table.bytes.length, table.append str)

-- The bytes in use, atlas_off of them, and the capacity.
structure HostAtlas where
  bytes : List UInt8
  cap : Nat

def atlasResize (host : Host) (atlas : HostAtlas) (newCap : Nat) : Option HostAtlas :=
  if newCap = 0 ∨ newCap < atlas.cap then none
  else if newCap = atlas.cap then some atlas
  else if host.atlas newCap then some { atlas with cap := newCap }
  else none

-- The offset of the bitmap, which becomes the x of its position, and the atlas with it.
def pushBitmap (host : Host) (atlas : HostAtlas) (bitmap : FtBitmap) : Option (Nat × HostAtlas) :=
  if bitmap.width = 0 ∨ bitmap.rows = 0 then none
  else
    let size := bitmap.pitch * bitmap.rows
    let required := atlas.bytes.length + size
    (if atlas.cap < required then atlasResize host atlas required else some atlas).map
      fun atlas =>
        (atlas.bytes.length, { atlas with bytes := atlas.bytes ++ bitmap.buffer.take size })

-- The name is the first string, if there is one.
def pushFamilyName (host : Host) : Option CString → Option (Nat × StringTable)
  | some name => pushString host ⟨[], 0⟩ name
  | none => some (0, ⟨[], 0⟩)

def buildFontHeader (host : Host) (face : FtFace) : Option (FontHdr × StringTable) := do
  let (off, table) ← pushFamilyName host face.familyName
  let pixelSize ← face.pixelSize
  let m ← face.metrics
  let ascent := m.ascender
  let descent := -m.descender
  let lineGap := max 0 (m.height - ascent - descent)
  some
    ({ magic := AOS_BITMAP_FONT_MAGIC
       version := AOS_BITMAP_FONT_VERSION
       revision := AOS_BITMAP_FONT_REVISION
       stringTable := 0
       fontName := BitVec.ofNat 64 off
       fontFamilyName := BitVec.ofNat 64 off
       authorName := 0
       fontSize := if 0 ≤ pixelSize ∧ pixelSize ≤ 65535 then BitVec.ofInt 16 pixelSize else 0
       lineGap := (ft26_6ToI32 lineGap).setWidth 16
       lineHeight := (ft26_6ToI32 m.height).setWidth 16
       ascent := (ft26_6ToI32 ascent).setWidth 16
       descent := (ft26_6ToI32 descent).setWidth 16
       comments := 0
       commentCount := 0
       totalW := 0
       totalH := 0
       atlas := 0
       glyphs := 0
       glyphCount := if face.numGlyphs < 2 ^ 32 then BitVec.ofNat 32 face.numGlyphs else 0 },
      table)

def replacementChar : Nat := 0xFFFD
def questionMark : Nat := 0x3F

-- Whether the character is marked, when `fallback` is the last one that was.
def marksFallback (fallback charcode : Nat) : Bool :=
  (charcode == questionMark && fallback != replacementChar) || charcode == replacementChar

def nextFallback (fallback charcode : Nat) : Nat :=
  if marksFallback fallback charcode then charcode else fallback

-- What every character has in the glyph table.
def blankGlyph (fallback charcode : Nat) : FontGlyph where
  codepoint := BitVec.ofNat 32 charcode
  atlasX := 0
  atlasY := 0
  width := 0
  height := 0
  pitch := 0
  bearingX := 0
  bearingY := 0
  advanceX := 0
  advanceY := 0
  format := 0
  isFallback := if marksFallback fallback charcode then 1 else 0
  valid := 0

-- What the slot adds to it, without the bitmap.
def FontGlyph.withSlot (glyph : FontGlyph) (slot : GlyphSlot) : FontGlyph :=
  { glyph with
    bearingX := BitVec.ofInt 16 slot.bitmapLeft
    bearingY := BitVec.ofInt 16 slot.bitmapTop
    advanceX := BitVec.ofInt 16 (slot.advanceX / 64)
    advanceY := BitVec.ofInt 16 (slot.advanceY / 64)
    valid := 1 }

def FontGlyph.withBitmap (glyph : FontGlyph) (x : Nat) (bitmap : FtBitmap) (format : Format) :
    FontGlyph :=
  { glyph with
    atlasX := BitVec.ofNat 32 x
    atlasY := 0
    width := BitVec.ofNat 16 bitmap.width
    height := BitVec.ofNat 16 bitmap.rows
    pitch := BitVec.ofNat 16 bitmap.pitch
    format := format.code }

-- One round of the loop of build_glyphs.
def buildGlyph (host : Host) (fallback : Nat) (atlas : HostAtlas) (c : FtChar) :
    Option (FontGlyph × HostAtlas) :=
  let glyph := blankGlyph fallback c.charcode
  match c.slot with
  | none => some (glyph, atlas)
  | some slot =>
      if slot.bitmap.width = 0 ∨ slot.bitmap.rows = 0 then some (glyph.withSlot slot, atlas)
      else do
        let format ← getBitmapAosbfCformat slot.bitmap.pixelMode
        let (x, atlas) ← pushBitmap host atlas slot.bitmap
        some ((glyph.withSlot slot).withBitmap x slot.bitmap format, atlas)

-- It ends with the characters or with the glyph table.
def buildGlyphs (host : Host) (numGlyphs : Nat) :
    List FtChar → Nat → Nat → HostAtlas → Option (List FontGlyph × HostAtlas)
  | [], _, _, atlas => some ([], atlas)
  | c :: chars, glyphNo, fallback, atlas =>
      if numGlyphs ≤ glyphNo then some ([], atlas)
      else do
        let (glyph, atlas) ← buildGlyph host fallback atlas c
        let (glyphs, atlas) ← buildGlyphs host numGlyphs chars (glyphNo + 1)
          (nextFallback fallback c.charcode) atlas
        some (glyph :: glyphs, atlas)

-- The header with the offsets that write_aosbf enters.
def FontHdr.withOffsets (hdr : FontHdr) (strings atlas : List UInt8) : FontHdr :=
  let glyphs := sizeofFontHdr + strings.length
  { hdr with
    stringTable := BitVec.ofNat 64 sizeofFontHdr
    glyphs := BitVec.ofNat 64 glyphs
    totalW := BitVec.ofNat 32 atlas.length
    totalH := 1
    atlas := BitVec.ofNat 64 (glyphs + hdr.glyphCount.toNat * sizeofFontGlyph) }

-- The file, when each of the writes succeeds.
def writeAosbf (hdr : FontHdr) (strings : List UInt8) (glyphs : List FontGlyph)
    (atlas : List UInt8) : List UInt8 :=
  (hdr.withOffsets strings atlas).bytes ++ (strings ++ (glyphs.flatMap FontGlyph.bytes ++ atlas))

def buildAosbf (host : Host) (face : FtFace) : Option (List UInt8) := do
  let (hdr, table) ← buildFontHeader host face
  if !host.glyphs (face.numGlyphs * sizeofFontGlyph) then none
  else do
    let atlas ← atlasResize host ⟨[], 0⟩ AOSBF_ATLAS_INITIAL_SIZE
    let (glyphs, atlas) ← buildGlyphs host face.numGlyphs face.chars 0 0 atlas
    some (writeAosbf { hdr with glyphCount := BitVec.ofNat 32 glyphs.length } table.bytes glyphs
      atlas.bytes)

end AosKernel.Font
