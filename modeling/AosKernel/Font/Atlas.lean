import AosKernel.Font.Format
import AosKernel.Lib.Shelf
import AosKernel.Lib.Times

namespace AosKernel.Font

open Verif

def INITIAL_WIDTH : Nat := 512
def INITIAL_HEIGHT : Nat := 512
def PADDING : Nat := 1
def AOSBF_ATLAS_MAX_HEIGHT : Nat := 134217728

-- Why a function ends early: it returns AOS_FALSE, or it touches memory it does not have.
inductive Stop
  | refused
  | outside
  deriving DecidableEq

-- The byte at an offset of some memory.
def readByte (bytes : List UInt8) (i : Nat) : Except Stop UInt8 :=
  match bytes[i]? with
  | some b => .ok b
  | none => .error .outside

-- Pixels that were allocated: how many, and what they are.
structure Sheet where
  words : Nat
  word : Nat → BitVec 32

namespace Sheet

def read (s : Sheet) (i : Nat) : Except Stop (BitVec 32) :=
  if i < s.words then .ok (s.word i) else .error .outside

def write (s : Sheet) (i : Nat) (v : BitVec 32) : Except Stop Sheet :=
  if i < s.words then .ok { s with word := Function.update s.word i v } else .error .outside

-- A row of pixels, each worked out before it is written, and rows of them.
def writeRow (value : Nat → Except Stop (BitVec 32)) (place : Nat → Nat) :
    Nat → Sheet → Except Stop Sheet :=
  times fun x s => do
    let v ← value x
    s.write (place x) v

def writeRows (value : Nat → Nat → Except Stop (BitVec 32)) (place : Nat → Nat → Nat)
    (cols : Nat) : Nat → Sheet → Except Stop Sheet :=
  times fun y s => writeRow (value y) (place y) cols s

end Sheet

def rgbaWord (r g b a : UInt8) : BitVec 32 :=
  (a.toBitVec.setWidth 32 <<< 24) ||| (b.toBitVec.setWidth 32 <<< 16) |||
    (g.toBitVec.setWidth 32 <<< 8) ||| r.toBitVec.setWidth 32

def Format.minimumPitch (width : Nat) : Format → Nat
  | .mono => (width + 7) / 8
  | .gray2 => (width + 3) / 4
  | .gray4 => (width + 1) / 2
  | .a8 => width
  | .rgb => width * 3
  | .rgba => width * 4

-- Column `x` of a row of the bitmap. Formats without a colour are white, with their value as
-- the alpha.
def Format.pixel (row : Nat → Except Stop UInt8) (x : Nat) : Format → Except Stop (BitVec 32)
  | .mono => do
      let byte ← row (x / 8)
      .ok (rgbaWord 255 255 255 (if byte.toNat.testBit (7 - x % 8) then 255 else 0))
  | .gray2 => do
      let byte ← row (x / 4)
      .ok (rgbaWord 255 255 255 ((byte >>> UInt8.ofNat (6 - x % 4 * 2) &&& 3) * 85))
  | .gray4 => do
      let byte ← row (x / 2)
      .ok (rgbaWord 255 255 255 ((if x % 2 = 1 then byte &&& 0x0F else byte >>> 4) * 17))
  | .a8 => do
      let a ← row x
      .ok (rgbaWord 255 255 255 a)
  | .rgb => do
      let r ← row (x * 3)
      let g ← row (x * 3 + 1)
      let b ← row (x * 3 + 2)
      .ok (rgbaWord r g b 255)
  | .rgba => do
      let r ← row (x * 4)
      let g ← row (x * 4 + 1)
      let b ← row (x * 4 + 2)
      let a ← row (x * 4 + 3)
      .ok (rgbaWord r g b a)

-- aosbf_atlas_data. `calls` counts the calls of avmf_alloc; whether one of them succeeds is
-- what `grants` says of its number.
structure AtlasData where
  atlas : Option Sheet
  width : Nat
  height : Nat
  rowHeight : Nat
  x : Nat
  y : Nat
  calls : Nat

-- aosbf_atlas_data atlas = {0}
def emptyAtlas (calls : Nat) : AtlasData := ⟨none, 0, 0, 0, 0, 0, calls⟩

-- What aosbf_convert_glyph_to_rgba8 is given: the memory from the bitmap on, how much of it
-- is the bitmap, and what the bitmap is.
structure Bitmap where
  bytes : List UInt8
  size : Nat
  width : BitVec 32
  height : BitVec 32
  pitch : BitVec 32
  format : BitVec 32

namespace AtlasData

def sheet (a : AtlasData) : Except Stop Sheet :=
  match a.atlas with
  | some sheet => .ok sheet
  | none => .error .outside

-- The first call allocates an atlas. (Its size, a constant, does not overflow.)
def opened (grants : Nat → Bool) (a : AtlasData) : Except Stop AtlasData :=
  match a.atlas with
  | some _ => .ok a
  | none =>
      if grants a.calls then
        .ok { a with
          atlas := some ⟨INITIAL_WIDTH * INITIAL_HEIGHT, fun _ => 0⟩
          width := INITIAL_WIDTH
          height := INITIAL_HEIGHT
          x := 0
          y := 0
          calls := a.calls + 1 }
      else .error .refused

-- The glyph goes into the row or starts a new one.
def fitted (width : Nat) (a : AtlasData) : Except Stop AtlasData :=
  if a.width < width then .error .refused
  else if UINT64_MAX - width - PADDING < a.x then .error .refused
  else if a.width < a.x + width + PADDING then
    if UINT64_MAX - PADDING < a.rowHeight then .error .refused
    else .ok { a with x := 0, y := (a.y + (a.rowHeight + PADDING)) % 2 ^ 64, rowHeight := 0 }
  else .ok a

-- The rows of an atlas in an allocation of `words` pixels.
def copied (a : AtlasData) (words : Nat) : Except Stop Sheet := do
  let old ← a.sheet
  Sheet.writeRows (fun y x => old.read (y * a.width + x)) (fun y x => y * a.width + x) a.width
    a.height ⟨words, fun _ => 0⟩

def enlarged (grants : Nat → Bool) (height : Nat) (a : AtlasData) : Except Stop AtlasData :=
  if UINT64_MAX - height < a.y then .error .refused
  else
    let required := a.y + height
    if required ≤ a.height then .ok a
    else
      let newHeight := if UINT64_MAX - 511 < required then required else (required + 511) / 512 * 512
      if newHeight < required then .error .refused
      else if UINT64_MAX / a.width < newHeight then .error .refused
      else if UINT64_MAX / 4 < a.width * newHeight then .error .refused
      else if AOSBF_ATLAS_MAX_HEIGHT < a.width * newHeight * 4 then .error .refused
      else if ¬ grants a.calls then .error .refused
      else do
        let new ← a.copied (a.width * newHeight)
        .ok { a with atlas := some new, height := newHeight, calls := a.calls + 1 }

-- Its pixels, from the corner where the atlas has its next place.
def drawn (a : AtlasData) (b : Bitmap) (format : Format) : Except Stop Sheet := do
  let old ← a.sheet
  Sheet.writeRows
    (fun y x => format.pixel (fun i => readByte b.bytes (y * b.pitch.toNat + i)) x)
    (fun y x => ((a.y + y) * a.width + (a.x + x)) % 2 ^ 64) b.width.toNat b.height.toNat old

end AtlasData

-- The atlas with the glyph, and where the glyph is. What a call that fails leaves behind is
-- not used.
def convertGlyphToRgba8 (grants : Nat → Bool) (a : AtlasData) (b : Bitmap) :
    Except Stop (AtlasData × Nat × Nat) :=
  if b.width = 0 ∨ b.height = 0 then .error .refused
  else do
    let a ← a.opened grants
    let a ← a.fitted b.width.toNat
    let a ← a.enlarged grants b.height.toNat
    if b.pitch = 0 ∨ b.size < b.pitch.toNat * b.height.toNat then .error .refused
    else
      match Format.ofCode b.format with
      | none => .error .refused
      | some format =>
          if b.pitch.toNat < format.minimumPitch b.width.toNat then .error .refused
          else do
            let new ← a.drawn b format
            .ok ({ a with
              atlas := some new
              x := a.x + (b.width.toNat + PADDING)
              rowHeight := max a.rowHeight b.height.toNat }, a.x, a.y)

-- Calls on one atlas, all of which succeed: the atlas they leave and the rectangles they
-- return.
def convertAll (grants : Nat → Bool) : AtlasData → List Bitmap →
    Except Stop (AtlasData × List Rect)
  | a, [] => .ok (a, [])
  | a, b :: bitmaps => do
      let (a, x, y) ← convertGlyphToRgba8 grants a b
      let (a, rects) ← convertAll grants a bitmaps
      .ok (a, ⟨x, y, b.width.toNat, b.height.toNat⟩ :: rects)

end AosKernel.Font
