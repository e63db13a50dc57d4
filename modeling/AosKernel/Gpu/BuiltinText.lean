import AosKernel.Font.Format
import Mathlib.Data.BitVec

namespace AosKernel.Gpu

-- struct pyrion_font, as far as text is printed with it. It is valid if its flag is set and
-- it has a glyph array.
structure TextFont where
  lineHeight : BitVec 16
  ascent : BitVec 16
  glyphs : List Font.PyrionGlyph
  valid : Bool

-- The ratio of the font's size to its base size: whether it is positive, and what the
-- product of a length with it is, rounded up.
structure Scale where
  positive : Bool
  ceil : BitVec 16 → BitVec 32

structure Viewport where
  x : BitVec 32
  y : BitVec 32
  width : BitVec 32
  height : BitVec 32
  deriving DecidableEq

-- What printing reads and changes of a context.
structure TextCtx where
  font : TextFont
  scale : Scale
  cursorX : BitVec 32
  cursorY : BitVec 32
  viewport : Viewport

-- The graphics driver: drawing a glyph at a place, and what is left of a context after
-- pyrion_set_default_builtins_font, if that succeeds.
structure TextDriver where
  drawChar : TextCtx → BitVec 32 → BitVec 32 → Font.PyrionGlyph → Bool
  setDefaultFont : TextCtx → Option TextCtx

-- A character is signed.
def charCode (c : UInt8) : BitVec 32 := c.toBitVec.signExtend 32

def TextCtx.lineHeight (ctx : TextCtx) : BitVec 32 := ctx.scale.ceil ctx.font.lineHeight

def TextCtx.advance (ctx : TextCtx) (g : Font.PyrionGlyph) : BitVec 32 := ctx.scale.ceil g.advanceX

def findGlyph (ctx : TextCtx) (c : UInt8) : Option Font.PyrionGlyph :=
  ctx.font.glyphs.find? fun g => g.valid && g.codepoint == charCode c

-- Where the glyph goes: at the cursor or, where the line is full, on the next one. None if
-- that is below the viewport.
def placeGlyph (ctx : TextCtx) (g : Font.PyrionGlyph) : Option TextCtx :=
  if ctx.viewport.width < ctx.cursorX + ctx.advance g then
    if ctx.viewport.height < ctx.cursorY + ctx.lineHeight then none
    else some { ctx with cursorX := 0, cursorY := ctx.cursorY + ctx.lineHeight }
  else some ctx

def drawGlyph (driver : TextDriver) (ctx : TextCtx) (g : Font.PyrionGlyph) : Bool :=
  driver.drawChar ctx (ctx.cursorX + ctx.viewport.x)
    (ctx.cursorY + ctx.viewport.y + ctx.font.ascent.signExtend 32) g

def printGlyph (driver : TextDriver) (ctx : TextCtx) (c : UInt8) : TextCtx × Bool :=
  match findGlyph ctx c with
  | none => (ctx, false)
  | some g =>
      match placeGlyph ctx g with
      | none => (ctx, true)
      | some placed =>
          if drawGlyph driver placed g then
            ({ placed with cursorX := placed.cursorX + placed.advance g }, true)
          else (placed, false)

-- `n` characters, until one fails.
def printTimes (driver : TextDriver) (c : UInt8) : Nat → TextCtx → TextCtx × Bool
  | 0, ctx => (ctx, true)
  | n + 1, ctx =>
      match printGlyph driver ctx c with
      | (ctx, true) => printTimes driver c n ctx
      | (ctx, false) => (ctx, false)

-- The context with a font to print with.
def withFont (driver : TextDriver) (ctx : TextCtx) : Option TextCtx :=
  if ctx.font.valid then some ctx else driver.setDefaultFont ctx

def pyrionBuiltinPrintc (driver : TextDriver) (ctx : TextCtx) (c : UInt8) : TextCtx × Bool :=
  match withFont driver ctx with
  | none => (ctx, false)
  | some ctx =>
      if ¬ ctx.scale.positive then (ctx, false)
      else if c = 10 then
        if ctx.cursorY + ctx.lineHeight ≤ ctx.viewport.height then
          ({ ctx with cursorX := 0, cursorY := ctx.cursorY + ctx.lineHeight }, true)
        else (ctx, false)
      else if c = 13 then ({ ctx with cursorX := 0 }, true)
      else if c = 9 then printTimes driver 32 4 ctx
      else printGlyph driver ctx c

-- The font can be used, and each of the printable characters has a glyph.
structure CoversAscii (ctx : TextCtx) : Prop where
  valid : ctx.font.valid = true
  scale : ctx.scale.positive = true
  glyphs : ∀ c, 0x20 ≤ c → c ≤ 0x7E → findGlyph ctx c ≠ none

-- There is a line below for a line feed, and what has a glyph can be drawn where it goes.
def HasRoom (driver : TextDriver) (ctx : TextCtx) (c : UInt8) : Prop :=
  if c = 10 then ctx.cursorY + ctx.lineHeight ≤ ctx.viewport.height
  else ∀ g placed, findGlyph ctx c = some g → placeGlyph ctx g = some placed →
    drawGlyph driver placed g = true

variable {driver : TextDriver} {ctx : TextCtx} {c : UInt8}

theorem printc_newline (hfont : CoversAscii ctx) (hroom : HasRoom driver ctx 10) :
    (pyrionBuiltinPrintc driver ctx 10).2 = true := by
  have hline : ctx.cursorY + ctx.lineHeight ≤ ctx.viewport.height := by
    rwa [HasRoom, if_pos rfl] at hroom
  simp only [pyrionBuiltinPrintc, withFont, if_pos hfont.valid, hfont.scale, not_true_eq_false,
    if_false, if_true, if_pos hline]

theorem printGlyph_ok (hglyph : findGlyph ctx c ≠ none)
    (hroom : ∀ g placed, findGlyph ctx c = some g → placeGlyph ctx g = some placed →
      drawGlyph driver placed g = true) : (printGlyph driver ctx c).2 = true := by
  cases hfind : findGlyph ctx c with
  | none => exact absurd hfind hglyph
  | some g =>
      simp only [printGlyph, hfind]
      cases hplace : placeGlyph ctx g with
      | none => rfl
      | some placed =>
          simp only [hroom g placed hfind hplace]
          rfl

-- What is no control character is printed if it has a glyph.
theorem printc_glyph (hfont : CoversAscii ctx) (hroom : HasRoom driver ctx c) (hline : c ≠ 10)
    (hreturn : c ≠ 13) (htab : c ≠ 9) (hglyph : findGlyph ctx c ≠ none) :
    (pyrionBuiltinPrintc driver ctx c).2 = true := by
  rw [HasRoom, if_neg hline] at hroom
  simp only [pyrionBuiltinPrintc, withFont, if_pos hfont.valid, hfont.scale, not_true_eq_false,
    if_false, if_neg hline, if_neg hreturn, if_neg htab]
  exact printGlyph_ok hglyph hroom

end AosKernel.Gpu
