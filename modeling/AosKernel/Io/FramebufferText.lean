import AosKernel.Io.Formatters
import AosKernel.Io.Framebuffer
import AosKernel.Lib.Steps

namespace AosKernel.Io

open Verif AosKernel.Core

structure FbCursor where
  x : BitVec 32
  y : BitVec 32
  fgColor : BitVec 32
  bgColor : BitVec 32
  autoScroll : Bool

structure FbText where
  ram : Ram
  cur : FbCursor

section Functions

-- `font` is font8x16.
variable (fb : FbInfo) (font : UInt8 → Nat → BitVec 8)

def glyphColor (c : UInt8) (fgColor bgColor : BitVec 32) (row col : Nat) : BitVec 32 :=
  if (font c row).getLsbD (7 - col) then fgColor else bgColor

-- The two loops over a glyph, at the cursor.
def drawGlyph (s : FbText) (c : UInt8) : FbText :=
  { s with ram :=
      drawRows fb s.cur.x s.cur.y 8 (glyphColor font c s.cur.fgColor s.cur.bgColor) 16 s.ram }

-- The last lines of the newline and of a character, which are alike.
def scrollOrWrap (s : FbText) : FbText :=
  if (s.cur.y + 16).toNat > fb.height then
    if s.cur.autoScroll then
      { ram := fbScrollUp fb s.ram 1 s.cur.bgColor
        cur := { s.cur with y := s.cur.y - 16 } }
    else { s with cur := { s.cur with y := 0 } }
  else s

-- A character that is not handled on its own.
def fbPutc (s : FbText) (c : UInt8) : FbText :=
  let s := drawGlyph fb font s c
  let cur := { s.cur with x := s.cur.x + 8 }
  let cur := if (cur.x + 8).toNat > fb.width then { cur with x := 0, y := cur.y + 16 } else cur
  scrollOrWrap fb { s with cur := cur }

-- A character from 128 on is negative.
def fbPrintc (s : FbText) (c : UInt8) : FbText :=
  if c ≥ 128 then s
  else if c = chr '\n' then
    scrollOrWrap fb { s with cur := { s.cur with x := 0, y := s.cur.y + 16 } }
  else if c = chr '\t' then
    let space (s : FbText) := fbPutc fb font s (chr ' ')
    space (space (space (space s)))
  else if c = 8 then
    if s.cur.x = 0 ∧ s.cur.y ≠ 0 then
      let cur := { s.cur with x := BitVec.ofNat 32 fb.width, y := s.cur.y - 16 }
      drawGlyph fb font { s with cur := cur } (chr ' ')
    else if s.cur.x = 0 ∧ s.cur.y = 0 then s
    else
      drawGlyph fb font { s with cur := { s.cur with x := s.cur.x - 8 } } (chr ' ')
  else fbPutc fb font s c

end Functions

-- On the grid of 8x16 cells, and wholly inside the screen.
structure FbCursor.OnGrid (fb : FbInfo) (cur : FbCursor) : Prop where
  column : 8 ∣ cur.x.toNat
  row : 16 ∣ cur.y.toNat
  right : cur.x.toNat + 8 ≤ fb.width
  bottom : cur.y.toNat + 16 ≤ fb.height

instance (fb : FbInfo) (cur : FbCursor) : Decidable (cur.OnGrid fb) :=
  decidable_of_iff
    (8 ∣ cur.x.toNat ∧ 16 ∣ cur.y.toNat ∧ cur.x.toNat + 8 ≤ fb.width ∧
      cur.y.toNat + 16 ≤ fb.height)
    ⟨fun h => ⟨h.1, h.2.1, h.2.2.1, h.2.2.2⟩, fun h => ⟨h.column, h.row, h.right, h.bottom⟩⟩

-- A character with a glyph.
def Printable (c : UInt8) : Prop := c < 128 ∧ c ≠ chr '\n' ∧ c ≠ chr '\t' ∧ c ≠ 8

instance (c : UInt8) : Decidable (Printable c) := inferInstanceAs (Decidable (_ ∧ _))

-- The character is the last one of its line, or of the screen.
def FbCursor.LastColumn (fb : FbInfo) (cur : FbCursor) : Prop := fb.width < cur.x.toNat + 16

def FbCursor.LastCell (fb : FbInfo) (cur : FbCursor) : Prop :=
  cur.LastColumn fb ∧ fb.height < cur.y.toNat + 32

instance (fb : FbInfo) (cur : FbCursor) : Decidable (cur.LastColumn fb) :=
  inferInstanceAs (Decidable (_ < _))

instance (fb : FbInfo) (cur : FbCursor) : Decidable (cur.LastCell fb) :=
  inferInstanceAs (Decidable (_ ∧ _))

-- The old picture with a glyph in the cell of the cursor.
def withGlyph (fb : FbInfo) (font : UInt8 → Nat → BitVec 8) (s : FbText) (c : UInt8)
    (px py : Nat) : BitVec 32 :=
  if (s.cur.x.toNat ≤ px ∧ px < s.cur.x.toNat + 8) ∧
      s.cur.y.toNat ≤ py ∧ py < s.cur.y.toNat + 16 then
    swapColor (glyphColor font c s.cur.fgColor s.cur.bgColor (py - s.cur.y.toNat)
      (px - s.cur.x.toNat))
  else fb.pixel s.ram px py

-- A character changes the cell of the cursor and no other pixel. The last one of a screen
-- that scrolls then moves the picture up by a line.
structure ShowsGlyph (fb : FbInfo) (font : UInt8 → Nat → BitVec 8) (s : FbText) (c : UInt8) :
    Prop where
  plain : ¬ (s.cur.autoScroll = true ∧ s.cur.LastCell fb) → ∀ px < fb.width, ∀ py < fb.height,
    fb.pixel (fbPrintc fb font s c).ram px py = withGlyph fb font s c px py
  scrolled : s.cur.autoScroll = true → s.cur.LastCell fb → ∀ px < fb.width, ∀ py < fb.height,
    fb.pixel (fbPrintc fb font s c).ram px py =
      if py + 16 < fb.height then withGlyph fb font s c px (py + 16)
      else swapColor s.cur.bgColor
  inside : Ram.WritesIn s.ram (fbPrintc fb font s c).ram fb.area

structure PrintsRight (fb : FbInfo) (font : UInt8 → Nat → BitVec 8) (s : FbText) : Prop where
  onGrid : s.cur.OnGrid fb
  glyph : ∀ c, Printable c → ShowsGlyph fb font s c
  back : ∀ c, Printable c → ¬ s.cur.LastColumn fb →
    (fbPrintc fb font (fbPrintc fb font s c) 8).cur = s.cur

-- Backspace in the first column of a line that is not the first one.
def BackAtLineStart (s : FbText) (c : UInt8) : Prop := c = 8 ∧ s.cur.x = 0 ∧ s.cur.y ≠ 0

section Text

variable {fb : FbInfo} {font : UInt8 → Nat → BitVec 8}

theorem FbCursor.OnGrid.small {cur : FbCursor} (h : cur.OnGrid fb) :
    fb.width < 2 ^ 31 ∧ fb.height < 2 ^ 31 := by
  have hbottom := h.bottom
  have hright := h.right
  have hwidth := (fb.small (by omega)).1
  have hpixels : 8 * 4 ≤ fb.width * (fb.bpp / 8) :=
    Nat.mul_le_mul (by omega) fb.pixel_bytes
  have hpitch : fb.height * 32 ≤ fb.height * fb.pitch :=
    Nat.mul_le_mul_left _ (Nat.le_trans hpixels fb.width_le)
  have hsize := fb.size_le
  omega

theorem toNat_add_small {x : BitVec 32} {k : Nat} (h : x.toNat + k < 2 ^ 32) :
    (x + BitVec.ofNat 32 k).toNat = x.toNat + k := by
  rw [BitVec.toNat_add, BitVec.toNat_ofNat, Nat.add_mod_mod, Nat.mod_eq_of_lt h]

theorem toNat_sub_small {x : BitVec 32} {k : Nat} (hk : k ≤ x.toNat) :
    (x - BitVec.ofNat 32 k).toNat = x.toNat - k := by
  have hlt := x.isLt
  have hcast : (BitVec.ofNat 32 k).toNat = k := by
    rw [BitVec.toNat_ofNat, Nat.mod_eq_of_lt (by omega)]
  rw [BitVec.toNat_sub_of_le (by rw [BitVec.le_def, hcast]; exact hk), hcast]

theorem drawGlyph_pixel (s : FbText) (c : UInt8) (h : s.cur.OnGrid fb) {px py : Nat}
    (hpx : px < fb.width) (hpy : py < fb.height) :
    fb.pixel (drawGlyph fb font s c).ram px py = withGlyph fb font s c px py := by
  obtain ⟨hwidth, hheight⟩ := h.small
  have hright := h.right
  have hbottom := h.bottom
  exact drawRows_pixel _ _ _ _ _ _ (by omega) (by omega) hpx hpy

theorem drawGlyph_writes (s : FbText) (c : UInt8) :
    Ram.WritesIn s.ram (drawGlyph fb font s c).ram fb.area :=
  drawRows_writes _ _ _ _ _ _

-- The cursor behind a line that is not the last one, and behind the last one.
theorem scrollOrWrap_stays {s : FbText} (h : s.cur.y.toNat + 16 ≤ fb.height)
    (hsmall : fb.height < 2 ^ 31) : scrollOrWrap fb s = s := by
  have hadd : (s.cur.y + 16).toNat = s.cur.y.toNat + 16 := toNat_add_small (k := 16) (by omega)
  rw [scrollOrWrap, if_neg (by omega)]

theorem scrollOrWrap_last {s : FbText} (h : fb.height < s.cur.y.toNat + 16)
    (hsmall : s.cur.y.toNat < 2 ^ 31) :
    scrollOrWrap fb s =
      if s.cur.autoScroll then
        { ram := fbScrollUp fb s.ram 1 s.cur.bgColor
          cur := { s.cur with y := s.cur.y - 16 } }
      else { s with cur := { s.cur with y := 0 } } := by
  have hadd : (s.cur.y + 16).toNat = s.cur.y.toNat + 16 := toNat_add_small (k := 16) (by omega)
  rw [scrollOrWrap, if_pos (by omega)]

-- A glyph is drawn where the cursor stays.
theorem fbPutc_eq (s : FbText) (c : UInt8) :
    fbPutc fb font s c = scrollOrWrap fb ⟨(drawGlyph fb font s c).ram,
      if (s.cur.x + 8 + 8).toNat > fb.width then { s.cur with x := 0, y := s.cur.y + 16 }
      else { s.cur with x := s.cur.x + 8 }⟩ := rfl

-- Where a character leaves the cursor.
theorem fbPutc_next {s : FbText} (c : UInt8) (h : s.cur.OnGrid fb)
    (hcolumn : ¬ s.cur.LastColumn fb) :
    fbPutc fb font s c =
      ⟨(drawGlyph fb font s c).ram, { s.cur with x := s.cur.x + 8 }⟩ := by
  obtain ⟨hwidth, hheight⟩ := h.small
  unfold FbCursor.LastColumn at hcolumn
  have hx : (s.cur.x + 8).toNat = s.cur.x.toNat + 8 := toNat_add_small (k := 8) (by omega)
  have hx' : (s.cur.x + 8 + 8).toNat = (s.cur.x + 8).toNat + 8 :=
    toNat_add_small (k := 8) (by omega)
  rw [fbPutc_eq, if_neg (show ¬ (s.cur.x + 8 + 8).toNat > fb.width by omega)]
  exact scrollOrWrap_stays h.bottom hheight

theorem fbPutc_wraps {s : FbText} (c : UInt8) (h : s.cur.OnGrid fb) (hcolumn : s.cur.LastColumn fb) :
    fbPutc fb font s c =
      scrollOrWrap fb ⟨(drawGlyph fb font s c).ram, { s.cur with x := 0, y := s.cur.y + 16 }⟩ := by
  obtain ⟨hwidth, hheight⟩ := h.small
  have hright := h.right
  unfold FbCursor.LastColumn at hcolumn
  have hx : (s.cur.x + 8).toNat = s.cur.x.toNat + 8 := toNat_add_small (k := 8) (by omega)
  have hx' : (s.cur.x + 8 + 8).toNat = (s.cur.x + 8).toNat + 8 :=
    toNat_add_small (k := 8) (by omega)
  rw [fbPutc_eq, if_pos (show (s.cur.x + 8 + 8).toNat > fb.width by omega)]

-- The line behind the cursor's, wherever the memory is.
theorem nextLine_onGrid {s : FbText} (h : s.cur.OnGrid fb) (r : Ram) :
    (scrollOrWrap fb ⟨r, { s.cur with x := 0, y := s.cur.y + 16 }⟩).cur.OnGrid fb := by
  obtain ⟨hwidth, hheight⟩ := h.small
  have hright := h.right
  have hbottom := h.bottom
  have hrow := h.row
  have hy : (s.cur.y + 16).toNat = s.cur.y.toNat + 16 := toNat_add_small (k := 16) (by omega)
  by_cases hlast : fb.height < s.cur.y.toNat + 32
  · rw [scrollOrWrap_last (show fb.height < (s.cur.y + 16).toNat + 16 by omega)
      (show (s.cur.y + 16).toNat < 2 ^ 31 by omega)]
    cases s.cur.autoScroll with
    | true =>
        rw [if_pos rfl]
        have hback : s.cur.y + 16 - 16 = s.cur.y := BitVec.add_sub_cancel _ _
        refine ⟨Nat.dvd_zero 8, ?_, ?_, ?_⟩
        · show 16 ∣ (s.cur.y + 16 - 16).toNat
          rw [hback]
          exact hrow
        · show 0 + 8 ≤ fb.width
          omega
        · show (s.cur.y + 16 - 16).toNat + 16 ≤ fb.height
          rw [hback]
          exact hbottom
    | false =>
        rw [if_neg Bool.false_ne_true]
        refine ⟨Nat.dvd_zero 8, Nat.dvd_zero 16, ?_, ?_⟩
        · show 0 + 8 ≤ fb.width
          omega
        · show 0 + 16 ≤ fb.height
          omega
  · rw [scrollOrWrap_stays (show (s.cur.y + 16).toNat + 16 ≤ fb.height by omega) hheight]
    refine ⟨Nat.dvd_zero 8, ?_, ?_, ?_⟩
    · show 16 ∣ (s.cur.y + 16).toNat
      rw [hy]
      exact Nat.dvd_add hrow (Nat.dvd_refl 16)
    · show 0 + 8 ≤ fb.width
      omega
    · show (s.cur.y + 16).toNat + 16 ≤ fb.height
      omega

theorem fbPutc_onGrid {s : FbText} (c : UInt8) (h : s.cur.OnGrid fb) :
    (fbPutc fb font s c).cur.OnGrid fb := by
  by_cases hcolumn : s.cur.LastColumn fb
  · rw [fbPutc_wraps c h hcolumn]
    exact nextLine_onGrid h _
  · rw [fbPutc_next c h hcolumn]
    obtain ⟨hwidth, -⟩ := h.small
    have hright := h.right
    unfold FbCursor.LastColumn at hcolumn
    have hx : (s.cur.x + 8).toNat = s.cur.x.toNat + 8 := toNat_add_small (k := 8) (by omega)
    refine ⟨?_, h.row, ?_, h.bottom⟩
    · show 8 ∣ (s.cur.x + 8).toNat
      rw [hx]
      exact Nat.dvd_add h.column (Nat.dvd_refl 8)
    · show (s.cur.x + 8).toNat + 8 ≤ fb.width
      omega

-- Every character but a backspace at the start of a line keeps the cursor on the grid.
theorem fbPrintc_onGrid {s : FbText} {c : UInt8} (h : s.cur.OnGrid fb)
    (hback : ¬ BackAtLineStart s c) : (fbPrintc fb font s c).cur.OnGrid fb := by
  unfold fbPrintc
  split
  · exact h
  · split
    · exact nextLine_onGrid h s.ram
    · split
      · exact fbPutc_onGrid _ (fbPutc_onGrid _ (fbPutc_onGrid _ (fbPutc_onGrid _ h)))
      · split
        · rename_i hc
          rw [if_neg (fun hstart => hback ⟨hc, hstart⟩)]
          by_cases hhome : s.cur.x = 0 ∧ s.cur.y = 0
          · rw [if_pos hhome]
            exact h
          · rw [if_neg hhome]
            have hx : s.cur.x ≠ 0 := by
              intro hzero
              by_cases hy : s.cur.y = 0
              · exact hhome ⟨hzero, hy⟩
              · exact hback ⟨hc, hzero, hy⟩
            have hpos : 8 ≤ s.cur.x.toNat := by
              apply Nat.le_of_dvd _ h.column
              apply Nat.pos_of_ne_zero
              exact fun hzero => hx (BitVec.eq_of_toNat_eq hzero)
            have hsub : (s.cur.x - 8).toNat = s.cur.x.toNat - 8 := toNat_sub_small (k := 8) hpos
            have hright := h.right
            refine ⟨?_, h.row, ?_, h.bottom⟩
            · show 8 ∣ (s.cur.x - 8).toNat
              rw [hsub]
              exact Nat.dvd_sub h.column (Nat.dvd_refl 8)
            · show (s.cur.x - 8).toNat + 8 ≤ fb.width
              omega
        · exact fbPutc_onGrid c h

theorem fbPrintc_printable (s : FbText) {c : UInt8} (h : Printable c) :
    fbPrintc fb font s c = fbPutc fb font s c := by
  obtain ⟨hascii, hnewline, htab, hback⟩ := h
  rw [fbPrintc, if_neg (UInt8.not_le.mpr hascii), if_neg hnewline, if_neg htab, if_neg hback]

-- The memory after the cursor has gone to the next line.
theorem scrollOrWrap_ram {s : FbText} (h : s.cur.OnGrid fb) (r : Ram) :
    (scrollOrWrap fb ⟨r, { s.cur with x := 0, y := s.cur.y + 16 }⟩).ram =
      if s.cur.autoScroll = true ∧ fb.height < s.cur.y.toNat + 32 then
        fbScrollUp fb r 1 s.cur.bgColor
      else r := by
  obtain ⟨-, hheight⟩ := h.small
  have hbottom := h.bottom
  have hy : (s.cur.y + 16).toNat = s.cur.y.toNat + 16 := toNat_add_small (k := 16) (by omega)
  by_cases hlast : fb.height < s.cur.y.toNat + 32
  · rw [scrollOrWrap_last (show fb.height < (s.cur.y + 16).toNat + 16 by omega)
      (show (s.cur.y + 16).toNat < 2 ^ 31 by omega)]
    cases s.cur.autoScroll with
    | true => rw [if_pos rfl, if_pos ⟨rfl, hlast⟩]
    | false => rw [if_neg Bool.false_ne_true, if_neg (fun h => Bool.false_ne_true h.1)]
  · rw [scrollOrWrap_stays (show (s.cur.y + 16).toNat + 16 ≤ fb.height by omega) hheight,
      if_neg (fun h => hlast h.2)]

theorem fbPutc_ram (font : UInt8 → Nat → BitVec 8) {s : FbText} (c : UInt8)
    (h : s.cur.OnGrid fb) :
    (fbPutc fb font s c).ram =
      if s.cur.autoScroll = true ∧ s.cur.LastCell fb then
        fbScrollUp fb (drawGlyph fb font s c).ram 1 s.cur.bgColor
      else (drawGlyph fb font s c).ram := by
  by_cases hcolumn : s.cur.LastColumn fb
  · rw [fbPutc_wraps c h hcolumn, scrollOrWrap_ram h]
    by_cases hscroll : s.cur.autoScroll = true ∧ fb.height < s.cur.y.toNat + 32
    · rw [if_pos hscroll, if_pos ⟨hscroll.1, hcolumn, hscroll.2⟩]
    · rw [if_neg hscroll, if_neg (fun hcell => hscroll ⟨hcell.1, hcell.2.2⟩)]
  · rw [fbPutc_next c h hcolumn, if_neg (fun hcell => hcolumn hcell.2.1)]

theorem showsGlyph_of_onGrid {s : FbText} {c : UInt8} (h : s.cur.OnGrid fb) (hc : Printable c) :
    ShowsGlyph fb font s c := by
  obtain ⟨-, hheight⟩ := h.small
  have hbottom := h.bottom
  have hram := fbPutc_ram font c h
  rw [← fbPrintc_printable s hc] at hram
  refine ⟨fun hstays px hpx py hpy => ?_, fun hauto hcell px hpx py hpy => ?_, ?_⟩
  · rw [hram, if_neg hstays]
    exact drawGlyph_pixel s c h hpx hpy
  · rw [hram, if_pos ⟨hauto, hcell⟩, fbScrollUp_pixel _ _ (by omega) hheight hpx hpy]
    by_cases hlast : py + 16 < fb.height
    · rw [if_pos hlast, if_pos hlast, drawGlyph_pixel s c h hpx hlast]
    · rw [if_neg hlast, if_neg hlast]
  · rw [hram]
    split
    · exact (drawGlyph_writes s c).trans (fbScrollUp_writes _ _ _)
    · exact drawGlyph_writes s c

-- Backspace takes back a character that was not the last one of its line.
theorem fbPrintc_back {s : FbText} {c : UInt8} (h : s.cur.OnGrid fb) (hc : Printable c)
    (hcolumn : ¬ s.cur.LastColumn fb) :
    (fbPrintc fb font (fbPrintc fb font s c) 8).cur = s.cur := by
  obtain ⟨hwidth, -⟩ := h.small
  have hright := h.right
  have hx : (s.cur.x + 8).toNat = s.cur.x.toNat + 8 := toNat_add_small (k := 8) (by omega)
  have hne : s.cur.x + 8 ≠ 0 := by
    intro hzero
    have hval := congrArg BitVec.toNat hzero
    rw [hx] at hval
    exact Nat.succ_ne_zero _ hval
  rw [fbPrintc_printable s hc, fbPutc_next c h hcolumn, fbPrintc, if_neg (by decide),
    if_neg (by decide), if_neg (by decide), if_pos rfl, if_neg (fun hstart => hne hstart.1),
    if_neg (fun hhome => hne hhome.1)]
  show { s.cur with x := s.cur.x + 8 - 8 } = s.cur
  rw [BitVec.add_sub_cancel]

theorem printsRight_of_onGrid {s : FbText} (h : s.cur.OnGrid fb) : PrintsRight fb font s :=
  ⟨h, fun _ hc => showsGlyph_of_onGrid h hc, fun _ hc hcolumn => fbPrintc_back h hc hcolumn⟩

end Text

-- A whole run without a backspace at the start of a line.
theorem fbPrintc_run (fb : FbInfo) (font : UInt8 → Nat → BitVec 8) {s : FbText}
    (hstart : s.cur.OnGrid fb) (cs : List UInt8)
    (hback : Admitted (fun s c => some (fbPrintc fb font s c))
      (fun s c => ¬ BackAtLineStart s c) s cs) :
    Along (fun s c => some (fbPrintc fb font s c)) (PrintsRight fb font) s cs := by
  induction cs generalizing s with
  | nil => exact printsRight_of_onGrid hstart
  | cons c cs ih =>
      obtain ⟨hc, hrest⟩ := hback
      have hnext : (fbPrintc fb font s c).cur.OnGrid fb := fbPrintc_onGrid hstart hc
      exact ⟨printsRight_of_onGrid hstart, _, rfl, ih hnext (hrest _ rfl)⟩

-- A screen of two columns and two lines, and a font without a pixel.
def fb16x32 : FbInfo where
  addr := 0xE0000000
  width := 16
  height := 32
  pitch := 64
  bpp := 32
  addr_ne := by decide
  pixel_bytes := by decide
  width_le := by decide
  size_le := by decide
  addr_le := by decide

def fbAt (x y : BitVec 32) : FbText where
  ram := ⟨fun _ => 0, []⟩
  cur := ⟨x, y, 0xFFFFFFFF, 0, false⟩

theorem fbPrintc_run_twice :
    Along (fun s c => some (fbPrintc fb16x32 (fun _ _ => 0) s c))
      (PrintsRight fb16x32 (fun _ _ => 0)) (fbAt 8 0) (text "ok") := by
  apply fbPrintc_run
  · decide
  · refine ⟨fun h => absurd h.1 (by decide), fun t ht => ?_⟩
    exact ⟨fun h => absurd h.1 (by decide), fun _ _ => trivial⟩

-- Without scrolling the last cell is followed by the first one, and backspace stays there.
theorem wrap_not_taken_back :
    (fbAt 8 16).cur.OnGrid fb16x32 ∧ (fbAt 8 16).cur.autoScroll = false ∧
      Printable (chr 'A') ∧
      (fbPrintc fb16x32 (fun _ _ => 0)
        (fbPrintc fb16x32 (fun _ _ => 0) (fbAt 8 16) (chr 'A')) 8).cur ≠ (fbAt 8 16).cur := by
  refine ⟨by decide, rfl, by decide, fun h => ?_⟩
  have hx := congrArg FbCursor.x h
  exact absurd hx (by decide)

end AosKernel.Io
