import AosKernel.Core.Ram

namespace AosKernel.Io

open Verif AosKernel.Core

-- FB_Info_t as the boot loader and the display drivers fill it: a pixel has four bytes
-- at least, a line holds its pixels, and the whole is below 4 GiB.
structure FbInfo where
  addr : Nat
  width : Nat
  height : Nat
  pitch : Nat
  bpp : Nat
  addr_ne : addr ≠ 0
  pixel_bytes : 4 ≤ bpp / 8
  width_le : width * (bpp / 8) ≤ pitch
  size_le : height * pitch ≤ 2 ^ 32
  addr_le : addr + height * pitch ≤ 2 ^ 64

def FbInfo.area (fb : FbInfo) : Span := ⟨fb.addr, fb.height * fb.pitch⟩

-- The bytes of a colour in the other order.
def swapColor (color : BitVec 32) : BitVec 32 :=
  (color &&& 0xFF) <<< 24 ||| ((color >>> 8) &&& 0xFF) <<< 16 |||
    ((color >>> 16) &&& 0xFF) <<< 8 ||| (color >>> 24) &&& 0xFF

section Functions

variable (fb : FbInfo)

-- An int that is negative is not below the unsigned width or height.
def fbPutPixel (r : Ram) (x y color : BitVec 32) : Ram :=
  if x.toNat ≥ fb.width ∨ y.toNat ≥ fb.height then r
  else
    r.write32 (fb.addr + y.toNat * fb.pitch % 2 ^ 32 + x.toNat * (fb.bpp / 8)) (swapColor color)

-- The inner and the outer loop over the pixels of a rectangle.
def drawRow (x y : BitVec 32) (color : Nat → BitVec 32) : Nat → Ram → Ram
  | 0, r => r
  | k + 1, r => fbPutPixel fb (drawRow x y color k r) (x + BitVec.ofNat 32 k) y (color k)

def drawRows (x y : BitVec 32) (w : Nat) (color : Nat → Nat → BitVec 32) : Nat → Ram → Ram
  | 0, r => r
  | j + 1, r => drawRow fb x (y + BitVec.ofNat 32 j) (color j) w (drawRows x y w color j r)

-- The sizes are ints.
def fbDrawRect (r : Ram) (x y w h color : BitVec 32) : Ram :=
  drawRows fb x y w.toInt.toNat (fun _ _ => color) h.toInt.toNat r

def fbClear (r : Ram) (color : BitVec 32) : Ram :=
  fbDrawRect fb r 0 0 (BitVec.ofNat 32 fb.width) (BitVec.ofNat 32 fb.height) color

def fbScrollUp (r : Ram) (lines color : BitVec 32) : Ram :=
  if lines = 0 then r
  else
    let scrollPixels := (lines * 16).toNat
    if scrollPixels ≥ fb.height then fbClear fb r color
    else
      let moveSize := (fb.height - scrollPixels) * fb.pitch
      let r := r.memmove fb.addr (fb.addr + scrollPixels * fb.pitch) moveSize
      fbDrawRect fb r 0 (BitVec.ofNat 32 (fb.height - scrollPixels)) (BitVec.ofNat 32 fb.width)
        (BitVec.ofNat 32 scrollPixels) color

end Functions

def FbInfo.pixelAddr (fb : FbInfo) (x y : Nat) : Nat := fb.addr + y * fb.pitch + x * (fb.bpp / 8)

-- What the memory shows: the picture on the screen.
def FbInfo.pixel (fb : FbInfo) (r : Ram) (x y : Nat) : BitVec 32 := r.read32 (fb.pixelAddr x y)

section Pixels

variable {fb : FbInfo}

theorem FbInfo.small (fb : FbInfo) (hheight : 0 < fb.height) :
    fb.width < 2 ^ 31 ∧ fb.pitch ≤ 2 ^ 32 := by
  have hsize := fb.size_le
  have hpitch : 1 * fb.pitch ≤ fb.height * fb.pitch := Nat.mul_le_mul_right _ hheight
  have hwidth : fb.width * 4 ≤ fb.width * (fb.bpp / 8) := Nat.mul_le_mul_left _ fb.pixel_bytes
  have hline := fb.width_le
  omega

-- A pixel ends before the next line begins.
theorem pixel_line {x : Nat} (hx : x < fb.width) : x * (fb.bpp / 8) + 4 ≤ fb.pitch := by
  have hbytes := fb.pixel_bytes
  calc x * (fb.bpp / 8) + 4 ≤ x * (fb.bpp / 8) + fb.bpp / 8 := Nat.add_le_add_left hbytes _
    _ = (x + 1) * (fb.bpp / 8) := (Nat.succ_mul _ _).symm
    _ ≤ fb.width * (fb.bpp / 8) := Nat.mul_le_mul_right _ hx
    _ ≤ fb.pitch := fb.width_le

theorem pixel_inside {x y : Nat} (hx : x < fb.width) {h : Nat} (hy : y < h) :
    y * fb.pitch + x * (fb.bpp / 8) + 4 ≤ h * fb.pitch := by
  have hline := pixel_line hx
  calc y * fb.pitch + x * (fb.bpp / 8) + 4 ≤ y * fb.pitch + fb.pitch := by omega
    _ = (y + 1) * fb.pitch := (Nat.succ_mul _ _).symm
    _ ≤ h * fb.pitch := Nat.mul_le_mul_right _ hy

theorem pixelAddr_apart {x y x' y' : Nat} (hx : x < fb.width) (hx' : x' < fb.width)
    (h : ¬ (x = x' ∧ y = y')) :
    fb.pixelAddr x y + 4 ≤ fb.pixelAddr x' y' ∨ fb.pixelAddr x' y' + 4 ≤ fb.pixelAddr x y := by
  unfold FbInfo.pixelAddr
  have hcolumn {a b : Nat} (hab : a < b) : a * (fb.bpp / 8) + 4 ≤ b * (fb.bpp / 8) := by
    have hbytes := fb.pixel_bytes
    calc a * (fb.bpp / 8) + 4 ≤ a * (fb.bpp / 8) + fb.bpp / 8 := Nat.add_le_add_left hbytes _
      _ = (a + 1) * (fb.bpp / 8) := (Nat.succ_mul _ _).symm
      _ ≤ b * (fb.bpp / 8) := Nat.mul_le_mul_right _ hab
  rcases Nat.lt_trichotomy y y' with hlt | rfl | hgt
  · have hend := pixel_inside hx hlt
    omega
  · rcases Nat.lt_trichotomy x x' with hlt | rfl | hgt
    · have hend := hcolumn hlt
      omega
    · exact absurd ⟨rfl, rfl⟩ h
    · have hend := hcolumn hgt
      omega
  · have hend := pixel_inside hx' hgt
    omega

theorem fbPutPixel_writes (r : Ram) (x y color : BitVec 32) :
    Ram.WritesIn r (fbPutPixel fb r x y color) fb.area := by
  unfold fbPutPixel
  split
  · exact .refl r _
  · rename_i hin
    have hend := pixel_inside (show x.toNat < fb.width by omega) (show y.toNat < fb.height by omega)
    have hmod : y.toNat * fb.pitch % 2 ^ 32 ≤ y.toNat * fb.pitch := Nat.mod_le _ _
    apply (Ram.write32_writes _ _ _).mono
    constructor
    · show fb.addr ≤ fb.addr + y.toNat * fb.pitch % 2 ^ 32 + x.toNat * (fb.bpp / 8)
      omega
    · show fb.addr + y.toNat * fb.pitch % 2 ^ 32 + x.toNat * (fb.bpp / 8) + 4 ≤
        fb.addr + fb.height * fb.pitch
      omega

theorem fbPutPixel_pixel (r : Ram) (x y color : BitVec 32) {px py : Nat} (hpx : px < fb.width)
    (hpy : py < fb.height) :
    fb.pixel (fbPutPixel fb r x y color) px py =
      if px = x.toNat ∧ py = y.toNat then swapColor color else fb.pixel r px py := by
  unfold fbPutPixel
  by_cases hout : x.toNat ≥ fb.width ∨ y.toNat ≥ fb.height
  · rw [if_pos hout, if_neg (by omega)]
  · rw [if_neg hout]
    have hend := pixel_inside (show x.toNat < fb.width by omega) (show y.toNat < fb.height by omega)
    have hsize := fb.size_le
    rw [Nat.mod_eq_of_lt (by omega)]
    by_cases hsame : px = x.toNat ∧ py = y.toNat
    · rw [if_pos hsame, hsame.1, hsame.2]
      exact Ram.read32_write32 r _ _
    · rw [if_neg hsame]
      apply (Ram.write32_writes r _ _).read32
      exact pixelAddr_apart hpx (show x.toNat < fb.width by omega) hsame

theorem drawRow_writes (x y : BitVec 32) (color : Nat → BitVec 32) (w : Nat) (r : Ram) :
    Ram.WritesIn r (drawRow fb x y color w r) fb.area := by
  induction w with
  | zero => exact .refl r _
  | succ w ih => exact ih.trans (fbPutPixel_writes _ _ _ _)

theorem drawRow_pixel (x y : BitVec 32) (color : Nat → BitVec 32) (w : Nat) (r : Ram)
    (hw : x.toNat + w ≤ 2 ^ 32) {px py : Nat} (hpx : px < fb.width) (hpy : py < fb.height) :
    fb.pixel (drawRow fb x y color w r) px py =
      if x.toNat ≤ px ∧ px < x.toNat + w ∧ py = y.toNat then swapColor (color (px - x.toNat))
      else fb.pixel r px py := by
  induction w with
  | zero => rw [drawRow, if_neg (by omega)]
  | succ w ih =>
      have hx : (x + BitVec.ofNat 32 w).toNat = x.toNat + w := by
        rw [BitVec.toNat_add, BitVec.toNat_ofNat, Nat.add_mod_mod, Nat.mod_eq_of_lt (by omega)]
      rw [drawRow, fbPutPixel_pixel _ _ _ _ hpx hpy, hx, ih (by omega)]
      by_cases hlast : px = x.toNat + w ∧ py = y.toNat
      · rw [if_pos hlast, if_pos (by omega), hlast.1, Nat.add_sub_cancel_left]
      · rw [if_neg hlast]
        by_cases hrow : x.toNat ≤ px ∧ px < x.toNat + w ∧ py = y.toNat
        · rw [if_pos hrow, if_pos (by omega)]
        · rw [if_neg hrow, if_neg (by omega)]

theorem drawRows_writes (x y : BitVec 32) (w : Nat) (color : Nat → Nat → BitVec 32) (h : Nat)
    (r : Ram) : Ram.WritesIn r (drawRows fb x y w color h r) fb.area := by
  induction h with
  | zero => exact .refl r _
  | succ h ih => exact ih.trans (drawRow_writes _ _ _ _ _)

-- The picture after a rectangle is drawn, of which the parts outside are cut off.
theorem drawRows_pixel (x y : BitVec 32) (w : Nat) (color : Nat → Nat → BitVec 32) (h : Nat)
    (r : Ram) (hw : x.toNat + w ≤ 2 ^ 32) (hh : y.toNat + h ≤ 2 ^ 32) {px py : Nat}
    (hpx : px < fb.width) (hpy : py < fb.height) :
    fb.pixel (drawRows fb x y w color h r) px py =
      if (x.toNat ≤ px ∧ px < x.toNat + w) ∧ y.toNat ≤ py ∧ py < y.toNat + h then
        swapColor (color (py - y.toNat) (px - x.toNat))
      else fb.pixel r px py := by
  induction h with
  | zero => rw [drawRows, if_neg (by omega)]
  | succ h ih =>
      have hy : (y + BitVec.ofNat 32 h).toNat = y.toNat + h := by
        rw [BitVec.toNat_add, BitVec.toNat_ofNat, Nat.add_mod_mod, Nat.mod_eq_of_lt (by omega)]
      rw [drawRows, drawRow_pixel _ _ _ _ _ hw hpx hpy, hy, ih (by omega)]
      by_cases hlast : x.toNat ≤ px ∧ px < x.toNat + w ∧ py = y.toNat + h
      · rw [if_pos hlast, if_pos (by omega), hlast.2.2, Nat.add_sub_cancel_left]
      · rw [if_neg hlast]
        by_cases hin : (x.toNat ≤ px ∧ px < x.toNat + w) ∧ y.toNat ≤ py ∧ py < y.toNat + h
        · rw [if_pos hin, if_pos (by omega)]
        · rw [if_neg hin, if_neg (by omega)]

-- A size that is an int, in a frame buffer.
theorem toInt_ofNat_small {n : Nat} (hn : n < 2 ^ 31) : (BitVec.ofNat 32 n).toInt.toNat = n := by
  rw [BitVec.toInt_eq_toNat_of_lt, BitVec.toNat_ofNat, Nat.mod_eq_of_lt (by omega),
    Int.toNat_natCast]
  rw [BitVec.toNat_ofNat, Nat.mod_eq_of_lt (by omega)]
  omega

-- A rectangle that is as wide as the screen.
theorem fbDrawRect_pixel (r : Ram) {y h : Nat} (color : BitVec 32) (hwidth : fb.width < 2 ^ 31)
    (hheight : y + h < 2 ^ 31) {px py : Nat} (hpx : px < fb.width) (hpy : py < fb.height) :
    fb.pixel (fbDrawRect fb r 0 (BitVec.ofNat 32 y) (BitVec.ofNat 32 fb.width)
        (BitVec.ofNat 32 h) color) px py =
      if y ≤ py ∧ py < y + h then swapColor color else fb.pixel r px py := by
  have hzero : (0 : BitVec 32).toNat = 0 := rfl
  have hy : (BitVec.ofNat 32 y).toNat = y := by
    rw [BitVec.toNat_ofNat, Nat.mod_eq_of_lt (by omega)]
  rw [fbDrawRect, toInt_ofNat_small hwidth, toInt_ofNat_small (show h < 2 ^ 31 by omega),
    drawRows_pixel _ _ _ _ _ _ (by omega) (by omega) hpx hpy, hzero, hy]
  by_cases hin : y ≤ py ∧ py < y + h
  · rw [if_pos hin, if_pos ⟨by omega, hin⟩]
  · rw [if_neg hin, if_neg (fun h => hin h.2)]

theorem fbDrawRect_writes (r : Ram) (x y w h color : BitVec 32) :
    Ram.WritesIn r (fbDrawRect fb r x y w h color) fb.area :=
  drawRows_writes _ _ _ _ _ _

-- The picture moves up by a line of text, and the last one has the background colour.
theorem fbScrollUp_pixel (r : Ram) (color : BitVec 32) (hheight : 16 ≤ fb.height)
    (hsmall : fb.height < 2 ^ 31) {px py : Nat} (hpx : px < fb.width) (hpy : py < fb.height) :
    fb.pixel (fbScrollUp fb r 1 color) px py =
      if py + 16 < fb.height then fb.pixel r px (py + 16) else swapColor color := by
  have hwidth := (fb.small (by omega)).1
  unfold fbScrollUp
  rw [if_neg (by decide), show ((1 : BitVec 32) * 16).toNat = 16 from rfl]
  dsimp only
  by_cases hone : 16 ≥ fb.height
  · have hall := fbDrawRect_pixel (y := 0) (h := fb.height) r color hwidth (by omega) hpx hpy
    rw [if_pos (by omega)] at hall
    rw [if_pos hone, if_neg (by omega)]
    exact hall
  · rw [if_neg hone, fbDrawRect_pixel _ color hwidth (by omega) hpx hpy]
    by_cases hlast : py + 16 < fb.height
    · rw [if_neg (by omega), if_pos hlast]
      have hend := pixel_inside hpx (show py < fb.height - 16 by omega)
      have hsrc : fb.pixelAddr px (py + 16) = fb.pixelAddr px py + 16 * fb.pitch := by
        unfold FbInfo.pixelAddr
        rw [Nat.add_mul]
        omega
      have hpos := fb.addr_ne
      unfold FbInfo.pixel
      rw [hsrc]
      apply Ram.read32_congr
      intro i hi
      unfold FbInfo.pixelAddr
      rw [Ram.memmove_bytes r hpos (by omega), moved_in _ (by omega) (by omega)]
      apply congrArg r.bytes
      omega
    · rw [if_pos (by omega), if_neg hlast]

theorem fbScrollUp_writes (r : Ram) (lines color : BitVec 32) :
    Ram.WritesIn r (fbScrollUp fb r lines color) fb.area := by
  unfold fbScrollUp
  split
  · exact .refl r _
  · dsimp only
    split
    · exact fbDrawRect_writes _ _ _ _ _ _
    · have hmove := Ram.memmove_writes r fb.addr (fb.addr + (lines * 16).toNat * fb.pitch)
        ((fb.height - (lines * 16).toNat) * fb.pitch)
      apply (hmove.mono _).trans (fbDrawRect_writes _ _ _ _ _ _)
      refine ⟨Nat.le_refl _, Nat.add_le_add_left ?_ _⟩
      exact Nat.mul_le_mul_right _ (Nat.sub_le _ _)

end Pixels

end AosKernel.Io
