import AosKernel.Io.Framebuffer

namespace AosKernel.Io

open Verif AosKernel.Core

-- FB_Info_t with 24 or 32 bits per pixel, and size = pitch * height. No object is larger
-- than PTRDIFF_MAX or reaches the end of the address space.
structure FbMap where
  addr : Nat
  width : Nat
  height : Nat
  pitch : Nat
  bpp : Nat
  addr_ne : addr ≠ 0
  bpp_or : bpp = 24 ∨ bpp = 32
  height_lt : height < 2 ^ 32
  pitch_lt : pitch < 2 ^ 32
  width_le : width * (bpp / 8) ≤ pitch
  size_lt : height * pitch < 2 ^ 63
  addr_lt : addr + height * pitch < 2 ^ 64

namespace FbMap

def area (fb : FbMap) : Span := ⟨fb.addr, fb.height * fb.pitch⟩

section Functions

variable (fb : FbMap)

-- The product of a column and the bytes of a pixel is an int, that of a line and the pitch
-- an unsigned one.
def place (x y : Nat) : Nat :=
  (((fb.addr + y * fb.pitch % 2 ^ 32 : Nat) + (BitVec.ofNat 32 (x * (fb.bpp / 8))).toInt) %
    2 ^ 64).toNat

def fbPutPixel (r : Ram) (x y color : BitVec 32) : Ram :=
  if x.toNat ≥ fb.width ∨ y.toNat ≥ fb.height then r
  else r.write32 (fb.place x.toNat y.toNat) (swapColor color)

def drawRow (x y color : BitVec 32) : Nat → Ram → Ram
  | 0, r => r
  | k + 1, r => fb.fbPutPixel (drawRow x y color k r) (x + BitVec.ofNat 32 k) y color

def drawRows (x y : BitVec 32) (w : Nat) (color : BitVec 32) : Nat → Ram → Ram
  | 0, r => r
  | j + 1, r => fb.drawRow x (y + BitVec.ofNat 32 j) color w (drawRows x y w color j r)

def fbDrawRect (r : Ram) (x y w h color : BitVec 32) : Ram :=
  fb.drawRows x y w.toInt.toNat color h.toInt.toNat r

def fbClear (r : Ram) (color : BitVec 32) : Ram :=
  fb.fbDrawRect r 0 0 (BitVec.ofNat 32 fb.width) (BitVec.ofNat 32 fb.height) color

def fbScrollUp (r : Ram) (lines color : BitVec 32) : Ram :=
  if lines = 0 then r
  else
    let scrollPixels := (lines * 16).toNat
    if scrollPixels ≥ fb.height then fb.fbClear r color
    else
      let moveSize := (fb.height - scrollPixels) * fb.pitch
      let r := r.memmove fb.addr (fb.addr + scrollPixels * fb.pitch) moveSize
      fb.fbDrawRect r 0 (BitVec.ofNat 32 (fb.height - scrollPixels)) (BitVec.ofNat 32 fb.width)
        (BitVec.ofNat 32 scrollPixels) color

-- Where the bytes of a pixel are.
def pixelAddr (x y : Nat) : Nat := fb.addr + y * fb.pitch + x * (fb.bpp / 8)

-- The pixels on the screen that belong to a rectangle.
structure Inside (x y w h : BitVec 32) (px py : Nat) : Prop where
  column : px < fb.width
  line : py < fb.height
  left : x.toInt ≤ px
  right : px < x.toInt + w.toInt
  top : y.toInt ≤ py
  bottom : py < y.toInt + h.toInt

end Functions

-- The bytes of a colour, as many as a pixel has.
def colorByte (color : BitVec 32) (i : Nat) : BitVec 8 := (swapColor color).extractLsb' (8 * i) 8

def Shows (fb : FbMap) (r : Ram) (px py : Nat) (color : BitVec 32) : Prop :=
  ∀ i < fb.bpp / 8, r.bytes (fb.pixelAddr px py + i) = colorByte color i

-- The pixels of the rectangle get the colour, and every other byte stays.
def DrawsRight (fb : FbMap) (x y w h color : BitVec 32) : Prop :=
  ∀ r, (∀ px py, fb.Inside x y w h px py → fb.Shows (fb.fbDrawRect r x y w h color) px py color) ∧
    ∀ a, (∀ px py, fb.Inside x y w h px py → ∀ i < fb.bpp / 8, a ≠ fb.pixelAddr px py + i) →
      (fb.fbDrawRect r x y w h color).bytes a = r.bytes a

-- The picture moves up by 16 lines for each line of text, what is left gets the colour, and
-- only bytes of the frame buffer are written.
def ScrollsRight (fb : FbMap) (lines color : BitVec 32) : Prop :=
  ∀ r, (∀ px py, px < fb.width → py + 16 * lines.toNat < fb.height → ∀ i < fb.bpp / 8,
      (fb.fbScrollUp r lines color).bytes (fb.pixelAddr px py + i) =
        r.bytes (fb.pixelAddr px (py + 16 * lines.toNat) + i)) ∧
    (∀ px py, px < fb.width → py < fb.height → fb.height ≤ py + 16 * lines.toNat →
      fb.Shows (fb.fbScrollUp r lines color) px py color) ∧
    Ram.WritesIn r (fb.fbScrollUp r lines color) fb.area

section Places

variable {fb : FbMap} {x y px py a : Nat}

theorem pixel_bytes (fb : FbMap) : 3 ≤ fb.bpp / 8 ∧ fb.bpp / 8 ≤ 4 := by
  rcases fb.bpp_or with h | h <;> rw [h] <;> decide

theorem column_bytes (hx : x < fb.width) :
    x * (fb.bpp / 8) + fb.bpp / 8 ≤ fb.width * (fb.bpp / 8) := by
  rw [← Nat.succ_mul]
  exact Nat.mul_le_mul_right _ hx

-- A pixel's bytes end in its line.
theorem pixel_fits (hx : x < fb.width) : x * (fb.bpp / 8) + fb.bpp / 8 ≤ fb.pitch :=
  Nat.le_trans (column_bytes hx) fb.width_le

theorem line_fits (hy : y < fb.height) : y * fb.pitch + fb.pitch ≤ fb.height * fb.pitch := by
  rw [← Nat.succ_mul]
  exact Nat.mul_le_mul_right _ hy

theorem column_toInt (hx : x < fb.width) :
    (BitVec.ofNat 32 (x * (fb.bpp / 8))).toInt =
      if x * (fb.bpp / 8) < 2 ^ 31 then (x * (fb.bpp / 8) : Int)
      else (x * (fb.bpp / 8) : Int) - 2 ^ 32 := by
  have hfits := pixel_fits hx
  have hpitch := fb.pitch_lt
  rw [BitVec.toInt_eq_toNat_cond, BitVec.toNat_ofNat, Nat.mod_eq_of_lt (by omega)]
  by_cases hsmall : x * (fb.bpp / 8) < 2 ^ 31
  · rw [if_pos hsmall, if_pos (by omega)]
    push_cast
    rfl
  · rw [if_neg hsmall, if_neg (by omega)]
    push_cast
    rfl

-- The place of a pixel, where the product of the column does not overflow.
theorem place_eq (hx : x < fb.width) (hy : y < fb.height) (hcolumn : x * (fb.bpp / 8) < 2 ^ 31) :
    fb.place x y = fb.addr + y * fb.pitch % 2 ^ 32 + x * (fb.bpp / 8) := by
  have hfits := pixel_fits hx
  have hline := line_fits hy
  have haddr := fb.addr_lt
  have hmod : y * fb.pitch % 2 ^ 32 ≤ y * fb.pitch := Nat.mod_le _ _
  have hsum : ((fb.addr + y * fb.pitch % 2 ^ 32 : Nat) : Int) + (x * (fb.bpp / 8) : Int) =
      (fb.addr + y * fb.pitch % 2 ^ 32 + x * (fb.bpp / 8) : Nat) := by
    push_cast
    rfl
  rw [place, column_toInt hx, if_pos hcolumn, hsum, Int.emod_eq_of_lt (Int.natCast_nonneg _)]
  · rfl
  · exact_mod_cast (show fb.addr + y * fb.pitch % 2 ^ 32 + x * (fb.bpp / 8) < 2 ^ 64 by omega)

theorem place_exact (hx : x < fb.width) (hy : y < fb.height)
    (hcolumn : x * (fb.bpp / 8) < 2 ^ 31) (hline : y * fb.pitch < 2 ^ 32) :
    fb.place x y = fb.pixelAddr x y := by
  rw [place_eq hx hy hcolumn, Nat.mod_eq_of_lt hline]
  rfl

-- Otherwise it is in front of the line, or so far in front of the frame buffer that it is
-- at the other end of the address space.
theorem place_negative (hx : x < fb.width) (hy : y < fb.height) (hcolumn : 2 ^ 31 ≤ x * (fb.bpp / 8)) :
    fb.place x y + 2 ^ 32 = fb.addr + y * fb.pitch % 2 ^ 32 + x * (fb.bpp / 8) ∨
      fb.place x y + 2 ^ 32 = fb.addr + y * fb.pitch % 2 ^ 32 + x * (fb.bpp / 8) + 2 ^ 64 ∧
        fb.addr + y * fb.pitch % 2 ^ 32 + x * (fb.bpp / 8) < 2 ^ 32 := by
  have hfits := pixel_fits hx
  have hpitch := fb.pitch_lt
  have hbase : fb.addr + y * fb.pitch % 2 ^ 32 < 2 ^ 64 := by
    have hline := line_fits hy
    have haddr := fb.addr_lt
    have hmod : y * fb.pitch % 2 ^ 32 ≤ y * fb.pitch := Nat.mod_le _ _
    omega
  have hcast : (x * (fb.bpp / 8) : Int) = (x * (fb.bpp / 8) : Nat) := by
    push_cast
    rfl
  rw [place, column_toInt hx, if_neg (Nat.not_lt.mpr hcolumn), hcast]
  generalize fb.addr + y * fb.pitch % 2 ^ 32 = base at hbase ⊢
  generalize x * (fb.bpp / 8) = column at hfits hcolumn ⊢
  omega

-- The four bytes that a pixel's store writes.
def Covers (fb : FbMap) (x y a : Nat) : Prop := fb.place x y ≤ a ∧ a < fb.place x y + 4

-- The last byte of a pixel is not written for a pixel above or left of it, nor for the pixel
-- itself if its place has overflowed.
theorem covers_last (hpx : px < fb.width) (hpy : py < fb.height) (hx : x ≤ px) (hy : y ≤ py)
    (h : fb.Covers x y (fb.pixelAddr px py + (fb.bpp / 8 - 1))) :
    px * (fb.bpp / 8) < 2 ^ 31 ∧ py * fb.pitch < 2 ^ 32 := by
  obtain ⟨hlow, hhigh⟩ := h
  unfold pixelAddr at hlow hhigh
  obtain ⟨hthree, hfour⟩ := fb.pixel_bytes
  have hfits := pixel_fits hpx
  have hline := line_fits hpy
  have hsize := fb.size_lt
  have hmod : y * fb.pitch % 2 ^ 32 ≤ y * fb.pitch := Nat.mod_le _ _
  have hcolumns : x * (fb.bpp / 8) ≤ px * (fb.bpp / 8) := Nat.mul_le_mul_right _ hx
  have hlines : y * fb.pitch ≤ py * fb.pitch := Nat.mul_le_mul_right _ hy
  have hxw : x < fb.width := by omega
  have hyh : y < fb.height := by omega
  by_cases hcolumn : x * (fb.bpp / 8) < 2 ^ 31
  · rw [place_eq hxw hyh hcolumn] at hlow hhigh
    have hsame : x = px := by
      by_contra hne
      have hnext : (x + 1) * (fb.bpp / 8) ≤ px * (fb.bpp / 8) :=
        Nat.mul_le_mul_right _ (by omega)
      rw [Nat.succ_mul] at hnext
      omega
    have hsame' : y = py := by
      by_contra hne
      have hnext : (y + 1) * fb.pitch ≤ py * fb.pitch := Nat.mul_le_mul_right _ (by omega)
      rw [Nat.succ_mul] at hnext
      omega
    rw [hsame] at hcolumn
    rw [hsame'] at hhigh
    exact ⟨hcolumn, by omega⟩
  · have hnegative := place_negative hxw hyh (Nat.le_of_not_lt hcolumn)
    omega

end Places

section Drawing

variable {fb : FbMap} {r : Ram} {x y color : BitVec 32} {a : Nat}

theorem fbPutPixel_keeps (h : x.toNat < fb.width → y.toNat < fb.height →
    ¬ fb.Covers x.toNat y.toNat a) : (fb.fbPutPixel r x y color).bytes a = r.bytes a := by
  unfold fbPutPixel
  split
  · rfl
  · rename_i hin
    exact if_neg (h (by omega) (by omega))

theorem fbPutPixel_byte (hx : x.toNat < fb.width) (hy : y.toNat < fb.height)
    (h : fb.Covers x.toNat y.toNat a) :
    (fb.fbPutPixel r x y color).bytes a = colorByte color (a - fb.place x.toNat y.toNat) := by
  unfold fbPutPixel
  rw [if_neg (by omega)]
  exact if_pos h

theorem drawRow_keeps {w : Nat} (h : ∀ k < w, (x + BitVec.ofNat 32 k).toNat < fb.width →
    y.toNat < fb.height → ¬ fb.Covers (x + BitVec.ofNat 32 k).toNat y.toNat a) :
    (fb.drawRow x y color w r).bytes a = r.bytes a := by
  induction w with
  | zero => rfl
  | succ w ih =>
      rw [drawRow, fbPutPixel_keeps (h w (Nat.lt_succ_self w))]
      exact ih fun k hk => h k (Nat.lt_succ_of_lt hk)

-- The last store to a byte decides.
theorem drawRow_byte {w k₀ : Nat} (hk₀ : k₀ < w)
    (hx : (x + BitVec.ofNat 32 k₀).toNat < fb.width) (hy : y.toNat < fb.height)
    (h : fb.Covers (x + BitVec.ofNat 32 k₀).toNat y.toNat a)
    (hlater : ∀ k < w, k₀ < k → (x + BitVec.ofNat 32 k).toNat < fb.width →
      ¬ fb.Covers (x + BitVec.ofNat 32 k).toNat y.toNat a) :
    (fb.drawRow x y color w r).bytes a =
      colorByte color (a - fb.place (x + BitVec.ofNat 32 k₀).toNat y.toNat) := by
  induction w with
  | zero => omega
  | succ w ih =>
      rw [drawRow]
      rcases Nat.lt_succ_iff_lt_or_eq.mp hk₀ with hlt | rfl
      · rw [fbPutPixel_keeps fun hw _ => hlater w (Nat.lt_succ_self w) hlt hw]
        exact ih hlt fun k hk => hlater k (Nat.lt_succ_of_lt hk)
      · exact fbPutPixel_byte hx hy h

theorem drawRows_keeps {w h : Nat} (hkeeps : ∀ j < h, ∀ k < w,
    (x + BitVec.ofNat 32 k).toNat < fb.width → (y + BitVec.ofNat 32 j).toNat < fb.height →
      ¬ fb.Covers (x + BitVec.ofNat 32 k).toNat (y + BitVec.ofNat 32 j).toNat a) :
    (fb.drawRows x y w color h r).bytes a = r.bytes a := by
  induction h with
  | zero => rfl
  | succ h ih =>
      rw [drawRows, drawRow_keeps (hkeeps h (Nat.lt_succ_self h))]
      exact ih fun j hj => hkeeps j (Nat.lt_succ_of_lt hj)

theorem drawRows_byte (fb : FbMap) (r : Ram) (x y color : BitVec 32) (a : Nat) {w h j₀ k₀ : Nat}
    (hj₀ : j₀ < h) (hk₀ : k₀ < w)
    (hx : (x + BitVec.ofNat 32 k₀).toNat < fb.width)
    (hy : (y + BitVec.ofNat 32 j₀).toNat < fb.height)
    (hcovers : fb.Covers (x + BitVec.ofNat 32 k₀).toNat (y + BitVec.ofNat 32 j₀).toNat a)
    (hrow : ∀ k < w, k₀ < k → (x + BitVec.ofNat 32 k).toNat < fb.width →
      ¬ fb.Covers (x + BitVec.ofNat 32 k).toNat (y + BitVec.ofNat 32 j₀).toNat a)
    (hlater : ∀ j < h, j₀ < j → ∀ k < w, (x + BitVec.ofNat 32 k).toNat < fb.width →
      (y + BitVec.ofNat 32 j).toNat < fb.height →
        ¬ fb.Covers (x + BitVec.ofNat 32 k).toNat (y + BitVec.ofNat 32 j).toNat a) :
    (fb.drawRows x y w color h r).bytes a =
      colorByte color
        (a - fb.place (x + BitVec.ofNat 32 k₀).toNat (y + BitVec.ofNat 32 j₀).toNat) := by
  induction h with
  | zero => omega
  | succ h ih =>
      rw [drawRows]
      rcases Nat.lt_succ_iff_lt_or_eq.mp hj₀ with hlt | rfl
      · rw [drawRow_keeps (hlater h (Nat.lt_succ_self h) hlt)]
        exact ih hlt fun j hj => hlater j (Nat.lt_succ_of_lt hj)
      · exact drawRow_byte hk₀ hx hy hcovers hrow

theorem fbPutPixel_writes {span : Span} (h : x.toNat < fb.width → y.toNat < fb.height →
    (⟨fb.place x.toNat y.toNat, 4⟩ : Span).Inside span) :
    Ram.WritesIn r (fb.fbPutPixel r x y color) span := by
  unfold fbPutPixel
  split
  · exact .refl r _
  · rename_i hin
    exact (Ram.write32_writes _ _ _).mono (h (by omega) (by omega))

-- Only the stores of the pixels add to what has been written.
theorem drawRow_writes {w : Nat} {span : Span} (h : ∀ k < w,
    (x + BitVec.ofNat 32 k).toNat < fb.width → y.toNat < fb.height →
      (⟨fb.place (x + BitVec.ofNat 32 k).toNat y.toNat, 4⟩ : Span).Inside span) :
    Ram.WritesIn r (fb.drawRow x y color w r) span := by
  induction w with
  | zero => exact .refl r _
  | succ w ih =>
      exact (ih fun k hk => h k (Nat.lt_succ_of_lt hk)).trans
        (fbPutPixel_writes (h w (Nat.lt_succ_self w)))

theorem drawRows_writes {w h : Nat} {span : Span} (hin : ∀ j < h, ∀ k < w,
    (x + BitVec.ofNat 32 k).toNat < fb.width → (y + BitVec.ofNat 32 j).toNat < fb.height →
      (⟨fb.place (x + BitVec.ofNat 32 k).toNat (y + BitVec.ofNat 32 j).toNat, 4⟩ :
        Span).Inside span) :
    Ram.WritesIn r (fb.drawRows x y w color h r) span := by
  induction h with
  | zero => exact .refl r _
  | succ h ih =>
      exact (ih fun j hj => hin j (Nat.lt_succ_of_lt hj)).trans
        (drawRow_writes (hin h (Nat.lt_succ_self h)))

end Drawing

section Rectangle

variable {fb : FbMap} {x y w h color : BitVec 32} {px py a : Nat}

-- The k-th number from `v` on, as long as it is not negative.
theorem position_eq {v : BitVec 32} {k : Nat} (hk : k < 2 ^ 31)
    (hpos : (v + BitVec.ofNat 32 k).toNat < 2 ^ 31) :
    ((v + BitVec.ofNat 32 k).toNat : Int) = v.toInt + k := by
  have hv := v.isLt
  rw [BitVec.toNat_add, BitVec.toNat_ofNat] at hpos ⊢
  rw [BitVec.toInt_eq_toNat_cond]
  split <;> omega

theorem position_exists {v : BitVec 32} {p : Nat} (hp : p < 2 ^ 31) (hle : v.toInt ≤ p) :
    (v + BitVec.ofNat 32 (p - v.toInt).toNat).toNat = p := by
  have hv := v.isLt
  rw [BitVec.toNat_add, BitVec.toNat_ofNat]
  rw [BitVec.toInt_eq_toNat_cond] at hle ⊢
  split <;> split at hle <;> omega

theorem toInt_small (v : BitVec 32) : v.toInt.toNat < 2 ^ 31 := by
  have hlt := BitVec.toInt_lt (x := v)
  omega

theorem width_lt (fb : FbMap) : fb.width < 2 ^ 31 := by
  have hbytes := fb.pixel_bytes.1
  have hpitch := fb.pitch_lt
  have hwidth := fb.width_le
  have hthree : fb.width * 3 ≤ fb.width * (fb.bpp / 8) := Nat.mul_le_mul_left _ hbytes
  omega

-- What the loops come to belongs to the rectangle.
theorem loop_inside (hheight : fb.height ≤ 2 ^ 31) {j k : Nat} (hj : j < h.toInt.toNat)
    (hk : k < w.toInt.toNat) (hx : (x + BitVec.ofNat 32 k).toNat < fb.width)
    (hy : (y + BitVec.ofNat 32 j).toNat < fb.height) :
    fb.Inside x y w h (x + BitVec.ofNat 32 k).toNat (y + BitVec.ofNat 32 j).toNat := by
  have hwidth := fb.width_lt
  have hcolumn := position_eq (v := x) (Nat.lt_trans hk (toInt_small w)) (by omega)
  have hline := position_eq (v := y) (Nat.lt_trans hj (toInt_small h)) (by omega)
  refine ⟨hx, hy, ?_, ?_, ?_, ?_⟩ <;> omega

-- A later pixel is behind an earlier one.
theorem pixelAddr_le {px' py' : Nat} (hpx : px < fb.width)
    (hlater : py < py' ∨ py = py' ∧ px < px') :
    fb.pixelAddr px py + fb.bpp / 8 ≤ fb.pixelAddr px' py' := by
  unfold pixelAddr
  have hfits := pixel_fits hpx
  rcases hlater with hlt | ⟨rfl, hlt⟩
  · have hnext : (py + 1) * fb.pitch ≤ py' * fb.pitch := Nat.mul_le_mul_right _ hlt
    rw [Nat.succ_mul] at hnext
    omega
  · have hnext : (px + 1) * (fb.bpp / 8) ≤ px' * (fb.bpp / 8) := Nat.mul_le_mul_right _ hlt
    rw [Nat.succ_mul] at hnext
    omega

-- A rectangle that is not off the screen has a last pixel on it.
theorem exists_last (hin : fb.Inside x y w h px py) :
    ∃ px₁ py₁, fb.Inside x y w h px₁ py₁ ∧
      ∀ px py, fb.Inside x y w h px py → px ≤ px₁ ∧ py ≤ py₁ := by
  obtain ⟨hcolumn, hline, hleft, hright, htop, hbottom⟩ := hin
  refine ⟨min (fb.width - 1) (x.toInt + w.toInt - 1).toNat,
    min (fb.height - 1) (y.toInt + h.toInt - 1).toNat, ⟨?_, ?_, ?_, ?_, ?_, ?_⟩, ?_⟩
  any_goals omega
  rintro px' py' ⟨hcolumn', hline', hleft', hright', htop', hbottom'⟩
  omega

-- Each pixel of the rectangle is stored at its own place, in its own bytes.
def Exact (fb : FbMap) (x y w h : BitVec 32) : Prop :=
  ∀ px py, fb.Inside x y w h px py →
    fb.bpp = 32 ∧ px * (fb.bpp / 8) < 2 ^ 31 ∧ py * fb.pitch < 2 ^ 32

-- What the rectangle stores last at the place of its pixel (px, py).
theorem fbDrawRect_byte (hheight : fb.height ≤ 2 ^ 31) (hin : fb.Inside x y w h px py)
    (hcovers : fb.Covers px py a)
    (hlater : ∀ px' py', fb.Inside x y w h px' py' → py < py' ∨ py = py' ∧ px < px' →
      ¬ fb.Covers px' py' a) (r : Ram) :
    (fb.fbDrawRect r x y w h color).bytes a = colorByte color (a - fb.place px py) := by
  obtain ⟨hcolumn, hline, hleft, hright, htop, hbottom⟩ := hin
  have hwidth := fb.width_lt
  have hk : (px - x.toInt).toNat < w.toInt.toNat := by omega
  have hj : (py - y.toInt).toNat < h.toInt.toNat := by omega
  have hpx := position_exists (v := x) (Nat.lt_trans hcolumn hwidth) hleft
  have hpy := position_exists (v := y) (Nat.lt_of_lt_of_le hline hheight) htop
  have hbyte := drawRows_byte fb r x y color a hj hk (by rwa [hpx]) (by rwa [hpy]) (by rwa [hpx, hpy])
  rw [hpx, hpy] at hbyte
  apply hbyte
  · intro k hkw hlt hx
    have hinside := loop_inside (x := x) (y := y) hheight hj hkw hx (by rwa [hpy])
    rw [hpy] at hinside
    apply hlater _ _ hinside
    right
    have hposition := position_eq (v := x) (Nat.lt_trans hkw (toInt_small w)) (by omega)
    exact ⟨rfl, by omega⟩
  · intro j hjh hlt k hkw hx hy
    apply hlater _ _ (loop_inside hheight hjh hkw hx hy)
    left
    have hposition := position_eq (v := y) (Nat.lt_trans hjh (toInt_small h)) (by omega)
    omega

theorem fbDrawRect_keeps (hheight : fb.height ≤ 2 ^ 31)
    (hkeeps : ∀ px py, fb.Inside x y w h px py → ¬ fb.Covers px py a) (r : Ram) :
    (fb.fbDrawRect r x y w h color).bytes a = r.bytes a :=
  drawRows_keeps fun _ hj _ hk hx hy => hkeeps _ _ (loop_inside hheight hj hk hx hy)

end Rectangle

section Draws

variable {fb : FbMap} {x y w h color : BitVec 32} {px py : Nat}

-- A memory of one value, and not the one that is drawn.
def constant (v : BitVec 8) : Ram := ⟨fun _ => v, []⟩

theorem byte_ne (v : BitVec 8) : v + 1 ≠ v := by
  intro h
  have hv := v.isLt
  have hnat : (v.toNat + 1) % 2 ^ 8 = v.toNat := congrArg BitVec.toNat h
  omega

theorem Exact.place (hexact : fb.Exact x y w h) (hin : fb.Inside x y w h px py) :
    fb.place px py = fb.pixelAddr px py := by
  obtain ⟨-, hcolumn, hline⟩ := hexact px py hin
  exact place_exact hin.column hin.line hcolumn hline

theorem drawsRight_of_exact (hheight : fb.height ≤ 2 ^ 31) (hexact : fb.Exact x y w h) :
    fb.DrawsRight x y w h color := by
  intro r
  constructor
  · intro px py hin i hi
    have hplace := hexact.place hin
    have hfour := fb.pixel_bytes.2
    have hcovers : fb.Covers px py (fb.pixelAddr px py + i) := by
      rw [Covers, hplace]
      omega
    rw [fbDrawRect_byte hheight hin hcovers, hplace, Nat.add_sub_cancel_left]
    rintro px' py' hin' hlater ⟨hlow, -⟩
    have hbehind := pixelAddr_le hin.column hlater
    rw [hexact.place hin'] at hlow
    omega
  · intro a hout
    apply fbDrawRect_keeps hheight
    rintro px py hin ⟨hlow, hhigh⟩
    have hbytes : fb.bpp / 8 = 4 := by
      rw [(hexact px py hin).1]
    rw [hexact.place hin] at hlow hhigh
    exact hout px py hin (a - fb.pixelAddr px py) (by omega) (by omega)

-- The last byte of the last pixel tells whether places overflow, and the byte behind it
-- whether a pixel has fewer bytes than are stored.
theorem exact_of_drawsRight (hheight : fb.height ≤ 2 ^ 31)
    (hright : fb.DrawsRight x y w h color) : fb.Exact x y w h := by
  intro px py hin
  obtain ⟨px₁, py₁, hin₁, hlast⟩ := exists_last hin
  obtain ⟨hthree, hfour⟩ := fb.pixel_bytes
  have hwritten : ∃ px' py', fb.Inside x y w h px' py' ∧
      fb.Covers px' py' (fb.pixelAddr px₁ py₁ + (fb.bpp / 8 - 1)) := by
    by_contra hnone
    have hshown := (hright (constant (colorByte color (fb.bpp / 8 - 1) + 1))).1 px₁ py₁ hin₁
      (fb.bpp / 8 - 1) (by omega)
    rw [fbDrawRect_keeps hheight fun px' py' hin' hcovers => hnone ⟨px', py', hin', hcovers⟩]
      at hshown
    exact byte_ne _ hshown
  obtain ⟨px', py', hin', hcovers⟩ := hwritten
  obtain ⟨hcolumn, hline⟩ :=
    covers_last hin₁.column hin₁.line (hlast px' py' hin').1 (hlast px' py' hin').2 hcovers
  have hplace := place_exact hin₁.column hin₁.line hcolumn hline
  refine ⟨?_, ?_, ?_⟩
  · rcases fb.bpp_or with hbpp | hbpp
    · have hbytes : fb.bpp / 8 = 3 := by
        rw [hbpp]
      have hcovers₁ : fb.Covers px₁ py₁ (fb.pixelAddr px₁ py₁ + 3) := by
        rw [Covers, hplace]
        omega
      have hkept := (hright (constant (colorByte color 3 + 1))).2 (fb.pixelAddr px₁ py₁ + 3)
        fun px' py' hin' i hi heq => by
          obtain ⟨hleft, habove⟩ := hlast px' py' hin'
          by_cases hsame : px' = px₁ ∧ py' = py₁
          · rw [hsame.1, hsame.2] at heq
            omega
          · have hearlier : py' < py₁ ∨ py' = py₁ ∧ px' < px₁ := by omega
            have hbefore := pixelAddr_le hin'.column hearlier
            omega
      rw [fbDrawRect_byte hheight hin₁ hcovers₁, hplace, Nat.add_sub_cancel_left] at hkept
      · exact absurd hkept.symm (byte_ne _)
      · intro px' py' hin' hlater
        have hbound := hlast px' py' hin'
        omega
    · exact hbpp
  · exact Nat.lt_of_le_of_lt (Nat.mul_le_mul_right _ (hlast px py hin).1) hcolumn
  · exact Nat.lt_of_le_of_lt (Nat.mul_le_mul_right _ (hlast px py hin).2) hline

end Draws

section Filling

variable {fb : FbMap} {color : BitVec 32} {y px py a : Nat}

-- The lines from `y` on.
def fill (fb : FbMap) (r : Ram) (y : Nat) (color : BitVec 32) : Ram :=
  fb.fbDrawRect r 0 (BitVec.ofNat 32 y) (BitVec.ofNat 32 fb.width)
    (BitVec.ofNat 32 (fb.height - y)) color

theorem toInt_toNat_le (n : Nat) : (BitVec.ofNat 32 n).toInt.toNat ≤ n := by
  rw [BitVec.toInt_eq_toNat_cond, BitVec.toNat_ofNat]
  have hmod : n % 2 ^ 32 ≤ n := Nat.mod_le _ _
  split <;> omega

theorem column_at {k : Nat} (hk : k < (BitVec.ofNat 32 fb.width).toInt.toNat) :
    k < fb.width ∧ ((0 : BitVec 32) + BitVec.ofNat 32 k).toNat = k := by
  have hle := toInt_toNat_le fb.width
  have hwidth := fb.width_lt
  rw [zero_add, BitVec.toNat_ofNat, Nat.mod_eq_of_lt (by omega)]
  omega

theorem line_at {j : Nat} (hj : j < (BitVec.ofNat 32 (fb.height - y)).toInt.toNat) :
    y + j < fb.height ∧ (BitVec.ofNat 32 y + BitVec.ofNat 32 j).toNat = y + j := by
  have hle := toInt_toNat_le (fb.height - y)
  have hheight := fb.height_lt
  rw [← BitVec.ofNat_add, BitVec.toNat_ofNat, Nat.mod_eq_of_lt (by omega)]
  omega

theorem fill_keeps (hkeeps : ∀ px py, px < fb.width → y ≤ py → py < fb.height →
    ¬ fb.Covers px py a) (r : Ram) : (fb.fill r y color).bytes a = r.bytes a := by
  apply drawRows_keeps
  intro j hj k hk _ _
  obtain ⟨hcolumn, hx⟩ := column_at hk
  obtain ⟨hline, hy⟩ := line_at hj
  rw [hx, hy]
  exact hkeeps k (y + j) hcolumn (Nat.le_add_right _ _) hline

theorem fill_byte (hheight : fb.height < 2 ^ 31) (hpx : px < fb.width) (hy : y ≤ py)
    (hpy : py < fb.height) (hcovers : fb.Covers px py a)
    (hlater : ∀ px' py', px' < fb.width → py' < fb.height → py < py' ∨ py = py' ∧ px < px' →
      ¬ fb.Covers px' py' a) (r : Ram) :
    (fb.fill r y color).bytes a = colorByte color (a - fb.place px py) := by
  have hk : px < (BitVec.ofNat 32 fb.width).toInt.toNat := by
    rwa [toInt_ofNat_small fb.width_lt]
  have hj : py - y < (BitVec.ofNat 32 (fb.height - y)).toInt.toNat := by
    rw [toInt_ofNat_small (by omega)]
    omega
  obtain ⟨-, hx⟩ := column_at hk
  obtain ⟨-, hyj⟩ := line_at hj
  rw [Nat.add_sub_cancel' hy] at hyj
  have hbyte := drawRows_byte fb r _ _ color a hj hk (by rwa [hx])
    (by rwa [hyj]) (by rwa [hx, hyj])
  rw [hx, hyj] at hbyte
  apply hbyte
  · intro k hkw hlt _
    obtain ⟨hcolumn, hxk⟩ := column_at hkw
    rw [hxk]
    exact hlater k py hcolumn hpy (Or.inr ⟨rfl, hlt⟩)
  · intro j hjh hlt k hkw _ _
    obtain ⟨hcolumn, hxk⟩ := column_at hkw
    obtain ⟨hline, hyj'⟩ := line_at hjh
    rw [hxk, hyj']
    exact hlater k (y + j) hcolumn hline (Or.inl (by omega))

theorem fill_writes {span : Span} (h : ∀ px py, px < fb.width → y ≤ py → py < fb.height →
    (⟨fb.place px py, 4⟩ : Span).Inside span) (r : Ram) :
    Ram.WritesIn r (fb.fill r y color) span := by
  apply drawRows_writes
  intro j hj k hk _ _
  obtain ⟨hcolumn, hx⟩ := column_at hk
  obtain ⟨hline, hy⟩ := line_at hj
  rw [hx, hy]
  exact h k (y + j) hcolumn (Nat.le_add_right _ _) hline

-- The frame buffer as it is before the lines are filled.
def shifted (fb : FbMap) (r : Ram) (scrollPixels : Nat) : Ram :=
  if scrollPixels ≥ fb.height then r
  else
    r.memmove fb.addr (fb.addr + scrollPixels * fb.pitch)
      ((fb.height - scrollPixels) * fb.pitch)

theorem scroll_eq {lines : BitVec 32} (hlines : lines ≠ 0) (r : Ram) :
    fb.fbScrollUp r lines color =
      fb.fill (fb.shifted r (16 * lines.toNat % 2 ^ 32))
        (fb.height - 16 * lines.toNat % 2 ^ 32) color := by
  have hscroll : (lines * 16).toNat = 16 * lines.toNat % 2 ^ 32 := by
    rw [BitVec.toNat_mul, Nat.mul_comm]
    rfl
  unfold fbScrollUp shifted
  rw [if_neg hlines, hscroll]
  dsimp only
  generalize 16 * lines.toNat % 2 ^ 32 = scrollPixels
  by_cases hall : scrollPixels ≥ fb.height
  · rw [if_pos hall, if_pos hall, Nat.sub_eq_zero_of_le hall]
    rfl
  · rw [if_neg hall, if_neg hall, fill, Nat.sub_sub_self (by omega)]

theorem shifted_constant (v : BitVec 8) (s a : Nat) :
    (fb.shifted (constant v) s).bytes a = v := by
  unfold shifted
  split
  · rfl
  · rw [Ram.memmove_bytes _ fb.addr_ne (by have hne := fb.addr_ne; omega), moved]
    split <;> rfl

theorem shifted_pixel {s i : Nat} (hpx : px < fb.width) (hpy : py + s < fb.height)
    (hi : i < fb.bpp / 8) (r : Ram) :
    (fb.shifted r s).bytes (fb.pixelAddr px py + i) = r.bytes (fb.pixelAddr px (py + s) + i) := by
  have hne := fb.addr_ne
  have hfits := pixel_fits hpx
  have hline : py * fb.pitch + fb.pitch ≤ (fb.height - s) * fb.pitch := by
    rw [← Nat.succ_mul]
    exact Nat.mul_le_mul_right _ (by omega)
  have hsum : (py + s) * fb.pitch = py * fb.pitch + s * fb.pitch := Nat.add_mul _ _ _
  unfold shifted pixelAddr
  rw [if_neg (by omega), Ram.memmove_bytes _ hne (by omega),
    moved_in _ (by omega) (by omega), hsum]
  apply congrArg r.bytes
  omega

theorem shifted_writes (s : Nat) (r : Ram) : Ram.WritesIn r (fb.shifted r s) fb.area := by
  unfold shifted
  split
  · exact .refl r _
  · apply (Ram.memmove_writes _ _ _ _).mono
    refine ⟨Nat.le_refl _, Nat.add_le_add_left ?_ _⟩
    exact Nat.mul_le_mul_right _ (Nat.sub_le _ _)

end Filling

section Scrolls

variable {fb : FbMap} {lines color : BitVec 32} {px py : Nat}

-- No place overflows, the four bytes stored for the last pixel of a line end in it, and the
-- number of lines does not overflow, or scrolls everything out all the same.
structure ScrollFits (fb : FbMap) (lines : BitVec 32) : Prop where
  column : (fb.width - 1) * (fb.bpp / 8) < 2 ^ 31
  line : (fb.height - 1) * fb.pitch < 2 ^ 32
  gap : (fb.width - 1) * (fb.bpp / 8) + 4 ≤ fb.pitch
  scroll : 16 * lines.toNat < 2 ^ 32 ∨ fb.height ≤ 16 * lines.toNat % 2 ^ 32

-- Where no place overflows, every pixel is stored at its own.
theorem place_screen (hcolumn : (fb.width - 1) * (fb.bpp / 8) < 2 ^ 31)
    (hline : (fb.height - 1) * fb.pitch < 2 ^ 32) (hpx : px < fb.width) (hpy : py < fb.height) :
    fb.place px py = fb.pixelAddr px py := by
  apply place_exact hpx hpy
  · exact Nat.lt_of_le_of_lt (Nat.mul_le_mul_right _ (Nat.le_sub_one_of_lt hpx)) hcolumn
  · exact Nat.lt_of_le_of_lt (Nat.mul_le_mul_right _ (Nat.le_sub_one_of_lt hpy)) hline

theorem height_small (hwidth : 0 < fb.width) (hline : (fb.height - 1) * fb.pitch < 2 ^ 32) :
    fb.height < 2 ^ 31 := by
  have hfits : 0 * (fb.bpp / 8) + fb.bpp / 8 ≤ fb.pitch := pixel_fits hwidth
  have hbytes := fb.pixel_bytes.1
  have hthree : (fb.height - 1) * 3 ≤ (fb.height - 1) * fb.pitch :=
    Nat.mul_le_mul_left _ (by omega)
  omega

theorem fill_shows {y : Nat} (hcolumn : (fb.width - 1) * (fb.bpp / 8) < 2 ^ 31)
    (hline : (fb.height - 1) * fb.pitch < 2 ^ 32) (hpx : px < fb.width) (hy : y ≤ py)
    (hpy : py < fb.height) (r : Ram) : fb.Shows (fb.fill r y color) px py color := by
  intro i hi
  have hplace := place_screen hcolumn hline hpx hpy
  have hfour := fb.pixel_bytes.2
  have hcovers : fb.Covers px py (fb.pixelAddr px py + i) := by
    rw [Covers, hplace]
    omega
  rw [fill_byte (height_small (by omega) hline) hpx hy hpy hcovers, hplace,
    Nat.add_sub_cancel_left]
  rintro px' py' hpx' hpy' hlater ⟨hlow, -⟩
  have hbehind := pixelAddr_le hpx hlater
  rw [place_screen hcolumn hline hpx' hpy'] at hlow
  omega

-- Filling does not reach up.
theorem fill_above {y i : Nat} (hcolumn : (fb.width - 1) * (fb.bpp / 8) < 2 ^ 31)
    (hline : (fb.height - 1) * fb.pitch < 2 ^ 32) (hpx : px < fb.width) (hpy : py < y)
    (hi : i < fb.bpp / 8) (r : Ram) :
    (fb.fill r y color).bytes (fb.pixelAddr px py + i) = r.bytes (fb.pixelAddr px py + i) := by
  apply fill_keeps
  rintro px' py' hpx' hpy' hbottom ⟨hlow, -⟩
  have hlater : py < py' ∨ py = py' ∧ px < px' := Or.inl (Nat.lt_of_lt_of_le hpy hpy')
  have hbehind := pixelAddr_le hpx hlater
  rw [place_screen hcolumn hline hpx' hbottom] at hlow
  omega

theorem scrollsRight_of_fits (hfits : fb.ScrollFits lines) (hlines : lines ≠ 0) :
    fb.ScrollsRight lines color := by
  obtain ⟨hcolumn, hline, hgap, hscroll⟩ := hfits
  intro r
  rw [scroll_eq hlines]
  refine ⟨fun px py hpx hpy i hi => ?_, fun px py hpx hpy hend => ?_, ?_⟩
  · have hmod : 16 * lines.toNat % 2 ^ 32 ≤ 16 * lines.toNat := Nat.mod_le _ _
    have hexact : 16 * lines.toNat % 2 ^ 32 = 16 * lines.toNat := by
      rcases hscroll with hscroll | hscroll
      · exact Nat.mod_eq_of_lt hscroll
      · omega
    rw [hexact, fill_above hcolumn hline hpx (by omega) hi, shifted_pixel hpx hpy hi]
  · apply fill_shows hcolumn hline hpx _ hpy
    rcases hscroll with hscroll | hscroll
    · rw [Nat.mod_eq_of_lt hscroll]
      omega
    · rw [Nat.sub_eq_zero_of_le hscroll]
      exact Nat.zero_le _
  · apply (shifted_writes _ r).trans
    apply fill_writes
    intro px py hpx _ hpy
    have hends := line_fits hpy
    have hlast : px * (fb.bpp / 8) ≤ (fb.width - 1) * (fb.bpp / 8) :=
      Nat.mul_le_mul_right _ (Nat.le_sub_one_of_lt hpx)
    rw [place_screen hcolumn hline hpx hpy]
    constructor
    · show fb.addr ≤ fb.addr + py * fb.pitch + px * (fb.bpp / 8)
      omega
    · show fb.addr + py * fb.pitch + px * (fb.bpp / 8) + 4 ≤ fb.addr + fb.height * fb.pitch
      omega

-- Where there are no pixels, nothing is filled.
theorem scrollsRight_of_empty (hempty : fb.width = 0 ∨ fb.height = 0) (hlines : lines ≠ 0) :
    fb.ScrollsRight lines color := by
  intro r
  rw [scroll_eq hlines]
  refine ⟨fun px py hpx hpy => by omega, fun px py hpx hpy => by omega, ?_⟩
  apply (shifted_writes _ r).trans
  apply fill_writes
  intro px py hpx _ hpy
  omega

theorem fits_of_scrollsRight (hwidth : 0 < fb.width) (hheight : 0 < fb.height)
    (hlines : lines ≠ 0) (hright : fb.ScrollsRight lines color) : fb.ScrollFits lines := by
  have hsome : 0 < lines.toNat := by
    apply Nat.pos_of_ne_zero
    exact fun hzero => hlines (BitVec.eq_of_toNat_eq hzero)
  have hpx : fb.width - 1 < fb.width := by omega
  have hpy : fb.height - 1 < fb.height := by omega
  obtain ⟨hthree, hfour⟩ := fb.pixel_bytes
  -- the last byte of the last pixel is stored, so that no place overflows
  have hwritten : ∃ px py, px < fb.width ∧ fb.height - 16 * lines.toNat % 2 ^ 32 ≤ py ∧
      py < fb.height ∧
        fb.Covers px py (fb.pixelAddr (fb.width - 1) (fb.height - 1) + (fb.bpp / 8 - 1)) := by
    by_contra hnone
    have hshown := (hright (constant (colorByte color (fb.bpp / 8 - 1) + 1))).2.1 (fb.width - 1)
      (fb.height - 1) hpx hpy (by omega) (fb.bpp / 8 - 1) (by omega)
    rw [scroll_eq hlines, fill_keeps fun px py hx htop hy hcovers =>
      hnone ⟨px, py, hx, htop, hy, hcovers⟩, shifted_constant] at hshown
    exact byte_ne _ hshown
  obtain ⟨px, py, hx, htop, hy, hcovers⟩ := hwritten
  obtain ⟨hcolumn, hline⟩ := covers_last hpx hpy (by omega) (by omega) hcovers
  have hplace := place_screen hcolumn hline hpx hpy
  refine ⟨hcolumn, hline, ?_, ?_⟩
  · -- nothing is stored behind the end
    by_contra hgap
    have hlast := line_fits hpy
    have hcovers' : fb.Covers (fb.width - 1) (fb.height - 1)
        (fb.pixelAddr (fb.width - 1) (fb.height - 1) + 3) := by
      rw [Covers, hplace]
      omega
    have hone : (fb.height - 1) * fb.pitch + fb.pitch = fb.height * fb.pitch := by
      rw [← Nat.succ_mul]
      congr 1
      omega
    have hkept := (hright (constant (colorByte color 3 + 1))).2.2.kept
      (fb.pixelAddr (fb.width - 1) (fb.height - 1) + 3) fun hmem => by
        have hlimit : fb.pixelAddr (fb.width - 1) (fb.height - 1) + 3 <
          fb.addr + fb.height * fb.pitch := hmem.2
        unfold pixelAddr at hlimit
        omega
    rw [scroll_eq hlines, fill_byte (height_small hwidth hline) hpx _ hpy hcovers', hplace,
      Nat.add_sub_cancel_left] at hkept
    · exact byte_ne _ hkept.symm
    · intro px' py' hpx' hpy' hlater
      omega
    · omega
  · -- the first pixel is filled if everything is scrolled out
    by_contra hscroll
    have hheight' := fb.height_lt
    have hshown := (hright (constant (colorByte color 0 + 1))).2.1 0 0 hwidth hheight (by omega) 0
      (by omega)
    rw [scroll_eq hlines, fill_above hcolumn hline hwidth (by omega) (by omega),
      shifted_constant] at hshown
    exact byte_ne _ hshown

theorem scrollsRight_zero : fb.ScrollsRight 0 color := by
  intro r
  refine ⟨fun px py hpx hpy i hi => rfl, fun px py hpx hpy hend => ?_, .refl r _⟩
  exact absurd hpy (Nat.not_lt.mpr hend)

theorem scrollsRight_iff :
    fb.ScrollsRight lines color ↔
      lines = 0 ∨ fb.width = 0 ∨ fb.height = 0 ∨ fb.ScrollFits lines := by
  by_cases hlines : lines = 0
  · subst hlines
    exact iff_of_true scrollsRight_zero (Or.inl rfl)
  constructor
  · intro hright
    by_cases hwidth : fb.width = 0
    · exact Or.inr (Or.inl hwidth)
    by_cases hheight : fb.height = 0
    · exact Or.inr (Or.inr (Or.inl hheight))
    · exact Or.inr (Or.inr (Or.inr
        (fits_of_scrollsRight (Nat.pos_of_ne_zero hwidth) (Nat.pos_of_ne_zero hheight) hlines
          hright)))
  · rintro (h | h | h | hfits)
    · exact absurd h hlines
    · exact scrollsRight_of_empty (Or.inl h) hlines
    · exact scrollsRight_of_empty (Or.inr h) hlines
    · exact scrollsRight_of_fits hfits hlines

end Scrolls

-- For every frame buffer, rectangle, colour and number of lines. A screen of more than 2^31
-- lines is left out where rectangles are concerned: there negative lines are on the screen.
theorem frame_effect_iff (fb : FbMap) (x y w h lines color : BitVec 32) :
    (fb.height ≤ 2 ^ 31 → (fb.DrawsRight x y w h color ↔ fb.Exact x y w h)) ∧
      (fb.ScrollsRight lines color ↔
        lines = 0 ∨ fb.width = 0 ∨ fb.height = 0 ∨ fb.ScrollFits lines) := by
  constructor
  · intro hheight
    exact ⟨exact_of_drawsRight hheight, drawsRight_of_exact hheight⟩
  · exact scrollsRight_iff

-- The same pixels as those of a frame buffer of the drivers, whose lines are below 2 GiB.
theorem fbPutPixel_eq (fb : FbMap) (info : FbInfo) (haddr : info.addr = fb.addr)
    (hwidth : info.width = fb.width) (hheight : info.height = fb.height)
    (hpitch : info.pitch = fb.pitch) (hbpp : info.bpp = fb.bpp) (hline : fb.pitch < 2 ^ 31)
    (r : Ram) (x y color : BitVec 32) :
    fb.fbPutPixel r x y color = Io.fbPutPixel info r x y color := by
  unfold fbPutPixel Io.fbPutPixel
  rw [haddr, hwidth, hheight, hpitch, hbpp]
  by_cases hout : x.toNat ≥ fb.width ∨ y.toNat ≥ fb.height
  · rw [if_pos hout, if_pos hout]
  · have hx : x.toNat < fb.width := by omega
    have hfits := pixel_fits hx
    rw [if_neg hout, if_neg hout, place_eq hx (by omega) (by omega)]

-- A screen of 640 by 480 pixels with 32 bits.
def vgaScreen : FbMap where
  addr := 0x1000
  width := 640
  height := 480
  pitch := 2560
  bpp := 32
  addr_ne := by decide
  bpp_or := Or.inr rfl
  height_lt := by decide
  pitch_lt := by decide
  width_le := by decide
  size_lt := by decide
  addr_lt := by decide

-- A rectangle that begins left of it and above it, and one line of text.
theorem frame_effect_iff_vga :
    vgaScreen.DrawsRight (-5) (-5) 10 10 0xFF ∧ vgaScreen.ScrollsRight 1 0xFF := by
  obtain ⟨hdraws, hscrolls⟩ := frame_effect_iff vgaScreen (-5) (-5) 10 10 1 0xFF
  constructor
  · apply (hdraws (by decide)).mpr
    rintro px py ⟨hcolumn, hline, -, -, -, -⟩
    have hpx : px < 640 := hcolumn
    have hpy : py < 480 := hline
    refine ⟨rfl, ?_, ?_⟩
    · show px * 4 < 2 ^ 31
      omega
    · show py * 2560 < 2 ^ 32
      omega
  · apply hscrolls.mpr
    exact Or.inr (Or.inr (Or.inr ⟨by decide, by decide, by decide, by decide⟩))

-- Two pixels of three bytes, the first of which is to be drawn.
def twoPixels : FbMap where
  addr := 0x1000
  width := 2
  height := 1
  pitch := 6
  bpp := 24
  addr_ne := by decide
  bpp_or := Or.inl rfl
  height_lt := by decide
  pitch_lt := by decide
  width_le := by decide
  size_lt := by decide
  addr_lt := by decide

theorem second_pixel_changes : ¬ twoPixels.DrawsRight 0 0 1 1 0xFF := by
  intro hright
  have hexact := exact_of_drawsRight (by decide) hright
  have hbpp := (hexact 0 0 ⟨by decide, by decide, by decide, by decide, by decide, by decide⟩).1
  exact absurd hbpp (by decide)

end FbMap

end AosKernel.Io
