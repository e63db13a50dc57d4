import AosKernel.Core.Ram
import AosKernel.Io.Formatters
import AosKernel.Lib.Steps

namespace AosKernel.Io

open Verif AosKernel.Core

-- The frame buffer that vmem_init takes over in VGA mode. The sizes are in pixels,
-- and the cells lie in the address space, not at NULL.
structure TextScreen where
  base : Nat
  width : Nat
  height : Nat
  base_ne : base ≠ 0
  width_lt : width < 2 ^ 32
  height_lt : height < 2 ^ 32
  fits : base + 2 * (height / 16 * (width / 8)) ≤ 2 ^ 64

namespace TextScreen

-- IO_VMEM_MAX_COLS_true and IO_VMEM_MAX_ROWS_true.
def cols (scr : TextScreen) : Nat := scr.width / 8

def rows (scr : TextScreen) : Nat := scr.height / 16

def cells (scr : TextScreen) : Nat := scr.rows * scr.cols

def area (scr : TextScreen) : Span := ⟨scr.base, 2 * scr.cells⟩

end TextScreen

-- What the functions use of a design. The serial output goes to another device.
structure VMemDesign where
  x : BitVec 64
  y : BitVec 64
  fg : BitVec 32
  bg : BitVec 32
  autoScroll : Bool

def VMemDesign.attr (d : VMemDesign) : BitVec 16 := (d.bg <<< 4 ||| d.fg).setWidth 16

structure Vga where
  ram : Ram
  design : VMemDesign

section Functions

variable (scr : TextScreen)

-- The same value in `n` cells from `a` on.
def fillCells (a : Nat) (v : BitVec 16) : Nat → Ram → Ram
  | 0, r => r
  | n + 1, r => (fillCells a v n r).write16 (a + 2 * n) v

-- The loop counts the cells with a uint16_t, and has no end where there are more
-- than that can hold.
def vmemClearScreen (s : Vga) : Option Vga :=
  if scr.cells < 2 ^ 16 then
    some
      { ram := fillCells scr.base (s.design.attr <<< 8) scr.cells s.ram
        design := { s.design with x := 0, y := 0 } }
  else none

def blankCell (color : BitVec 32) : BitVec 16 := color.setWidth 16 <<< 8 ||| 0x20

def vmemScrollUp (s : Vga) (lines color : BitVec 32) : Option Vga :=
  let scroll := lines.toNat
  if scroll ≥ scr.rows then vmemClearScreen scr s
  else
    let moveSize := (scr.rows - scroll) * 2
    let ram := s.ram.memmove scr.base (scr.base + scroll * 2) moveSize
    some { s with ram := fillCells (scr.base + moveSize) (blankCell color) scroll ram }

-- The cursor goes to the next line, in '\n' and behind the last column alike.
def nextLine (s : Vga) : Option Vga :=
  let d := { s.design with x := 0, y := s.design.y + 1 }
  if d.y.toNat ≥ scr.rows then
    if d.autoScroll then vmemScrollUp scr { s with design := d } 1 d.bg
    else some { s with design := { d with y := 0 } }
  else some { s with design := d }

-- The sizes are those in pixels.
def clampCursor (d : VMemDesign) : VMemDesign :=
  let d := if d.x.toNat ≥ scr.width then { d with x := BitVec.ofNat 64 scr.width } else d
  if d.y.toNat ≥ scr.height then { d with y := BitVec.ofNat 64 scr.height } else d

def putCell (s : Vga) (v : BitVec 16) : Vga :=
  let i := s.design.y * BitVec.ofNat 64 scr.cols + s.design.x
  { s with ram := s.ram.write16 (scr.base + 2 * i.toNat) v }

-- A character from 128 on is negative. The hardware cursor is set by port writes.
def vmemPrintc (s : Vga) (c : UInt8) : Option Vga :=
  let s := { s with design := clampCursor scr s.design }
  let d := s.design
  if c = chr '\n' then nextLine scr s
  else if c = 8 then
    if d.x = 0 ∧ d.y = 0 then some s
    else
      let d :=
        if d.x.toNat > 0 then { d with x := d.x - 1 }
        else { d with x := BitVec.ofNat 64 scr.cols - 1, y := d.y - 1 }
      some (putCell scr { s with design := d } (d.attr <<< 8 ||| 0x20))
  else
    let s := putCell scr s (d.attr <<< 8 ||| c.toBitVec.signExtend 16)
    let d := { d with x := d.x + 1 }
    if d.x.toNat ≥ scr.cols then nextLine scr { s with design := d }
    else some { s with design := d }

end Functions

def VMemDesign.OnScreen (scr : TextScreen) (d : VMemDesign) : Prop :=
  d.x.toNat < scr.cols ∧ d.y.toNat < scr.rows

instance (scr : TextScreen) (d : VMemDesign) : Decidable (d.OnScreen scr) :=
  inferInstanceAs (Decidable (_ ∧ _))

-- The cursor is on the screen, and so is all that has been written.
structure StaysOnScreen (scr : TextScreen) (s : Vga) : Prop where
  cursor : s.design.OnScreen scr
  cells : ∀ span ∈ s.ram.written, span.Inside scr.area

-- The character ends the last line.
def EndsScreen (scr : TextScreen) (d : VMemDesign) (c : UInt8) : Prop :=
  d.y.toNat + 1 = scr.rows ∧ (c = chr '\n' ∨ c ≠ 8 ∧ d.x.toNat + 1 = scr.cols)

-- The screen is not scrolled, or is cleared instead because it has one line.
def ScrollsRight (scr : TextScreen) (s : Vga) (c : UInt8) : Prop :=
  s.design.autoScroll = true → EndsScreen scr s.design c → scr.rows = 1 ∧ scr.cells < 2 ^ 16

section Screen

variable {scr : TextScreen}

theorem TextScreen.cells_lt (scr : TextScreen) : scr.cells < 2 ^ 63 := by
  have hfits := scr.fits
  have hbase := scr.base_ne
  unfold cells rows cols
  omega

theorem cellIndex_lt {x y cols rows : Nat} (hx : x < cols) (hy : y < rows) :
    y * cols + x < rows * cols := by
  calc y * cols + x < y * cols + cols := Nat.add_lt_add_left hx _
    _ = (y + 1) * cols := (Nat.succ_mul y cols).symm
    _ ≤ rows * cols := Nat.mul_le_mul_right cols hy

theorem fillCells_writes (a : Nat) (v : BitVec 16) (n : Nat) (r : Ram) :
    Ram.WritesIn r (fillCells a v n r) ⟨a, 2 * n⟩ := by
  induction n with
  | zero => exact .refl r _
  | succ n ih =>
      have hcell := (fillCells a v n r).write16_writes (a + 2 * n) v
      apply (ih.mono _).trans (hcell.mono _)
      · exact ⟨Nat.le_refl _, by simp only [Span.limit]; omega⟩
      · exact ⟨Nat.le_add_right _ _, by simp only [Span.limit]; omega⟩

theorem written_inside {r r' : Ram} {span area : Span} (h : Ram.WritesIn r r' span)
    (hin : span.Inside area) (hall : ∀ s ∈ r.written, s.Inside area) :
    ∀ s ∈ r'.written, s.Inside area := by
  obtain ⟨more, hmore, hspan⟩ := (h.mono hin).log
  rw [hmore]
  exact List.forall_mem_append.mpr ⟨hall, hspan⟩

theorem VMemDesign.OnScreen.clamp {d : VMemDesign} (h : d.OnScreen scr) :
    clampCursor scr d = d := by
  obtain ⟨hx, hy⟩ := h
  unfold TextScreen.cols at hx
  unfold TextScreen.rows at hy
  unfold clampCursor
  rw [if_neg (show ¬ d.x.toNat ≥ scr.width by omega)]
  exact if_neg (by omega)

-- A cell at a place on the screen.
theorem putCell_written {s : Vga} (v : BitVec 16) (h : s.design.OnScreen scr)
    (hall : ∀ span ∈ s.ram.written, span.Inside scr.area) :
    ∀ span ∈ (putCell scr s v).ram.written, span.Inside scr.area := by
  have hlt : s.design.y.toNat * scr.cols + s.design.x.toNat < scr.cells := cellIndex_lt h.1 h.2
  have hcells := scr.cells_lt
  have hcols : scr.cols < 2 ^ 64 := by
    have hwidth := scr.width_lt
    unfold TextScreen.cols
    omega
  have hindex : (s.design.y * BitVec.ofNat 64 scr.cols + s.design.x).toNat =
      s.design.y.toNat * scr.cols + s.design.x.toNat := by
    rw [BitVec.toNat_add, BitVec.toNat_mul, BitVec.toNat_ofNat, Nat.mod_eq_of_lt hcols,
      Nat.mod_add_mod, Nat.mod_eq_of_lt (by omega)]
  apply written_inside (Ram.write16_writes _ _ _) _ hall
  rw [hindex]
  constructor
  · exact Nat.le_add_right _ _
  · simp only [Span.limit, TextScreen.area]
    omega

theorem nextLine_iff {s : Vga} (hy : s.design.y.toNat < scr.rows) (hcols : 0 < scr.cols)
    (hall : ∀ span ∈ s.ram.written, span.Inside scr.area) :
    (∃ t, nextLine scr s = some t ∧ StaysOnScreen scr t) ↔
      (s.design.autoScroll = true → s.design.y.toNat + 1 = scr.rows →
        scr.rows = 1 ∧ scr.cells < 2 ^ 16) := by
  have hrows : scr.rows < 2 ^ 32 := by
    have hheight := scr.height_lt
    unfold TextScreen.rows
    omega
  have hnext : (s.design.y + 1).toNat = s.design.y.toNat + 1 := by
    rw [BitVec.toNat_add, show (1 : BitVec 64).toNat = 1 from rfl, Nat.mod_eq_of_lt (by omega)]
  unfold nextLine
  dsimp only
  rw [hnext]
  by_cases hlast : s.design.y.toNat + 1 = scr.rows
  · rw [if_pos (Nat.le_of_eq hlast.symm)]
    cases hauto : s.design.autoScroll with
    | false =>
        refine ⟨fun _ h => absurd h Bool.false_ne_true, fun _ => ⟨_, rfl, ⟨hcols, ?_⟩, hall⟩⟩
        show 0 < scr.rows
        omega
    | true =>
        rw [if_pos rfl, vmemScrollUp, show (1 : BitVec 32).toNat = 1 from rfl]
        by_cases hone : scr.rows ≤ 1
        · rw [if_pos hone, vmemClearScreen]
          by_cases hcount : scr.cells < 2 ^ 16
          · rw [if_pos hcount]
            refine ⟨fun _ _ _ => ⟨by omega, hcount⟩, fun _ => ⟨_, rfl, ⟨hcols, ?_⟩, ?_⟩⟩
            · show 0 < scr.rows
              omega
            · apply written_inside (fillCells_writes _ _ _ _) _ hall
              exact ⟨Nat.le_refl _, Nat.le_refl _⟩
          · rw [if_neg hcount]
            constructor
            · rintro ⟨t, ht, -⟩
              cases ht
            · intro h
              exact absurd (h rfl hlast).2 hcount
        · rw [if_neg hone]
          constructor
          · rintro ⟨t, ht, hstays⟩
            obtain rfl := Option.some.inj ht
            have hcursor : (s.design.y + 1).toNat < scr.rows := hstays.cursor.2
            omega
          · intro h
            have hrow := (h rfl hlast).1
            omega
  · rw [if_neg (by omega)]
    refine ⟨fun _ _ h => absurd h hlast, fun _ => ⟨_, rfl, ⟨hcols, ?_⟩, hall⟩⟩
    show (s.design.y + 1).toNat < scr.rows
    omega

theorem VMemDesign.OnScreen.rows_pos {d : VMemDesign} (h : d.OnScreen scr) :
    0 < scr.cols ∧ 0 < scr.rows :=
  ⟨Nat.zero_lt_of_lt h.1, Nat.zero_lt_of_lt h.2⟩

-- Backspace stays on the screen: it goes back to the last column of the line before.
theorem backspace_onScreen {d : VMemDesign} (h : d.OnScreen scr) (hne : ¬ (d.x = 0 ∧ d.y = 0)) :
    VMemDesign.OnScreen scr
      (if d.x.toNat > 0 then { d with x := d.x - 1 }
      else { d with x := BitVec.ofNat 64 scr.cols - 1, y := d.y - 1 }) := by
  obtain ⟨hx, hy⟩ := h
  have hone : (1 : BitVec 64).toNat = 1 := rfl
  by_cases hzero : d.x.toNat > 0
  · rw [if_pos hzero]
    refine ⟨?_, hy⟩
    show (d.x - 1).toNat < scr.cols
    rw [BitVec.toNat_sub_of_le (by rw [BitVec.le_def, hone]; omega), hone]
    omega
  · rw [if_neg hzero]
    have hcols : scr.cols < 2 ^ 64 := by
      have hwidth := scr.width_lt
      unfold TextScreen.cols
      omega
    have hcast : (BitVec.ofNat 64 scr.cols).toNat = scr.cols := by
      rw [BitVec.toNat_ofNat, Nat.mod_eq_of_lt hcols]
    have hyzero : d.y.toNat ≠ 0 := by
      intro h
      apply hne
      constructor
      · exact BitVec.eq_of_toNat_eq (Nat.eq_zero_of_not_pos hzero)
      · exact BitVec.eq_of_toNat_eq h
    constructor
    · show (BitVec.ofNat 64 scr.cols - 1).toNat < scr.cols
      rw [BitVec.toNat_sub_of_le (by rw [BitVec.le_def, hone, hcast]; omega), hone, hcast]
      omega
    · show (d.y - 1).toNat < scr.rows
      rw [BitVec.toNat_sub_of_le (by rw [BitVec.le_def, hone]; omega), hone]
      omega

-- One character keeps the output on the screen exactly where it does not scroll.
theorem vmemPrintc_iff {s : Vga} (h : StaysOnScreen scr s) (c : UInt8) :
    (∃ t, vmemPrintc scr s c = some t ∧ StaysOnScreen scr t) ↔ ScrollsRight scr s c := by
  obtain ⟨hcols, -⟩ := h.cursor.rows_pos
  obtain ⟨hx, hy⟩ := h.cursor
  unfold vmemPrintc
  rw [h.cursor.clamp]
  dsimp only
  by_cases hnewline : c = chr '\n'
  · rw [if_pos hnewline, nextLine_iff hy hcols h.cells, ScrollsRight, EndsScreen]
    constructor
    · exact fun hall hauto hends => hall hauto hends.1
    · exact fun hall hauto hlast => hall hauto ⟨hlast, .inl hnewline⟩
  · rw [if_neg hnewline]
    by_cases hback : c = 8
    · have hright : ScrollsRight scr s c := by
        rintro - ⟨-, hends⟩
        exact absurd hback (hends.resolve_left hnewline).1
      rw [if_pos hback]
      refine ⟨fun _ => hright, fun _ => ?_⟩
      by_cases hhome : s.design.x = 0 ∧ s.design.y = 0
      · rw [if_pos hhome]
        exact ⟨_, rfl, h⟩
      · rw [if_neg hhome]
        have hon := backspace_onScreen h.cursor hhome
        exact ⟨_, rfl, hon, putCell_written _ hon h.cells⟩
    · rw [if_neg hback]
      have hput := putCell_written (s := s) (s.design.attr <<< 8 ||| c.toBitVec.signExtend 16)
        h.cursor h.cells
      have hwidth := scr.width_lt
      have hnext : (s.design.x + 1).toNat = s.design.x.toNat + 1 := by
        unfold TextScreen.cols at hx
        rw [BitVec.toNat_add, show (1 : BitVec 64).toNat = 1 from rfl, Nat.mod_eq_of_lt (by omega)]
      rw [hnext]
      by_cases hlast : s.design.x.toNat + 1 = scr.cols
      · rw [if_pos (Nat.le_of_eq hlast.symm)]
        apply (nextLine_iff (s := ⟨_, { s.design with x := s.design.x + 1 }⟩) hy hcols hput).trans
        constructor
        · exact fun hall hauto hends => hall hauto hends.1
        · exact fun hall hauto hrow => hall hauto ⟨hrow, .inr ⟨hback, hlast⟩⟩
      · rw [if_neg (by omega)]
        refine ⟨fun _ _ hends => ?_, fun _ => ⟨_, rfl, ⟨?_, hy⟩, hput⟩⟩
        · obtain ⟨-, hends⟩ := hends
          exact absurd (hends.resolve_left hnewline).2 hlast
        · show (s.design.x + 1).toNat < scr.cols
          omega

end Screen

-- The output stays on the screen in a whole run exactly where no character of it ends
-- the last line of a screen that scrolls.
theorem vmemPrintc_run_iff {scr : TextScreen} {s : Vga} (hstart : s.design.OnScreen scr)
    (hempty : s.ram.written = []) (cs : List UInt8) :
    Along (vmemPrintc scr) (StaysOnScreen scr) s cs ↔
      Admitted (vmemPrintc scr) (ScrollsRight scr) s cs := by
  apply along_iff_admitted cs
  · exact ⟨hstart, by simp [hempty]⟩
  · exact fun s c hs => vmemPrintc_iff hs c

-- A cursor at the start of the last one of 25 lines.
def vga80x25 : TextScreen where
  base := 0xB8000
  width := 640
  height := 400
  base_ne := by decide
  width_lt := by decide
  height_lt := by decide
  fits := by decide

def lastLine (autoScroll : Bool) : Vga where
  ram := ⟨fun _ => 0, []⟩
  design := ⟨0, 24, 7, 0, autoScroll⟩

theorem vmemPrintc_run_wraps :
    Along (vmemPrintc vga80x25) (StaysOnScreen vga80x25) (lastLine false) (text "ok\n") ↔
      Admitted (vmemPrintc vga80x25) (ScrollsRight vga80x25) (lastLine false) (text "ok\n") :=
  vmemPrintc_run_iff (by decide) rfl (text "ok\n")

-- The next character after the scroll is written behind the screen.
theorem scroll_leaves_screen :
    (lastLine true).design.OnScreen vga80x25 ∧ (lastLine true).ram.written = [] ∧
      (∃ t u, vmemPrintc vga80x25 (lastLine true) (chr '\n') = some t ∧
        vmemPrintc vga80x25 t (chr 'A') = some u ∧
        ⟨vga80x25.base + 2 * vga80x25.cells, 2⟩ ∈ u.ram.written) ∧
      ¬ Along (vmemPrintc vga80x25) (StaysOnScreen vga80x25) (lastLine true) (text "\nA") := by
  refine ⟨by decide, rfl, ⟨_, _, rfl, rfl, List.mem_concat_self⟩, ?_⟩
  rintro ⟨-, t, ht, hrest⟩
  have hrow := hrest.start.cursor.2
  obtain rfl := Option.some.inj ht
  exact absurd hrow (by decide)

end AosKernel.Io
