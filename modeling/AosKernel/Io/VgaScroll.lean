import AosKernel.Io.VgaText

namespace AosKernel.Io

open Verif AosKernel.Core

-- The cells of the screen, line by line.
def TextScreen.cell (scr : TextScreen) (r : Ram) (i : Nat) : BitVec 16 := r.read16 (scr.base + 2 * i)

-- The lines move up by `n`, the last ones are blank, and nothing else is written.
structure LinesMoved (scr : TextScreen) (r r' : Ram) (n : Nat) (color : BitVec 32) : Prop where
  moved : ∀ row < scr.rows - n, ∀ col < scr.cols,
    scr.cell r' (row * scr.cols + col) = scr.cell r ((row + n) * scr.cols + col)
  blank : ∀ row < scr.rows, scr.rows - n ≤ row → ∀ col < scr.cols,
    scr.cell r' (row * scr.cols + col) = blankCell color
  inside : Ram.WritesIn r r' scr.area

-- An old text on which moving by `n` cells looks like moving by `n` lines.
structure LooksAlike (scr : TextScreen) (r : Ram) (n : Nat) (color : BitVec 32) : Prop where
  front : ∀ i < scr.rows - n, scr.cell r (i + n) = scr.cell r (i + n * scr.cols)
  blanked : ∀ i < scr.rows, scr.rows - n ≤ i → i < (scr.rows - n) * scr.cols →
    scr.cell r (i + n * scr.cols) = blankCell color
  left : ∀ i < (scr.rows - n) * scr.cols, scr.rows ≤ i →
    scr.cell r i = scr.cell r (i + n * scr.cols)
  rest : ∀ i < scr.rows * scr.cols, scr.rows ≤ i → (scr.rows - n) * scr.cols ≤ i →
    scr.cell r i = blankCell color

section Scroll

variable {scr : TextScreen} {r r' : Ram} {n : Nat} {color : BitVec 32}

theorem fillCells_read (a : Nat) (v : BitVec 16) (n : Nat) (r : Ram) {k : Nat} (hk : k < n) :
    (fillCells a v n r).read16 (a + 2 * k) = v := by
  induction n with
  | zero => exact absurd hk (Nat.not_lt_zero k)
  | succ n ih =>
      rw [fillCells]
      by_cases hlast : k = n
      · rw [hlast, Ram.read16_write16]
      · have hcell := (fillCells a v n r).write16_writes (a + 2 * n) v
        have hbefore : a + 2 * k + 2 ≤ a + 2 * n := by omega
        rw [hcell.read16 (.inl hbefore), ih (by omega)]

-- The move and the blanks behind it, cell by cell.
theorem scrolled_cell (scr : TextScreen) (n : Nat) (r : Ram) (v : BitVec 16) (i : Nat) :
    scr.cell (fillCells (scr.base + (scr.rows - n) * 2) v n
        (r.memmove scr.base (scr.base + n * 2) ((scr.rows - n) * 2))) i =
      if i < scr.rows - n then scr.cell r (i + n)
      else if i < scr.rows - n + n then v
      else scr.cell r i := by
  have hbase := scr.base_ne
  generalize hm : r.memmove scr.base (scr.base + n * 2) ((scr.rows - n) * 2) = m
  have hbytes (x : Nat) : m.bytes x = moved r.bytes scr.base (scr.base + n * 2)
      ((scr.rows - n) * 2) x := by
    rw [← hm, Ram.memmove_bytes r hbase (by omega)]
  generalize scr.rows - n = k at hbytes ⊢
  have hfill := fillCells_writes (scr.base + k * 2) v n m
  unfold TextScreen.cell
  by_cases hmoved : i < k
  · rw [if_pos hmoved, hfill.read16 (.inl (show scr.base + 2 * i + 2 ≤ scr.base + k * 2 by omega))]
    apply Ram.read16_congr
    · rw [hbytes, moved_in _ (by omega) (by omega)]
      apply congrArg r.bytes
      omega
    · rw [hbytes, moved_in _ (by omega) (by omega)]
      apply congrArg r.bytes
      omega
  · rw [if_neg hmoved]
    by_cases hblank : i < k + n
    · rw [if_pos hblank]
      have hread := fillCells_read (scr.base + k * 2) v n m (show i - k < n by omega)
      rwa [show scr.base + k * 2 + 2 * (i - k) = scr.base + 2 * i by omega] at hread
    · rw [if_neg hblank,
        hfill.read16 (.inr (show scr.base + k * 2 + 2 * n ≤ scr.base + 2 * i by omega))]
      apply Ram.read16_congr
      · rw [hbytes, moved_out _ (by omega)]
      · rw [hbytes, moved_out _ (by omega)]

theorem scrolled_writes (scr : TextScreen) (r : Ram) (v : BitVec 16) (h : n ≤ scr.rows) :
    Ram.WritesIn r (fillCells (scr.base + (scr.rows - n) * 2) v n
        (r.memmove scr.base (scr.base + n * 2) ((scr.rows - n) * 2)))
      ⟨scr.base, 2 * scr.rows⟩ := by
  have hmove := Ram.memmove_writes r scr.base (scr.base + n * 2) ((scr.rows - n) * 2)
  have hfill := fillCells_writes (scr.base + (scr.rows - n) * 2) v n
    (r.memmove scr.base (scr.base + n * 2) ((scr.rows - n) * 2))
  apply (hmove.mono _).trans (hfill.mono _)
  · exact ⟨Nat.le_refl _, show scr.base + (scr.rows - n) * 2 ≤ scr.base + 2 * scr.rows by omega⟩
  · constructor
    · exact Nat.le_add_right _ _
    · show scr.base + (scr.rows - n) * 2 + 2 * n ≤ scr.base + 2 * scr.rows
      omega

theorem vmemScrollUp_eq (s : Vga) {lines : BitVec 32} (h : lines.toNat < scr.rows) :
    vmemScrollUp scr s lines color =
      some
        { ram := fillCells (scr.base + (scr.rows - lines.toNat) * 2) (blankCell color) lines.toNat
            (s.ram.memmove scr.base (scr.base + lines.toNat * 2) ((scr.rows - lines.toNat) * 2))
          design := s.design } := by
  unfold vmemScrollUp
  exact if_neg (Nat.not_le.mpr h)

-- Moving by no lines writes nothing.
theorem scrolled_zero (r : Ram) (v : BitVec 16) (k : Nat) :
    fillCells (scr.base + (scr.rows - 0) * 2) v 0 (r.memmove scr.base (scr.base + 0 * 2) k) = r := by
  have hbase := scr.base_ne
  rw [fillCells, Ram.memmove, if_neg (by omega), if_pos (.inr (by omega))]

-- The last blank is written behind all that the function has written before.
theorem last_blank_written (a : Nat) (v : BitVec 16) (k : Nat) {r m : Ram} {span : Span}
    (hm : Ram.WritesIn r m span) :
    ∃ pre, (fillCells a v (k + 1) m).written = r.written ++ (pre ++ [⟨a + 2 * k, 2⟩]) := by
  obtain ⟨moved, hmoved, -⟩ := hm.log
  obtain ⟨filled, hfilled, -⟩ := (fillCells_writes a v k m).log
  refine ⟨moved ++ filled, ?_⟩
  show (fillCells a v k m).written ++ [⟨a + 2 * k, 2⟩] = _
  rw [hfilled, hmoved, List.append_assoc, List.append_assoc, List.append_assoc]

-- What moving by lines means, cell by cell.
theorem linesMoved_iff (hcols : 0 < scr.cols) :
    LinesMoved scr r r' n color ↔
      (∀ i < scr.rows * scr.cols, scr.cell r' i =
        if i < (scr.rows - n) * scr.cols then scr.cell r (i + n * scr.cols)
        else blankCell color) ∧
      Ram.WritesIn r r' scr.area := by
  constructor
  · intro h
    refine ⟨fun i hi => ?_, h.inside⟩
    have hsplit : i / scr.cols * scr.cols + i % scr.cols = i := Nat.div_add_mod' i scr.cols
    have hcol : i % scr.cols < scr.cols := Nat.mod_lt _ hcols
    have hrow : i / scr.cols < scr.rows := (Nat.div_lt_iff_lt_mul hcols).mpr hi
    by_cases hlt : i < (scr.rows - n) * scr.cols
    · have hcell := h.moved (i / scr.cols) ((Nat.div_lt_iff_lt_mul hcols).mpr hlt) _ hcol
      rw [Nat.add_mul, Nat.add_right_comm, hsplit] at hcell
      rw [if_pos hlt, hcell]
    · have hcell := h.blank (i / scr.cols) hrow
        ((Nat.le_div_iff_mul_le hcols).mpr (Nat.le_of_not_lt hlt)) _ hcol
      rw [hsplit] at hcell
      rw [if_neg hlt, hcell]
  · rintro ⟨h, hin⟩
    refine ⟨fun row hrow col hcol => ?_, fun row hrow hlast col hcol => ?_, hin⟩
    · have hlt := cellIndex_lt hcol hrow
      have hle : (scr.rows - n) * scr.cols ≤ scr.rows * scr.cols :=
        Nat.mul_le_mul_right _ (Nat.sub_le _ _)
      rw [h _ (by omega), if_pos hlt, Nat.add_mul, Nat.add_right_comm]
    · have hge : (scr.rows - n) * scr.cols ≤ row * scr.cols := Nat.mul_le_mul_right _ hlast
      rw [h _ (cellIndex_lt hcol hrow), if_neg (by omega)]

-- A screen without columns has no cells, but the move and the blanks are written.
theorem linesMoved_no_cols (hcols : scr.cols = 0) (s : Vga) {lines : BitVec 32}
    (h : lines.toNat < scr.rows) :
    (∃ t, vmemScrollUp scr s lines color = some t ∧
      LinesMoved scr s.ram t.ram lines.toNat color) ↔ lines.toNat = 0 := by
  rw [vmemScrollUp_eq s h]
  generalize lines.toNat = n at h ⊢
  have hnone : scr.area = ⟨scr.base, 0⟩ := by
    rw [TextScreen.area, TextScreen.cells, hcols, Nat.mul_zero, Nat.mul_zero]
  constructor
  · rintro ⟨t, ht, hmoved⟩
    obtain rfl := Option.some.inj ht
    by_contra hne
    obtain ⟨k, rfl⟩ := Nat.exists_eq_succ_of_ne_zero hne
    obtain ⟨more, hmore, hin⟩ := hmoved.inside.log
    obtain ⟨pre, hpre⟩ := last_blank_written (scr.base + (scr.rows - (k + 1)) * 2)
      (blankCell color) k (Ram.memmove_writes s.ram scr.base (scr.base + (k + 1) * 2)
        ((scr.rows - (k + 1)) * 2))
    obtain rfl := List.append_cancel_left (hmore.symm.trans hpre)
    have hlimit := (hin _ List.mem_concat_self).2
    rw [hnone] at hlimit
    simp only [Span.limit] at hlimit
    omega
  · rintro rfl
    refine ⟨_, rfl, ⟨?_, ?_, ?_⟩⟩
    · intro row _ col hcol
      omega
    · intro row _ _ col hcol
      omega
    · dsimp only
      rw [scrolled_zero]
      exact .refl s.ram _

-- What stands in a cell after a move by `n` cells, and after one by `n` lines.
def TextScreen.cellMoved (scr : TextScreen) (r : Ram) (n : Nat) (color : BitVec 32) (i : Nat) :
    BitVec 16 :=
  if i < scr.rows - n then scr.cell r (i + n)
  else if i < scr.rows then blankCell color
  else scr.cell r i

def TextScreen.lineMoved (scr : TextScreen) (r : Ram) (n : Nat) (color : BitVec 32) (i : Nat) :
    BitVec 16 :=
  if i < (scr.rows - n) * scr.cols then scr.cell r (i + n * scr.cols) else blankCell color

theorem looksAlike_iff (hcols : 0 < scr.cols) :
    LooksAlike scr r n color ↔
      ∀ i < scr.rows * scr.cols, scr.cellMoved r n color i = scr.lineMoved r n color i := by
  have hfront : (scr.rows - n) * 1 ≤ (scr.rows - n) * scr.cols := Nat.mul_le_mul_left _ hcols
  have hall : scr.rows * 1 ≤ scr.rows * scr.cols := Nat.mul_le_mul_left _ hcols
  have hlines : (scr.rows - n) * scr.cols ≤ scr.rows * scr.cols :=
    Nat.mul_le_mul_right _ (Nat.sub_le _ _)
  unfold TextScreen.cellMoved TextScreen.lineMoved
  constructor
  · intro h i hi
    by_cases hmoved : i < scr.rows - n
    · rw [if_pos hmoved, if_pos (by omega)]
      exact h.front i hmoved
    rw [if_neg hmoved]
    by_cases hrow : i < scr.rows
    · rw [if_pos hrow]
      by_cases hlt : i < (scr.rows - n) * scr.cols
      · rw [if_pos hlt]
        exact (h.blanked i hrow (Nat.le_of_not_lt hmoved) hlt).symm
      · rw [if_neg hlt]
    · rw [if_neg hrow]
      by_cases hlt : i < (scr.rows - n) * scr.cols
      · rw [if_pos hlt]
        exact h.left i hlt (Nat.le_of_not_lt hrow)
      · rw [if_neg hlt]
        exact h.rest i hi (Nat.le_of_not_lt hrow) (Nat.le_of_not_lt hlt)
  · intro h
    constructor
    · intro i hi
      have hi' := h i (by omega)
      rwa [if_pos hi, if_pos (by omega)] at hi'
    · intro i hi hge hlt
      have hi' := h i (by omega)
      rw [if_neg (by omega), if_pos hi, if_pos hlt] at hi'
      exact hi'.symm
    · intro i hlt hge
      have hi' := h i (by omega)
      rwa [if_neg (by omega), if_neg (by omega), if_pos hlt] at hi'
    · intro i hi hge hlast
      have hi' := h i hi
      rwa [if_neg (by omega), if_neg (by omega), if_neg (by omega)] at hi'

-- Cells are lines where there is one column.
theorem cellMoved_eq (h : n = 0 ∨ scr.cols = 1) {i : Nat} (hi : i < scr.rows * scr.cols) :
    scr.cellMoved r n color i = scr.lineMoved r n color i := by
  unfold TextScreen.cellMoved TextScreen.lineMoved
  rcases h with rfl | hone
  · rw [Nat.sub_zero, Nat.zero_mul, Nat.add_zero, if_pos hi]
    by_cases hrow : i < scr.rows
    · rw [if_pos hrow]
    · rw [if_neg hrow, if_neg hrow]
  · rw [hone, Nat.mul_one] at hi
    rw [hone, Nat.mul_one, Nat.mul_one, if_pos hi]

-- Moving by cells is moving by lines where there is one column, or nothing moves, or
-- the old text does not show the difference.
theorem linesMoved_cols (hcols : 0 < scr.cols) (s : Vga) {lines : BitVec 32}
    (h : lines.toNat < scr.rows) :
    (∃ t, vmemScrollUp scr s lines color = some t ∧
      LinesMoved scr s.ram t.ram lines.toNat color) ↔
      lines.toNat = 0 ∨ scr.cols = 1 ∨ LooksAlike scr s.ram lines.toNat color := by
  rw [vmemScrollUp_eq s h, looksAlike_iff hcols]
  generalize lines.toNat = n at h ⊢
  have hback : scr.rows - n + n = scr.rows := Nat.sub_add_cancel (Nat.le_of_lt h)
  have hcell := scrolled_cell scr n s.ram (blankCell color)
  rw [hback] at hcell
  have hin : Span.Inside ⟨scr.base, 2 * scr.rows⟩ scr.area := by
    refine ⟨Nat.le_refl _, ?_⟩
    have hle : scr.rows * 1 ≤ scr.rows * scr.cols := Nat.mul_le_mul_left _ hcols
    show scr.base + 2 * scr.rows ≤ scr.base + 2 * (scr.rows * scr.cols)
    omega
  have hwrites := (scrolled_writes scr s.ram (blankCell color) (Nat.le_of_lt h)).mono hin
  constructor
  · rintro ⟨t, ht, hmoved⟩
    obtain rfl := Option.some.inj ht
    obtain ⟨hlin, -⟩ := (linesMoved_iff hcols).mp hmoved
    exact .inr (.inr fun i hi => (hcell i).symm.trans (hlin i hi))
  · intro hcond
    refine ⟨_, rfl, (linesMoved_iff hcols).mpr ⟨fun i hi => (hcell i).trans ?_, hwrites⟩⟩
    rcases hcond with hzero | hone | halike
    · exact cellMoved_eq (.inl hzero) hi
    · exact cellMoved_eq (.inr hone) hi
    · exact halike i hi

-- Where there are more columns, the last cell stays.
theorem not_looksAlike_zeros (hcols : 1 < scr.cols) (h : n < scr.rows) (hn : n ≠ 0)
    (written : List Span) : ¬ LooksAlike scr ⟨fun _ => 0, written⟩ n color := by
  intro halike
  have htwo : scr.rows * 2 ≤ scr.rows * scr.cols := Nat.mul_le_mul_left _ hcols
  have hlines : (scr.rows - n) * scr.cols ≤ (scr.rows - 1) * scr.cols :=
    Nat.mul_le_mul_right _ (by omega)
  have hrows : (scr.rows - 1) * scr.cols + scr.cols = scr.rows * scr.cols := by
    rw [← Nat.succ_mul, Nat.succ_eq_add_one, Nat.sub_add_cancel (by omega)]
  have hlast := halike.rest (scr.rows * scr.cols - 1) (by omega) (by omega) (by omega)
  have hbit := congrArg (fun v => v.getLsbD 5) hlast
  revert hbit
  simp [TextScreen.cell, Ram.read16, blankCell]

end Scroll

-- The lines move exactly where no line is to move, or the screen has one column, or the
-- old text does not show the difference; for every old text only in the first two cases.
theorem vmemScrollUp_iff (scr : TextScreen) (color : BitVec 32) {lines : BitVec 32}
    (h : lines.toNat < scr.rows) :
    (∀ s, (∃ t, vmemScrollUp scr s lines color = some t ∧
        LinesMoved scr s.ram t.ram lines.toNat color) ↔
      lines.toNat = 0 ∨ scr.cols = 1 ∨
        1 < scr.cols ∧ LooksAlike scr s.ram lines.toNat color) ∧
      ((∀ s, ∃ t, vmemScrollUp scr s lines color = some t ∧
          LinesMoved scr s.ram t.ram lines.toNat color) ↔
        lines.toNat = 0 ∨ scr.cols = 1) := by
  have hexact (s : Vga) : (∃ t, vmemScrollUp scr s lines color = some t ∧
      LinesMoved scr s.ram t.ram lines.toNat color) ↔
        lines.toNat = 0 ∨ scr.cols = 1 ∨
          1 < scr.cols ∧ LooksAlike scr s.ram lines.toNat color := by
    by_cases hcols : scr.cols = 0
    · rw [linesMoved_no_cols hcols s h]
      omega
    · rw [linesMoved_cols (by omega) s h]
      constructor
      · rintro (hzero | hone | halike)
        · exact .inl hzero
        · exact .inr (.inl hone)
        · by_cases hone : scr.cols = 1
          · exact .inr (.inl hone)
          · exact .inr (.inr ⟨by omega, halike⟩)
      · rintro (hzero | hone | ⟨-, halike⟩)
        · exact .inl hzero
        · exact .inr (.inl hone)
        · exact .inr (.inr halike)
  refine ⟨hexact, fun hall => ?_, fun hcond s => (hexact s).mpr ?_⟩
  · have hblank := (hexact ⟨⟨fun _ => 0, []⟩, ⟨0, 0, 0, 0, true⟩⟩).mp (hall _)
    rcases hblank with hzero | hone | ⟨hcols, halike⟩
    · exact .inl hzero
    · exact .inr hone
    · by_cases hzero : lines.toNat = 0
      · exact .inl hzero
      · exact absurd halike (not_looksAlike_zeros hcols h hzero [])
  · rcases hcond with hzero | hone
    · exact .inl hzero
    · exact .inr (.inl hone)

theorem vmemScrollUp_iff_80x25 :
    (∀ s, ∃ t, vmemScrollUp vga80x25 s 1 7 = some t ∧
        LinesMoved vga80x25 s.ram t.ram 1 7) ↔ (1 : BitVec 32).toNat = 0 ∨ vga80x25.cols = 1 :=
  (vmemScrollUp_iff vga80x25 7 (by decide)).2

-- On a screen of 80 columns the text moves by one character and the last line stays.
theorem scroll_moves_cells :
    ¬ ∀ s, ∃ t, vmemScrollUp vga80x25 s 1 7 = some t ∧
      LinesMoved vga80x25 s.ram t.ram 1 7 := by
  intro hall
  obtain ⟨t, ht, hmoved⟩ := hall (lastLine true)
  have hblank := hmoved.blank 24 (by decide) (by decide) 79 (by decide)
  obtain rfl := Option.some.inj ((vmemScrollUp_eq (lastLine true) (by decide)).symm.trans ht)
  rw [show (24 : Nat) * vga80x25.cols + 79 = 1999 from rfl] at hblank
  have hcell := scrolled_cell vga80x25 1 (lastLine true).ram (blankCell 7) 1999
  rw [if_neg (by decide), if_neg (by decide)] at hcell
  exact absurd (hcell.symm.trans hblank) (by decide)

end AosKernel.Io
