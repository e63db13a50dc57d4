import Mathlib.Algebra.Group.Nat.Defs
import Mathlib.Logic.Function.Basic
import Mathlib.Order.Basic

namespace Verif

-- Rectangles packed in rows into a sheet that grows downwards: where the next one goes,
-- how high the row is so far and how high the sheet is.
structure Shelf where
  x : Nat
  y : Nat
  rowHeight : Nat
  height : Nat
  deriving DecidableEq

-- A rectangle of `w` columns and `h` rows.
structure Rect where
  x : Nat
  y : Nat
  w : Nat
  h : Nat
  deriving DecidableEq

def Rect.Mem (r : Rect) (px py : Nat) : Prop :=
  r.x ≤ px ∧ px < r.x + r.w ∧ r.y ≤ py ∧ py < r.y + r.h

def Rect.Apart (r r' : Rect) : Prop := ∀ px py, ¬ (r.Mem px py ∧ r'.Mem px py)

def Rect.Within (r : Rect) (width height : Nat) : Prop := r.x + r.w ≤ width ∧ r.y + r.h ≤ height

section Packing

variable {width unit w h px py : Nat} {s : Shelf}

-- A rectangle that would not fit in the row opens the next one.
def Shelf.fit (width w : Nat) (s : Shelf) : Shelf :=
  if width < s.x + w + 1 then { s with x := 0, y := s.y + s.rowHeight + 1, rowHeight := 0 } else s

-- The height is a multiple of `unit`.
def Shelf.grow (unit h : Nat) (s : Shelf) : Shelf :=
  if s.height < s.y + h then
    { s with height := (s.y + h + (unit - 1)) / unit * unit }
  else s

def Shelf.place (w h : Nat) (s : Shelf) : Shelf :=
  { s with x := s.x + w + 1, rowHeight := max s.rowHeight h }

def Shelf.add (width unit : Nat) (s : Shelf) (size : Nat × Nat) : Shelf :=
  ((s.fit width size.1).grow unit size.2).place size.1 size.2

-- The cells above the row, and those of the row left of the next rectangle.
def Shelf.Settled (s : Shelf) (px py : Nat) : Prop :=
  py < s.y ∨ py < s.y + s.rowHeight ∧ px < s.x

@[simp] theorem Shelf.grow_x : (s.grow unit h).x = s.x := by
  unfold Shelf.grow
  split <;> rfl

@[simp] theorem Shelf.grow_y : (s.grow unit h).y = s.y := by
  unfold Shelf.grow
  split <;> rfl

@[simp] theorem Shelf.grow_rowHeight : (s.grow unit h).rowHeight = s.rowHeight := by
  unfold Shelf.grow
  split <;> rfl

@[simp] theorem Shelf.fit_height : (s.fit width w).height = s.height := by
  unfold Shelf.fit
  split <;> rfl

theorem Shelf.fit_within (hw : w ≤ width) : (s.fit width w).x + w ≤ width := by
  unfold Shelf.fit
  split
  · show 0 + w ≤ width
    omega
  · omega

-- The next column is at most one behind the last one.
theorem Shelf.add_column {size : Nat × Nat} (hw : size.1 ≤ width) :
    (s.add width unit size).x ≤ width + 1 := by
  have hfits : (s.fit width size.1).x + size.1 ≤ width := Shelf.fit_within hw
  simp only [Shelf.add, Shelf.place, Shelf.grow_x]
  omega

theorem roundUp_ge (hunit : 0 < unit) (n : Nat) : n ≤ (n + (unit - 1)) / unit * unit := by
  have hrest := Nat.div_add_mod (n + (unit - 1)) unit
  have hlt := Nat.mod_lt (n + (unit - 1)) hunit
  rw [Nat.mul_comm] at hrest
  omega

-- After growing, the rectangle ends inside the sheet.
theorem Shelf.grow_covers (hunit : 0 < unit) : s.y + h ≤ (s.grow unit h).height := by
  unfold Shelf.grow
  split
  · exact roundUp_ge hunit _
  · omega

theorem Shelf.height_le_grow (hunit : 0 < unit) : s.height ≤ (s.grow unit h).height := by
  unfold Shelf.grow
  split
  · have hcovers := roundUp_ge hunit (s.y + h)
    exact Nat.le_trans (by omega) hcovers
  · exact Nat.le_refl _

theorem Shelf.height_le_add (hunit : 0 < unit) (size : Nat × Nat) :
    s.height ≤ (s.add width unit size).height := by
  have hgrow : (s.fit width size.1).height ≤ ((s.fit width size.1).grow unit size.2).height :=
    Shelf.height_le_grow hunit
  rwa [Shelf.fit_height] at hgrow

-- The row ends inside the sheet.
theorem Shelf.row_le_add (hunit : 0 < unit) (hrow : s.y + s.rowHeight ≤ s.height)
    (size : Nat × Nat) :
    (s.add width unit size).y + (s.add width unit size).rowHeight ≤
      (s.add width unit size).height := by
  have hcovers : (s.fit width size.1).y + size.2 ≤ ((s.fit width size.1).grow unit size.2).height :=
    Shelf.grow_covers hunit
  have hgrows : (s.fit width size.1).height ≤ ((s.fit width size.1).grow unit size.2).height :=
    Shelf.height_le_grow hunit
  have hfit : (s.fit width size.1).rowHeight = 0 ∨
      (s.fit width size.1).y + (s.fit width size.1).rowHeight ≤ (s.fit width size.1).height := by
    unfold Shelf.fit
    split
    · exact Or.inl rfl
    · exact Or.inr hrow
  simp only [Shelf.add, Shelf.place, Shelf.grow_y, Shelf.grow_rowHeight]
  omega

theorem Shelf.height_le_foldl (hunit : 0 < unit) (sizes : List (Nat × Nat)) (s : Shelf) :
    s.height ≤ (sizes.foldl (Shelf.add width unit) s).height := by
  induction sizes generalizing s with
  | nil => exact Nat.le_refl _
  | cons size sizes ih => exact Nat.le_trans (Shelf.height_le_add hunit size) (ih _)

theorem Shelf.Settled.fit (h : s.Settled px py) : (s.fit width w).Settled px py := by
  unfold Shelf.fit
  split
  · left
    show py < s.y + s.rowHeight + 1
    unfold Shelf.Settled at h
    omega
  · exact h

theorem Shelf.Settled.grow (hs : s.Settled px py) : (s.grow unit h).Settled px py := by
  unfold Shelf.Settled at *
  simpa using hs

theorem Shelf.Settled.place (hs : s.Settled px py) : (s.place w h).Settled px py := by
  rcases hs with habove | ⟨hrow, hleft⟩
  · exact Or.inl habove
  · right
    constructor
    · show py < s.y + max s.rowHeight h
      omega
    · show px < s.x + w + 1
      omega

theorem Shelf.Settled.add (hs : s.Settled px py) (size : Nat × Nat) :
    (s.add width unit size).Settled px py :=
  hs.fit.grow.place

-- The cells of the rectangle itself are settled once it is placed.
theorem Shelf.place_settles (hx : px < s.x + w) (hy : py < s.y + h) :
    (s.place w h).Settled px py := by
  right
  constructor
  · show py < s.y + max s.rowHeight h
    omega
  · exact Nat.lt_succ_of_lt hx

-- None of them was before.
theorem Shelf.Settled.not_ahead (hs : s.Settled px py) (hx : s.x ≤ px) (hy : s.y ≤ py) : False := by
  unfold Shelf.Settled at hs
  omega

-- What lies where the next rectangle of this size goes.
def Shelf.spot (width : Nat) (s : Shelf) (size : Nat × Nat) : Rect :=
  ⟨(s.fit width size.1).x, (s.fit width size.1).y, size.1, size.2⟩

def Shelf.spots (width unit : Nat) (s : Shelf) : List (Nat × Nat) → List Rect
  | [] => []
  | size :: sizes => s.spot width size :: (s.add width unit size).spots width unit sizes

theorem Shelf.add_settles {size : Nat × Nat} (h : (s.spot width size).Mem px py) :
    (s.add width unit size).Settled px py := by
  obtain ⟨-, hx, -, hy⟩ := h
  apply Shelf.place_settles
  · rwa [Shelf.grow_x]
  · rwa [Shelf.grow_y]

-- What is settled is in none of the rectangles to come.
theorem Shelf.Settled.not_mem (hs : s.Settled px py) {sizes : List (Nat × Nat)} {r : Rect}
    (hr : r ∈ s.spots width unit sizes) : ¬ r.Mem px py := by
  induction sizes generalizing s with
  | nil => cases hr
  | cons size sizes ih =>
      rcases List.mem_cons.mp hr with rfl | hr
      · rintro ⟨hx, -, hy, -⟩
        exact hs.fit.not_ahead hx hy
      · exact ih (hs.add size) hr

theorem Shelf.Settled.foldl (hs : s.Settled px py) (sizes : List (Nat × Nat)) :
    (sizes.foldl (Shelf.add width unit) s).Settled px py := by
  induction sizes generalizing s with
  | nil => exact hs
  | cons size sizes ih => exact ih (hs.add size)

-- What is in one of the rectangles is settled in the end.
theorem Shelf.spots_settled {sizes : List (Nat × Nat)} {r : Rect}
    (hr : r ∈ s.spots width unit sizes) (h : r.Mem px py) :
    (sizes.foldl (Shelf.add width unit) s).Settled px py := by
  induction sizes generalizing s with
  | nil => cases hr
  | cons size sizes ih =>
      rcases List.mem_cons.mp hr with rfl | hr
      · exact (Shelf.add_settles h).foldl sizes
      · exact ih hr

theorem Shelf.spots_apart (sizes : List (Nat × Nat)) (s : Shelf) :
    (s.spots width unit sizes).Pairwise Rect.Apart := by
  induction sizes generalizing s with
  | nil => exact .nil
  | cons size sizes ih =>
      refine List.pairwise_cons.mpr ⟨fun r hr px py => ?_, ih _⟩
      rintro ⟨hfirst, hlater⟩
      exact (Shelf.add_settles hfirst).not_mem hr hlater

theorem Shelf.spots_within {sizes : List (Nat × Nat)} (hunit : 0 < unit)
    (hsizes : ∀ size ∈ sizes, size.1 ≤ width) {r : Rect} (hr : r ∈ s.spots width unit sizes) :
    r.Within width (sizes.foldl (Shelf.add width unit) s).height := by
  induction sizes generalizing s with
  | nil => cases hr
  | cons size sizes ih =>
      rcases List.mem_cons.mp hr with rfl | hr
      · have hcovers := Shelf.grow_covers (s := s.fit width size.1) (h := size.2) hunit
        have hlater : (s.add width unit size).height ≤
            (sizes.foldl (Shelf.add width unit) (s.add width unit size)).height :=
          Shelf.height_le_foldl hunit sizes _
        exact ⟨Shelf.fit_within (hsizes size List.mem_cons_self), Nat.le_trans hcovers hlater⟩
      · exact ih (fun size hsize => hsizes size (List.mem_cons_of_mem _ hsize)) hr

end Packing

section Painting

variable {α : Type} {m : Nat → α} {width rows cols : Nat}

-- `cols` values from `base` on, the first one first.
def paintRow (m : Nat → α) (base : Nat) (value : Nat → α) : Nat → Nat → α
  | 0 => m
  | x + 1 => Function.update (paintRow m base value x) (base + x) (value x)

-- A rectangle with its corner at column `dx` of row `dy`.
def paintRect (width dx dy : Nat) (m : Nat → α) (value : Nat → Nat → α) (cols : Nat) :
    Nat → Nat → α
  | 0 => m
  | y + 1 =>
      paintRow (paintRect width dx dy m value cols y) ((dy + y) * width + dx) (value y) cols

theorem paintRow_in {base x : Nat} {value : Nat → α} (hx : x < cols) :
    paintRow m base value cols (base + x) = value x := by
  induction cols with
  | zero => omega
  | succ cols ih =>
      rw [paintRow]
      by_cases hlast : x = cols
      · subst hlast
        exact Function.update_self ..
      · rw [Function.update_of_ne (by omega)]
        exact ih (by omega)

theorem paintRow_out {base i : Nat} {value : Nat → α} (h : i < base ∨ base + cols ≤ i) :
    paintRow m base value cols i = m i := by
  induction cols with
  | zero => rfl
  | succ cols ih =>
      rw [paintRow, Function.update_of_ne (by omega)]
      exact ih (by omega)

-- Cells of different rows are apart.
theorem cell_lt {x y x' y' : Nat} (hx : x < width) (hy : y < y') :
    y * width + x < y' * width + x' := by
  calc y * width + x < y * width + width := Nat.add_lt_add_left hx _
    _ = (y + 1) * width := (Nat.succ_mul _ _).symm
    _ ≤ y' * width := Nat.mul_le_mul_right _ hy
    _ ≤ y' * width + x' := Nat.le_add_right _ _

variable {x y : Nat} {value : Nat → Nat → α}

-- Outside the rectangle nothing changes.
theorem paintRect_out (dx dy : Nat) (m : Nat → α) (value : Nat → Nat → α)
    (hin : dx + cols ≤ width) {px py : Nat} (hpx : px < width)
    (h : px < dx ∨ dx + cols ≤ px ∨ py < dy ∨ dy + rows ≤ py) :
    paintRect width dx dy m value cols rows (py * width + px) = m (py * width + px) := by
  induction rows with
  | zero => rfl
  | succ rows ih =>
      have hrow : py * width + px < (dy + rows) * width + dx ∨
          (dy + rows) * width + dx + cols ≤ py * width + px := by
        rcases Nat.lt_trichotomy py (dy + rows) with hlt | rfl | hgt
        · exact Or.inl (cell_lt hpx hlt)
        · omega
        · right
          have hend : (dy + rows) * width + width ≤ py * width := by
            rw [← Nat.succ_mul]
            exact Nat.mul_le_mul_right _ hgt
          omega
      rw [paintRect, paintRow_out hrow]
      exact ih (by omega)

theorem paintRect_in (dx dy : Nat) (m : Nat → α) (value : Nat → Nat → α)
    (hin : dx + cols ≤ width) (hx : x < cols) (hy : y < rows) :
    paintRect width dx dy m value cols rows ((dy + y) * width + (dx + x)) = value y x := by
  induction rows with
  | zero => omega
  | succ rows ih =>
      rw [paintRect]
      by_cases hlast : y = rows
      · subst hlast
        rw [← Nat.add_assoc]
        exact paintRow_in hx
      · have hbefore : (dy + y) * width + (dx + x) < (dy + rows) * width + dx :=
          cell_lt (by omega) (by omega)
        rw [paintRow_out (Or.inl hbefore)]
        exact ih (by omega)

end Painting

end Verif
