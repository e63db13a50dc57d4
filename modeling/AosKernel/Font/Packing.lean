import AosKernel.Font.Atlas

namespace AosKernel.Font

open Verif

theorem bind_ok {α β : Type} (v : α) (f : α → Except Stop β) : (Except.ok v >>= f) = f v := rfl

theorem bind_error {α β : Type} (e : Stop) (f : α → Except Stop β) :
    (Except.error e >>= f) = .error e := rfl

section Rows

variable {value : Nat → Nat → Except Stop (BitVec 32)} {place : Nat → Nat → Nat}
  {cols rows : Nat}

-- The pixel that is written, if there is one.
def written : Except Stop (BitVec 32) → BitVec 32
  | .ok v => v
  | .error _ => 0

theorem writeRow_ok {value : Nat → Except Stop (BitVec 32)} {place : Nat → Nat} {base : Nat}
    (hvalue : ∀ x < cols, ∃ v, value x = .ok v) (hplace : ∀ x < cols, place x = base + x)
    (s : Sheet) (hfits : base + cols ≤ s.words) :
    Sheet.writeRow value place cols s =
      .ok { s with word := paintRow s.word base (fun x => written (value x)) cols } := by
  induction cols with
  | zero => rfl
  | succ cols ih =>
      obtain ⟨v, hv⟩ := hvalue cols (Nat.lt_succ_self cols)
      have hinside : base + cols < s.words := by omega
      rw [Sheet.writeRow, times_succ_ok (ih (fun x hx => hvalue x (by omega))
        (fun x hx => hplace x (by omega)) (by omega)), hv, hplace cols (Nat.lt_succ_self cols),
        paintRow, hv]
      show Sheet.write _ (base + cols) v = _
      rw [Sheet.write, if_pos hinside]
      rfl

theorem writeRows_ok (width dx dy : Nat)
    (hvalue : ∀ y < rows, ∀ x < cols, ∃ v, value y x = .ok v)
    (hplace : ∀ y < rows, ∀ x < cols, place y x = (dy + y) * width + dx + x) (s : Sheet)
    (hcols : dx + cols ≤ width) (hfits : (dy + rows) * width ≤ s.words) :
    Sheet.writeRows value place cols rows s =
      .ok { s with
        word := paintRect width dx dy s.word (fun y x => written (value y x)) cols rows } := by
  induction rows with
  | zero => rfl
  | succ rows ih =>
      have hrow : (dy + rows) * width + width ≤ s.words := by
        rw [← Nat.succ_mul]
        exact hfits
      rw [Sheet.writeRows, times_succ_ok (ih (fun y hy => hvalue y (by omega))
        (fun y hy => hplace y (by omega)) (by omega)), paintRect]
      apply writeRow_ok (hvalue rows (Nat.lt_succ_self rows)) (hplace rows (Nat.lt_succ_self rows))
      show (dy + rows) * width + dx + cols ≤ s.words
      omega

end Rows

section Pixels

variable {format : Format} {width : Nat} {row : Nat → Except Stop UInt8}

-- A row of at least the minimum pitch has all its pixels.
theorem pixel_ok (hrow : ∀ i < format.minimumPitch width, ∃ b, row i = .ok b) {x : Nat}
    (hx : x < width) : ∃ v, format.pixel row x = .ok v := by
  cases format with
  | mono =>
      obtain ⟨b, hb⟩ := hrow (x / 8) (by rw [Format.minimumPitch]; omega)
      exact ⟨_, by rw [Format.pixel, hb]; rfl⟩
  | gray2 =>
      obtain ⟨b, hb⟩ := hrow (x / 4) (by rw [Format.minimumPitch]; omega)
      exact ⟨_, by rw [Format.pixel, hb]; rfl⟩
  | gray4 =>
      obtain ⟨b, hb⟩ := hrow (x / 2) (by rw [Format.minimumPitch]; omega)
      exact ⟨_, by rw [Format.pixel, hb]; rfl⟩
  | a8 =>
      obtain ⟨b, hb⟩ := hrow x hx
      exact ⟨_, by rw [Format.pixel, hb]; rfl⟩
  | rgb =>
      obtain ⟨r, hr⟩ := hrow (x * 3) (by rw [Format.minimumPitch]; omega)
      obtain ⟨g, hg⟩ := hrow (x * 3 + 1) (by rw [Format.minimumPitch]; omega)
      obtain ⟨b, hb⟩ := hrow (x * 3 + 2) (by rw [Format.minimumPitch]; omega)
      exact ⟨_, by rw [Format.pixel, hr, hg, hb]; rfl⟩
  | rgba =>
      obtain ⟨r, hr⟩ := hrow (x * 4) (by rw [Format.minimumPitch]; omega)
      obtain ⟨g, hg⟩ := hrow (x * 4 + 1) (by rw [Format.minimumPitch]; omega)
      obtain ⟨b, hb⟩ := hrow (x * 4 + 2) (by rw [Format.minimumPitch]; omega)
      obtain ⟨a, ha⟩ := hrow (x * 4 + 3) (by rw [Format.minimumPitch]; omega)
      exact ⟨_, by rw [Format.pixel, hr, hg, hb, ha]; rfl⟩

theorem readByte_ok {bytes : List UInt8} {i : Nat} (h : i < bytes.length) :
    ∃ b, readByte bytes i = .ok b := by
  rw [readByte, List.getElem?_eq_getElem h]
  exact ⟨_, rfl⟩

end Pixels

-- An atlas that was allocated, with `s` as its pixels.
structure AtlasData.Allocated (a : AtlasData) (s : Sheet) : Prop where
  atlas : a.atlas = some s
  width : a.width = INITIAL_WIDTH
  words : s.words = a.height * INITIAL_WIDTH
  height : a.height ≤ 65536

-- As the calls leave it, the row ends inside.
structure AtlasData.Packed (a : AtlasData) (s : Sheet) : Prop extends a.Allocated s where
  row : a.y + a.rowHeight ≤ a.height

def AtlasData.Ready (a : AtlasData) : Prop := (∃ calls, a = emptyAtlas calls) ∨ ∃ s, a.Packed s

-- Where the packing is; without an atlas, where it starts.
def AtlasData.shelf (a : AtlasData) : Shelf :=
  match a.atlas with
  | some _ => ⟨a.x, a.y, a.rowHeight, a.height⟩
  | none => ⟨0, 0, 0, INITIAL_HEIGHT⟩

def AtlasData.pixel (a : AtlasData) (px py : Nat) : BitVec 32 :=
  match a.atlas with
  | some s => s.word (py * a.width + px)
  | none => 0

def Bitmap.extent (b : Bitmap) : Nat × Nat := (b.width.toNat, b.height.toNat)

def Bitmap.Backed (b : Bitmap) : Prop := b.size ≤ b.bytes.length

-- Its pixel in column `x` of row `y`.
def Bitmap.pixel (b : Bitmap) (x y : Nat) : BitVec 32 :=
  match Format.ofCode b.format with
  | some format =>
      written (format.pixel (fun i => readByte b.bytes (y * b.pitch.toNat + i)) x)
  | none => 0

-- A bitmap the converter has no reason to refuse.
structure Bitmap.Regular (b : Bitmap) : Prop where
  columns : b.width ≠ 0
  rows : b.height ≠ 0
  narrow : b.width.toNat ≤ INITIAL_WIDTH
  size : b.pitch.toNat * b.height.toNat ≤ b.size
  format : ∃ format, Format.ofCode b.format = some format ∧
    format.minimumPitch b.width.toNat ≤ b.pitch.toNat

-- A call that succeeds. The next column is at most one behind the last one.
structure Accepts (grants : Nat → Bool) (a : AtlasData) (b : Bitmap) : Prop where
  granted : ∀ n, grants n = true
  column : a.shelf.x ≤ INITIAL_WIDTH + 1
  regular : b.Regular
  height : (a.shelf.add INITIAL_WIDTH 512 b.extent).height ≤ 65536

section Steps

variable (grants : Nat → Bool) {a : AtlasData} {s : Sheet} {w h : Nat}

theorem minimumPitch_pos (format : Format) {width : Nat} (hwidth : 0 < width) :
    0 < format.minimumPitch width := by
  cases format
  all_goals
    simp only [Format.minimumPitch]
    omega

theorem Bitmap.Regular.pitch_ne {b : Bitmap} (hb : b.Regular) : b.pitch ≠ 0 := by
  obtain ⟨format, -, hpitch⟩ := hb.format
  intro hzero
  have hwidth : 0 < b.width.toNat := by
    apply Nat.pos_of_ne_zero
    intro hnone
    exact hb.columns (BitVec.eq_of_toNat_eq hnone)
  have hmin := minimumPitch_pos format hwidth
  rw [hzero] at hpitch
  exact absurd hmin (Nat.not_lt.mpr hpitch)

theorem AtlasData.Allocated.shelf_eq (ha : a.Allocated s) :
    a.shelf = ⟨a.x, a.y, a.rowHeight, a.height⟩ := by
  rw [AtlasData.shelf, ha.atlas]

theorem AtlasData.Allocated.pixel_eq (ha : a.Allocated s) (px py : Nat) :
    a.pixel px py = s.word (py * INITIAL_WIDTH + px) := by
  rw [AtlasData.pixel, ha.atlas, ← ha.width]

-- Opening an atlas changes nothing that is seen of it.
theorem opened_ok (hready : a.Ready) :
    a.opened grants = .error .refused ∧ ¬ (∀ n, grants n = true) ∨
    ∃ a' s, a.opened grants = .ok a' ∧ a'.Packed s ∧ a'.shelf = a.shelf ∧
      ∀ px py, a'.pixel px py = a.pixel px py := by
  rcases hready with ⟨calls, rfl⟩ | ⟨s, hp⟩
  · rw [AtlasData.opened, emptyAtlas]
    dsimp only
    cases hgrant : grants calls with
    | false => exact Or.inl ⟨rfl, fun hgranted => by simp [hgranted calls] at hgrant⟩
    | true =>
        right
        refine ⟨_, _, rfl, ⟨⟨rfl, rfl, rfl, ?_⟩, Nat.zero_le _⟩, rfl, fun _ _ => rfl⟩
        show INITIAL_HEIGHT ≤ 65536
        decide
  · right
    rw [AtlasData.opened, hp.atlas]
    exact ⟨a, s, rfl, hp, rfl, fun _ _ => rfl⟩

theorem fitted_ok (hp : a.Packed s) :
    a.fitted w = .error .refused ∧ ¬ (w ≤ INITIAL_WIDTH ∧ a.shelf.x ≤ INITIAL_WIDTH + 1) ∨
    w ≤ INITIAL_WIDTH ∧ ∃ a', a.fitted w = .ok a' ∧ a'.Allocated s ∧ a'.y ≤ 65537 ∧
      a'.shelf = a.shelf.fit INITIAL_WIDTH w := by
  have hheight := hp.height
  have hrow := hp.row
  rw [← hp.width, AtlasData.fitted, hp.shelf_eq]
  by_cases hwide : a.width < w
  · rw [if_pos hwide]
    exact Or.inl ⟨rfl, fun hsmall => absurd hsmall.1 (Nat.not_le.mpr hwide)⟩
  rw [if_neg hwide]
  by_cases hover : UINT64_MAX - w - PADDING < a.x
  · rw [if_pos hover]
    refine Or.inl ⟨rfl, ?_⟩
    rintro ⟨hw, hx⟩
    dsimp only at hx
    rw [hp.width] at hw hx
    unfold UINT64_MAX PADDING at hover
    unfold INITIAL_WIDTH at hw hx
    omega
  rw [if_neg hover]
  refine Or.inr ⟨Nat.le_of_not_lt hwide, ?_⟩
  by_cases hnew : a.width < a.x + w + 1
  · have hlow : ¬ UINT64_MAX - PADDING < a.rowHeight := by
      unfold UINT64_MAX PADDING
      omega
    have hsum : a.y + (a.rowHeight + PADDING) < 2 ^ 64 := by
      unfold PADDING
      omega
    rw [Shelf.fit, if_pos hnew, PADDING, if_pos hnew, ← PADDING, if_neg hlow,
      Nat.mod_eq_of_lt hsum]
    refine ⟨_, rfl, ⟨hp.atlas, hp.width, hp.words, hp.height⟩, ?_, ?_⟩
    · show a.y + (a.rowHeight + PADDING) ≤ 65537
      unfold PADDING
      omega
    · rw [AtlasData.shelf, hp.atlas]
      rfl
  · rw [Shelf.fit, if_neg hnew, PADDING, if_neg hnew]
    exact ⟨a, rfl, hp.toAllocated, by omega, hp.shelf_eq⟩

-- All rows of an allocated atlas get into one with room for them.
theorem copied_ok (ha : a.Allocated s) {words : Nat} (hwords : a.height * INITIAL_WIDTH ≤ words) :
    ∃ t : Sheet, a.copied words = .ok t ∧ t.words = words ∧
      ∀ px < INITIAL_WIDTH, ∀ py < a.height,
        t.word (py * INITIAL_WIDTH + px) = s.word (py * INITIAL_WIDTH + px) := by
  have hread : ∀ y < a.height, ∀ x < INITIAL_WIDTH,
      s.read (y * INITIAL_WIDTH + x) = .ok (s.word (y * INITIAL_WIDTH + x)) := by
    intro y hy x hx
    have hin : y * INITIAL_WIDTH + x < a.height * INITIAL_WIDTH + 0 := cell_lt hx hy
    rw [Nat.add_zero, ← ha.words] at hin
    rw [Sheet.read, if_pos hin]
  have hvalue : ∀ y < a.height, ∀ x < INITIAL_WIDTH, ∃ v,
      s.read (y * INITIAL_WIDTH + x) = .ok v :=
    fun y hy x hx => ⟨_, hread y hy x hx⟩
  have hplace : ∀ y < a.height, ∀ x < INITIAL_WIDTH,
      y * INITIAL_WIDTH + x = (0 + y) * INITIAL_WIDTH + 0 + x := by
    intro y _ x _
    rw [Nat.zero_add, Nat.add_zero]
  have hrows := writeRows_ok INITIAL_WIDTH 0 0 hvalue hplace ⟨words, fun _ => 0⟩
    (Nat.le_of_eq (Nat.zero_add _)) (by rwa [Nat.zero_add])
  rw [AtlasData.copied, AtlasData.sheet, ha.atlas, ha.width]
  refine ⟨_, hrows, rfl, fun px hpx py hpy => ?_⟩
  have hcell := paintRect_in 0 0 (fun _ => 0#32)
    (fun y x => written (s.read (y * INITIAL_WIDTH + x))) (Nat.le_of_eq (Nat.zero_add _)) hpx
    hpy
  rw [Nat.zero_add, Nat.zero_add, hread py hpy px hpx] at hcell
  exact hcell

theorem enlarged_ok (ha : a.Allocated s) (hy : a.y ≤ 65537) (hh : h < 2 ^ 32) :
    a.enlarged grants h = .error .refused ∧
        ¬ ((∀ n, grants n = true) ∧ (a.shelf.grow 512 h).height ≤ 65536) ∨
      ∃ a' t, a.enlarged grants h = .ok a' ∧ a'.Allocated t ∧
        a'.shelf = a.shelf.grow 512 h ∧ ∀ px < INITIAL_WIDTH, ∀ py < a.height, a'.pixel px py = a.pixel px py := by
  have hroom : ¬ UINT64_MAX - h < a.y := by
    unfold UINT64_MAX
    omega
  rw [AtlasData.enlarged, if_neg hroom, ha.shelf_eq]
  dsimp only
  by_cases hfits : a.y + h ≤ a.height
  · right
    have hstays : ¬ a.height < a.y + h := Nat.not_lt.mpr hfits
    rw [if_pos hfits, Shelf.grow, if_neg hstays]
    exact ⟨a, s, rfl, ha, ha.shelf_eq, fun _ _ _ _ => rfl⟩
  have hsmall : ¬ UINT64_MAX - 511 < a.y + h := by
    unfold UINT64_MAX
    omega
  rw [if_neg hfits, if_neg hsmall, Shelf.grow, if_pos (Nat.lt_of_not_le hfits)]
  have hunit : 0 < 512 := by decide
  have hcovers : a.y + h ≤ (a.y + h + 511) / 512 * 512 := roundUp_ge hunit _
  generalize hnew : (a.y + h + 511) / 512 * 512 = newHeight at *
  have hlimit : newHeight ≤ 65536 → ¬ UINT64_MAX / a.width < newHeight ∧
      ¬ UINT64_MAX / 4 < a.width * newHeight ∧
        ¬ AOSBF_ATLAS_MAX_HEIGHT < a.width * newHeight * 4 := by
    rw [ha.width]
    unfold UINT64_MAX AOSBF_ATLAS_MAX_HEIGHT INITIAL_WIDTH
    omega
  rw [if_neg (Nat.not_lt.mpr hcovers)]
  by_cases hwidth : UINT64_MAX / a.width < newHeight
  · rw [if_pos hwidth]
    exact Or.inl ⟨rfl, fun h => (hlimit (hnew ▸ h.2)).1 hwidth⟩
  rw [if_neg hwidth]
  by_cases hpixels : UINT64_MAX / 4 < a.width * newHeight
  · rw [if_pos hpixels]
    exact Or.inl ⟨rfl, fun h => (hlimit (hnew ▸ h.2)).2.1 hpixels⟩
  rw [if_neg hpixels]
  by_cases hsize : AOSBF_ATLAS_MAX_HEIGHT < a.width * newHeight * 4
  · rw [if_pos hsize]
    exact Or.inl ⟨rfl, fun h => (hlimit (hnew ▸ h.2)).2.2 hsize⟩
  rw [if_neg hsize]
  by_cases hgrant : grants a.calls = true
  · right
    rw [if_neg (not_not.mpr hgrant)]
    have hwords : a.height * INITIAL_WIDTH ≤ a.width * newHeight := by
      rw [ha.width, Nat.mul_comm]
      exact Nat.mul_le_mul_left _ (by omega)
    obtain ⟨t, hcopied, ht, hkept⟩ := copied_ok ha hwords
    rw [hcopied]
    refine ⟨_, t, rfl, ⟨rfl, ha.width, ?_, ?_⟩, ?_, fun px hpx py hpy => ?_⟩
    · rw [ht, ha.width, Nat.mul_comm]
    · rw [ha.width] at hsize
      unfold AOSBF_ATLAS_MAX_HEIGHT INITIAL_WIDTH at hsize
      show newHeight ≤ 65536
      omega
    · rw [← hnew]
      rfl
    · rw [ha.pixel_eq, ← hkept px hpx py hpy, ← ha.width]
      rfl
  · rw [if_pos hgrant]
    exact Or.inl ⟨rfl, fun h => hgrant (h.1 a.calls)⟩

-- The pixels of the glyph, where there is room for it.
theorem drawn_ok (ha : a.Allocated s) {b : Bitmap} {format : Format} (hb : b.Backed)
    (hx : a.x + b.width.toNat ≤ INITIAL_WIDTH) (hy : a.y + b.height.toNat ≤ a.height)
    (hsize : b.pitch.toNat * b.height.toNat ≤ b.size)
    (hpitch : format.minimumPitch b.width.toNat ≤ b.pitch.toNat) :
    a.drawn b format = .ok { s with
      word := paintRect INITIAL_WIDTH a.x a.y s.word (fun y x => written
        (format.pixel (fun i => readByte b.bytes (y * b.pitch.toNat + i)) x))
        b.width.toNat b.height.toNat } := by
  have hheight := ha.height
  have hvalue : ∀ y < b.height.toNat, ∀ x < b.width.toNat, ∃ v,
      format.pixel (fun i => readByte b.bytes (y * b.pitch.toNat + i)) x = .ok v := by
    intro y hy x hx
    apply pixel_ok _ hx
    intro i hi
    have hin : y * b.pitch.toNat + i < b.height.toNat * b.pitch.toNat + 0 :=
      cell_lt (Nat.lt_of_lt_of_le hi hpitch) hy
    rw [Nat.add_zero, Nat.mul_comm b.height.toNat] at hin
    exact readByte_ok (Nat.lt_of_lt_of_le hin (Nat.le_trans hsize hb))
  have hplace : ∀ y < b.height.toNat, ∀ x < b.width.toNat,
      ((a.y + y) * INITIAL_WIDTH + (a.x + x)) % 2 ^ 64 = (a.y + y) * INITIAL_WIDTH + a.x + x := by
    intro y hy x hx
    unfold INITIAL_WIDTH at *
    omega
  rw [AtlasData.drawn, AtlasData.sheet, ha.atlas, ha.width]
  apply writeRows_ok INITIAL_WIDTH a.x a.y hvalue hplace s hx
  rw [ha.words]
  exact Nat.mul_le_mul_right _ hy

-- The atlas with the glyph in it, and the next place behind it.
def AtlasData.placed (a : AtlasData) (b : Bitmap) (t : Sheet) : AtlasData :=
  { a with
    atlas := some t
    x := a.x + (b.width.toNat + PADDING)
    rowHeight := max a.rowHeight b.height.toNat }

theorem AtlasData.Allocated.placed_shelf (ha : a.Allocated s) (b : Bitmap) (t : Sheet) :
    (a.placed b t).shelf = a.shelf.place b.width.toNat b.height.toNat := by
  rw [ha.shelf_eq]
  rfl

-- Only the pixels of the glyph change, and they are those of the bitmap.
theorem placed_ok (ha : a.Allocated s) {b : Bitmap} {format : Format} (hb : b.Backed)
    (hformat : Format.ofCode b.format = some format)
    (hx : a.x + b.width.toNat ≤ INITIAL_WIDTH) (hy : a.y + b.height.toNat ≤ a.height)
    (hsize : b.pitch.toNat * b.height.toNat ≤ b.size)
    (hpitch : format.minimumPitch b.width.toNat ≤ b.pitch.toNat) :
    ∃ t, a.drawn b format = .ok t ∧ (a.placed b t).Allocated t ∧
      (∀ px < INITIAL_WIDTH, ∀ py,
        ¬ (⟨a.x, a.y, b.width.toNat, b.height.toNat⟩ : Rect).Mem px py →
          (a.placed b t).pixel px py = a.pixel px py) ∧
      ∀ x < b.width.toNat, ∀ y < b.height.toNat,
        (a.placed b t).pixel (a.x + x) (a.y + y) = b.pixel x y := by
  refine ⟨_, drawn_ok ha hb hx hy hsize hpitch, ⟨rfl, ha.width, ha.words, ha.height⟩, ?_, ?_⟩
  · intro px hpx py hout
    rw [ha.pixel_eq, AtlasData.pixel, AtlasData.placed, ha.width]
    apply paintRect_out _ _ _ _ hx hpx
    simp only [Rect.Mem] at hout
    omega
  · intro x hx' y hy'
    rw [AtlasData.pixel, AtlasData.placed, ha.width, Bitmap.pixel, hformat]
    exact paintRect_in _ _ _ _ hx hx' hy'

-- With the atlas opened up for it, the glyph goes where the packing says.
theorem placed_spot (ha : a.Allocated s) {b : Bitmap} {format : Format} (hb : b.Backed)
    (hformat : Format.ofCode b.format = some format) {shelf : Shelf}
    (hshelf : a.shelf = (shelf.fit INITIAL_WIDTH b.width.toNat).grow 512 b.height.toNat)
    (hrow : shelf.y + shelf.rowHeight ≤ shelf.height) (hwide : b.width.toNat ≤ INITIAL_WIDTH)
    (hsize : b.pitch.toNat * b.height.toNat ≤ b.size)
    (hpitch : format.minimumPitch b.width.toNat ≤ b.pitch.toNat) :
    shelf.spot INITIAL_WIDTH b.extent = ⟨a.x, a.y, b.width.toNat, b.height.toNat⟩ ∧
      ∃ t, a.drawn b format = .ok t ∧ (a.placed b t).Packed t ∧
        (a.placed b t).shelf = shelf.add INITIAL_WIDTH 512 b.extent ∧
        (∀ px < INITIAL_WIDTH, ∀ py, ¬ (shelf.spot INITIAL_WIDTH b.extent).Mem px py →
          (a.placed b t).pixel px py = a.pixel px py) ∧
        ∀ x < b.width.toNat, ∀ y < b.height.toNat,
          (a.placed b t).pixel (a.x + x) (a.y + y) = b.pixel x y := by
  have hx : a.x = (shelf.spot INITIAL_WIDTH b.extent).x := by
    have h := congrArg Shelf.x hshelf
    rwa [ha.shelf_eq, Shelf.grow_x] at h
  have hy : a.y = (shelf.spot INITIAL_WIDTH b.extent).y := by
    have h := congrArg Shelf.y hshelf
    rwa [ha.shelf_eq, Shelf.grow_y] at h
  have hspot : shelf.spot INITIAL_WIDTH b.extent = ⟨a.x, a.y, b.width.toNat, b.height.toNat⟩ := by
    rw [hx, hy]
    rfl
  have hcolumns : a.x + b.width.toNat ≤ INITIAL_WIDTH := by
    rw [hx]
    exact Shelf.fit_within hwide
  have hrows : a.y + b.height.toNat ≤ a.height := by
    have hcovers : (shelf.fit INITIAL_WIDTH b.width.toNat).y + b.height.toNat ≤
        ((shelf.fit INITIAL_WIDTH b.width.toNat).grow 512 b.height.toNat).height :=
      Shelf.grow_covers (by decide)
    rw [← hshelf, ha.shelf_eq] at hcovers
    rwa [hy]
  obtain ⟨t, hdrawn, hplaced, hout, hin⟩ :=
    placed_ok ha hb hformat hcolumns hrows hsize hpitch
  have hadd : (a.placed b t).shelf = shelf.add INITIAL_WIDTH 512 b.extent := by
    rw [ha.placed_shelf, hshelf]
    rfl
  have hrow' : (shelf.add INITIAL_WIDTH 512 b.extent).y +
      (shelf.add INITIAL_WIDTH 512 b.extent).rowHeight ≤
        (shelf.add INITIAL_WIDTH 512 b.extent).height :=
    Shelf.row_le_add (by decide) hrow _
  rw [hspot]
  refine ⟨rfl, t, hdrawn, ⟨hplaced, ?_⟩, hadd, hout, hin⟩
  rwa [← hadd] at hrow'

-- A call places the glyph as the packing says and leaves the pixels around it alone. It does
-- not refuse one without a reason.
theorem convert_ok (hready : a.Ready) {b : Bitmap} (hb : b.Backed) :
    convertGlyphToRgba8 grants a b = .error .refused ∧ ¬ Accepts grants a b ∨
      ∃ a' t, convertGlyphToRgba8 grants a b =
          .ok (a', (a.shelf.spot INITIAL_WIDTH b.extent).x, (a.shelf.spot INITIAL_WIDTH b.extent).y) ∧
        a'.Packed t ∧ b.width.toNat ≤ INITIAL_WIDTH ∧
        a'.shelf = a.shelf.add INITIAL_WIDTH 512 b.extent ∧
        (∀ px < INITIAL_WIDTH, ∀ py < a.shelf.height,
          ¬ (a.shelf.spot INITIAL_WIDTH b.extent).Mem px py → a'.pixel px py = a.pixel px py) ∧
        ∀ x < b.width.toNat, ∀ y < b.height.toNat,
          a'.pixel ((a.shelf.spot INITIAL_WIDTH b.extent).x + x)
            ((a.shelf.spot INITIAL_WIDTH b.extent).y + y) = b.pixel x y := by
  rw [convertGlyphToRgba8]
  by_cases hempty : b.width = 0 ∨ b.height = 0
  · rw [if_pos hempty]
    exact Or.inl ⟨rfl, fun h => hempty.elim h.regular.columns h.regular.rows⟩
  rw [if_neg hempty]
  rcases opened_ok grants hready with ⟨hopened, hno⟩ | ⟨a₁, s₁, hopened, hp, hshelf, hpixels⟩
  · rw [hopened]
    exact Or.inl ⟨rfl, fun h => hno h.granted⟩
  rw [hopened, bind_ok, ← hshelf]
  rcases fitted_ok (w := b.width.toNat) hp with ⟨hfitted, hno⟩ | ⟨hwide, a₂, hfitted, h₂, hy, hfit⟩
  · rw [hfitted]
    exact Or.inl ⟨rfl, fun h => hno ⟨h.regular.narrow, hshelf ▸ h.column⟩⟩
  rw [hfitted, bind_ok]
  rcases enlarged_ok grants h₂ hy b.height.isLt with
    ⟨henlarged, hno⟩ | ⟨a₃, s₃, henlarged, h₃, hgrow, hkept⟩
  · rw [henlarged]
    refine Or.inl ⟨rfl, fun h => hno ⟨h.granted, ?_⟩⟩
    rw [hfit, hshelf]
    exact h.height
  rw [henlarged, bind_ok]
  by_cases hsize : b.pitch = 0 ∨ b.size < b.pitch.toNat * b.height.toNat
  · rw [if_pos hsize]
    refine Or.inl ⟨rfl, fun h => ?_⟩
    rcases hsize with hpitch | hsize
    · exact h.regular.pitch_ne hpitch
    · exact Nat.not_lt.mpr h.regular.size hsize
  rw [if_neg hsize]
  cases hformat : Format.ofCode b.format with
  | none =>
      refine Or.inl ⟨rfl, fun h => ?_⟩
      obtain ⟨format, hsome, -⟩ := h.regular.format
      rw [hformat] at hsome
      cases hsome
  | some format =>
      dsimp only
      by_cases hpitch : b.pitch.toNat < format.minimumPitch b.width.toNat
      · rw [if_pos hpitch]
        refine Or.inl ⟨rfl, fun h => ?_⟩
        obtain ⟨format', hsome, hfits⟩ := h.regular.format
        rw [hformat] at hsome
        cases hsome
        exact Nat.not_lt.mpr hfits hpitch
      rw [if_neg hpitch]
      right
      have hrow : a₁.shelf.y + a₁.shelf.rowHeight ≤ a₁.shelf.height := by
        rw [hp.shelf_eq]
        exact hp.row
      have hold : a₂.height = a₁.shelf.height := by
        have h := congrArg Shelf.height hfit
        rwa [h₂.shelf_eq, Shelf.fit_height] at h
      obtain ⟨hspot, t, hdrawn, hpacked, hadd, hout, hin⟩ :=
        placed_spot h₃ hb hformat (by rw [hgrow, hfit]) hrow hwide (by omega)
          (Nat.le_of_not_lt hpitch)
      rw [hdrawn, bind_ok]
      refine ⟨a₃.placed b t, t, ?_, hpacked, hwide, hadd, fun px hpx py hpy hmem => ?_, ?_⟩
      · rw [hspot]
        rfl
      · calc
          (a₃.placed b t).pixel px py = a₃.pixel px py := hout px hpx py hmem
          _ = a₂.pixel px py := hkept px hpx py (Nat.lt_of_lt_of_eq hpy hold.symm)
          _ = a₁.pixel px py := by rw [h₂.pixel_eq, hp.pixel_eq]
          _ = a.pixel px py := hpixels px py
      · rw [hspot]
        exact hin

end Steps

section Runs

variable {grants : Nat → Bool} {a : AtlasData} {bitmaps : List Bitmap}

-- Calls all of which succeed.
structure AcceptsAll (grants : Nat → Bool) (a : AtlasData) (bitmaps : List Bitmap) : Prop where
  granted : ∀ n, grants n = true
  column : a.shelf.x ≤ INITIAL_WIDTH + 1
  regular : ∀ b ∈ bitmaps, b.Regular
  height : ((bitmaps.map Bitmap.extent).foldl (Shelf.add INITIAL_WIDTH 512) a.shelf).height ≤ 65536

-- The atlas has the pixels of the bitmap where the rectangle is.
structure AtlasData.Shows (a : AtlasData) (b : Bitmap) (r : Rect) : Prop where
  extent : (r.w, r.h) = b.extent
  within : r.Within INITIAL_WIDTH a.shelf.height
  pixels : ∀ x < b.width.toNat, ∀ y < b.height.toNat, a.pixel (r.x + x) (r.y + y) = b.pixel x y

theorem AcceptsAll.first {b : Bitmap} (h : AcceptsAll grants a (b :: bitmaps)) :
    Accepts grants a b := by
  refine ⟨h.granted, h.column, h.regular b List.mem_cons_self, ?_⟩
  exact Nat.le_trans (Shelf.height_le_foldl (by decide) _ _) h.height

theorem AcceptsAll.rest {b : Bitmap} (h : AcceptsAll grants a (b :: bitmaps)) {a' : AtlasData}
    (hshelf : a'.shelf = a.shelf.add INITIAL_WIDTH 512 b.extent) :
    AcceptsAll grants a' bitmaps := by
  refine ⟨h.granted, ?_, fun b hb => h.regular b (List.mem_cons_of_mem _ hb), ?_⟩
  · rw [hshelf]
    exact Shelf.add_column (h.regular b List.mem_cons_self).narrow
  · rw [hshelf]
    exact h.height

-- The calls place their glyphs as the packing says, and what is settled stays as it is.
theorem convertAll_spots (grants : Nat → Bool) (hready : a.Ready)
    (hbacked : ∀ b ∈ bitmaps, b.Backed) :
    convertAll grants a bitmaps = .error .refused ∧ ¬ AcceptsAll grants a bitmaps ∨
      ∃ a', convertAll grants a bitmaps =
          .ok (a', a.shelf.spots INITIAL_WIDTH 512 (bitmaps.map Bitmap.extent)) ∧
        (bitmaps = [] ∧ a' = a ∨ ∃ s, a'.Packed s) ∧
        (∀ b ∈ bitmaps, b.width.toNat ≤ INITIAL_WIDTH) ∧
        a'.shelf = (bitmaps.map Bitmap.extent).foldl (Shelf.add INITIAL_WIDTH 512) a.shelf ∧
        (∀ px < INITIAL_WIDTH, ∀ py < a.shelf.height, a.shelf.Settled px py →
          a'.pixel px py = a.pixel px py) ∧
        List.Forall₂ a'.Shows bitmaps
          (a.shelf.spots INITIAL_WIDTH 512 (bitmaps.map Bitmap.extent)) := by
  induction bitmaps generalizing a with
  | nil =>
      exact Or.inr ⟨a, rfl, Or.inl ⟨rfl, rfl⟩, by simp, rfl, fun _ _ _ _ _ => rfl, List.Forall₂.nil⟩
  | cons b bitmaps ih =>
      rw [convertAll]
      rcases convert_ok grants hready (hbacked b List.mem_cons_self) with
        ⟨hconvert, hno⟩ | ⟨a₁, t, hconvert, hp, hwide, hshelf, hkept, hshown⟩
      · rw [hconvert]
        exact Or.inl ⟨rfl, fun h => hno h.first⟩
      rw [hconvert, bind_ok]
      rcases ih (Or.inr ⟨t, hp⟩) (fun b hb => hbacked b (List.mem_cons_of_mem _ hb)) with
        ⟨hrest, hno⟩ | ⟨a', hrest, hleft, hwides, hshelf', hkept', hshows⟩
      · dsimp only
        rw [hrest]
        exact Or.inl ⟨rfl, fun h => hno (h.rest hshelf)⟩
      right
      dsimp only
      rw [hrest, bind_ok, hshelf]
      have hfirst : a.shelf.spot INITIAL_WIDTH b.extent ∈
          a.shelf.spots INITIAL_WIDTH 512 [b.extent] := List.mem_cons_self
      refine ⟨a', rfl, Or.inr ?_, ?_, ?_, fun px hpx py hpy hs => ?_, .cons ⟨rfl, ?_, ?_⟩ ?_⟩
      · rcases hleft with ⟨-, rfl⟩ | hp'
        · exact ⟨t, hp⟩
        · exact hp'
      · exact List.forall_mem_cons.mpr ⟨hwide, hwides⟩
      · rw [hshelf', hshelf]
        rfl
      · have hnot := hs.not_mem hfirst
        have hheight : a.shelf.height ≤ a₁.shelf.height := by
          rw [hshelf]
          exact Shelf.height_le_add (by decide) _
        rw [hkept' px hpx py (Nat.lt_of_lt_of_le hpy hheight) (hshelf ▸ hs.add _)]
        exact hkept px hpx py hpy hnot
      · obtain ⟨hcolumns, hrows⟩ :=
          Shelf.spots_within (by decide) (List.forall_mem_singleton.mpr hwide) hfirst
        refine ⟨hcolumns, Nat.le_trans hrows ?_⟩
        rw [hshelf', hshelf]
        exact Shelf.height_le_foldl (by decide) _ _
      · intro x hx y hy
        have hmem : (a.shelf.spot INITIAL_WIDTH b.extent).Mem
            ((a.shelf.spot INITIAL_WIDTH b.extent).x + x)
            ((a.shelf.spot INITIAL_WIDTH b.extent).y + y) :=
          ⟨Nat.le_add_right _ _, Nat.add_lt_add_left hx _, Nat.le_add_right _ _,
            Nat.add_lt_add_left hy _⟩
        obtain ⟨hcolumns, hrows⟩ :=
          Shelf.spots_within (by decide) (List.forall_mem_singleton.mpr hwide) hfirst
        rw [List.foldl_cons, List.foldl_nil, ← hshelf] at hrows
        rw [hkept' _ (Nat.lt_of_lt_of_le hmem.2.1 hcolumns) _
          (Nat.lt_of_lt_of_le hmem.2.2.2 hrows) (hshelf ▸ Shelf.add_settles hmem)]
        exact hshown x hx y hy
      · rwa [← hshelf]

end Runs

-- Whatever is allocated, no pixel is written outside, the glyphs are apart from each other and
-- inside the atlas, and later calls leave them as they are.
theorem convertAll_packs (grants : Nat → Bool) (calls : Nat) (bitmaps : List Bitmap)
    (hbacked : ∀ b ∈ bitmaps, b.Backed) :
    convertAll grants (emptyAtlas calls) bitmaps ≠ .error .outside ∧
      ∀ a rects, convertAll grants (emptyAtlas calls) bitmaps = .ok (a, rects) →
        rects.Pairwise Rect.Apart ∧ (∀ r ∈ rects, r.Within a.width a.height) ∧
          ∀ (later : List Bitmap), (∀ b ∈ later, b.Backed) → ∀ a' rects',
            convertAll grants a later = .ok (a', rects') → ∀ r ∈ rects, ∀ px py,
              r.Mem px py → a'.pixel px py = a.pixel px py := by
  have hunit : 0 < 512 := by decide
  rcases convertAll_spots grants (Or.inl ⟨calls, rfl⟩) hbacked with
    ⟨hrun, -⟩ | ⟨a, hrun, hleft, hwides, hshelf, -⟩
  · rw [hrun]
    exact ⟨by simp, fun _ _ hno => nomatch hno⟩
  rw [hrun]
  refine ⟨by simp, fun a₁ rects h => ?_⟩
  cases h
  have hsizes : ∀ size ∈ bitmaps.map Bitmap.extent, size.1 ≤ INITIAL_WIDTH :=
    List.forall_mem_map.mpr hwides
  have hinside : ∀ r ∈ (emptyAtlas calls).shelf.spots INITIAL_WIDTH 512 (bitmaps.map Bitmap.extent),
      r.Within INITIAL_WIDTH a.shelf.height := by
    intro r hr
    rw [hshelf]
    exact Shelf.spots_within hunit hsizes hr
  refine ⟨Shelf.spots_apart _ _, fun r hr => ?_, fun later hlater a' rects' hlast r hr px py hmem => ?_⟩
  · rcases hleft with ⟨rfl, -⟩ | ⟨s, hp⟩
    · cases hr
    · have hwithin := hinside r hr
      rwa [← hp.width, hp.shelf_eq] at hwithin
  · have hready : a.Ready := by
      rcases hleft with ⟨-, rfl⟩ | hp
      · exact Or.inl ⟨calls, rfl⟩
      · exact Or.inr hp
    have hsettled : a.shelf.Settled px py := by
      rw [hshelf]
      exact Shelf.spots_settled hr hmem
    obtain ⟨hcolumns, hrows⟩ := hinside r hr
    obtain ⟨hpx, hpx', hpy, hpy'⟩ := hmem
    rcases convertAll_spots grants hready hlater with
      ⟨hno, -⟩ | ⟨a₂, hagain, -, -, -, hkept, -⟩
    · rw [hno] at hlast
      cases hlast
    · rw [hagain] at hlast
      cases hlast
      exact hkept px (by omega) py (by omega) hsettled

-- One pixel in one bit.
def dot : Bitmap := ⟨[0x80], 1, 1, 1, 1, 1⟩

theorem convertAll_packs_dots :
    ∃ a, convertAll (fun _ => true) (emptyAtlas 0) [dot, dot] =
        .ok (a, [⟨0, 0, 1, 1⟩, ⟨2, 0, 1, 1⟩]) ∧
      a.pixel 0 0 = 0xFFFFFFFF ∧
      ∀ r ∈ [(⟨0, 0, 1, 1⟩ : Rect), ⟨2, 0, 1, 1⟩], r.Within a.width a.height := by
  have hbacked : ∀ b ∈ [dot, dot], b.Backed := by
    unfold Bitmap.Backed
    decide
  refine ⟨_, rfl, ?_, ?_⟩
  · rfl
  · exact ((convertAll_packs (fun _ => true) 0 [dot, dot] hbacked).2 _ _ rfl).2.1

end AosKernel.Font
