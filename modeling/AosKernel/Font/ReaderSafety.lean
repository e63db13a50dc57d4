import AosKernel.Font.Packing
import AosKernel.Font.Reader

namespace AosKernel.Font

open Verif

-- A record that the first pass lets through.
def FontGlyph.Passes (size : Nat) (hdr : FontHdr) (g : FontGlyph) : Prop :=
  g.Skipped ∨ g.bitmapInside size hdr = true

-- How many whole records there are from the start of the table to the end of the file.
def wholeRecords (data : List UInt8) (hdr : FontHdr) : Nat :=
  (data.length - hdr.glyphs.toNat) / sizeofFontGlyph

-- The record behind them starts in the file and ends outside.
def LastCut (data : List UInt8) (hdr : FontHdr) : Prop :=
  (data.length - hdr.glyphs.toNat) % sizeofFontGlyph < 34

-- Files that name more glyphs than there are records, and have the first pass get to the last
-- one, which is cut off.
structure TableCut (data : List UInt8) : Prop where
  size : sizeofFontHdr ≤ data.length
  accepted : (fontHdr data).accepted data.length = true
  starts : (fontHdr data).glyphs.toNat ≤ data.length
  more : wholeRecords data (fontHdr data) < (fontHdr data).glyphCount.toNat
  cut : LastCut data (fontHdr data)
  passes : ∀ i < wholeRecords data (fontHdr data),
    (fontGlyph data (glyphOffset (fontHdr data) i)).Passes data.length (fontHdr data)

section FirstPass

variable {data : List UInt8} {hdr : FontHdr} {i rest count : Nat}

theorem readGlyph_whole (hstarts : hdr.glyphs.toNat ≤ data.length)
    (hi : i < wholeRecords data hdr) :
    readGlyph data (glyphOffset hdr i) = .ok (fontGlyph data (glyphOffset hdr i)) := by
  have hin : glyphOffset hdr i + 34 ≤ data.length := by
    unfold wholeRecords sizeofFontGlyph at hi
    unfold glyphOffset sizeofFontGlyph
    omega
  rw [readGlyph, if_pos hin]

theorem readGlyph_cut (hstarts : hdr.glyphs.toNat ≤ data.length) (hcut : LastCut data hdr) :
    readGlyph data (glyphOffset hdr (wholeRecords data hdr)) = .error .outside := by
  have hout : ¬ glyphOffset hdr (wholeRecords data hdr) + 34 ≤ data.length := by
    unfold LastCut sizeofFontGlyph at hcut
    unfold glyphOffset wholeRecords sizeofFontGlyph
    omega
  rw [readGlyph, if_neg hout]

theorem readGlyph_last (hstarts : hdr.glyphs.toNat ≤ data.length) (hcut : ¬ LastCut data hdr) :
    ∃ g, readGlyph data (glyphOffset hdr (wholeRecords data hdr)) = .ok g := by
  have hin : glyphOffset hdr (wholeRecords data hdr) + 34 ≤ data.length := by
    unfold LastCut sizeofFontGlyph at hcut
    unfold glyphOffset wholeRecords sizeofFontGlyph
    omega
  rw [readGlyph, if_pos hin]
  exact ⟨_, rfl⟩

theorem glyphOffset_le (hstarts : hdr.glyphs.toNat ≤ data.length) (hi : i ≤ wholeRecords data hdr) :
    glyphOffset hdr i ≤ data.length := by
  unfold wholeRecords sizeofFontGlyph at hi
  unfold glyphOffset sizeofFontGlyph
  omega

-- Up to the end of the table the first pass looks at the record.
theorem countGlyphs_at (hstarts : hdr.glyphs.toNat ≤ data.length)
    (hi : i ≤ wholeRecords data hdr) :
    countGlyphs data hdr (rest + 1) i count = (do
      let g ← readGlyph data (glyphOffset hdr i)
      if g.Skipped then countGlyphs data hdr rest (i + 1) (count - 1)
      else if ¬ g.bitmapInside data.length hdr then .error .refused
      else countGlyphs data hdr rest (i + 1) count) := by
  have hslots : ¬ (data.length - hdr.glyphs.toNat) / sizeofFontGlyph < i := Nat.not_lt.mpr hi
  rw [countGlyphs, if_neg (Nat.not_lt.mpr hstarts), if_neg hslots,
    if_neg (Nat.not_lt.mpr (glyphOffset_le hstarts hi))]

theorem countGlyphs_step {g : FontGlyph} (hstarts : hdr.glyphs.toNat ≤ data.length)
    (hi : i ≤ wholeRecords data hdr) (hread : readGlyph data (glyphOffset hdr i) = .ok g) :
    countGlyphs data hdr (rest + 1) i count =
      if g.Skipped then countGlyphs data hdr rest (i + 1) (count - 1)
      else if ¬ g.bitmapInside data.length hdr then .error .refused
      else countGlyphs data hdr rest (i + 1) count := by
  rw [countGlyphs_at hstarts hi, hread, bind_ok]

theorem countGlyphs_behind (hi : wholeRecords data hdr < i) :
    countGlyphs data hdr rest i count ≠ .error .outside := by
  have hslots : (data.length - hdr.glyphs.toNat) / sizeofFontGlyph < i := hi
  cases rest with
  | zero => simp [countGlyphs]
  | succ rest =>
      rw [countGlyphs, if_pos hslots]
      split <;> simp

-- Exactly then the first pass reads outside: it gets to the record that is cut off.
theorem countGlyphs_outside_iff (hstarts : hdr.glyphs.toNat ≤ data.length)
    (hi : i ≤ wholeRecords data hdr) :
    countGlyphs data hdr rest i count = .error .outside ↔
      wholeRecords data hdr < i + rest ∧ LastCut data hdr ∧
        ∀ j, i ≤ j → j < wholeRecords data hdr →
          (fontGlyph data (glyphOffset hdr j)).Passes data.length hdr := by
  induction rest generalizing i count with
  | zero =>
      refine iff_of_false (by simp [countGlyphs]) ?_
      rintro ⟨hlt, -⟩
      omega
  | succ rest ih =>
      rcases Nat.lt_or_eq_of_le hi with hlt | rfl
      · rw [countGlyphs_step hstarts hi (readGlyph_whole hstarts hlt)]
        have hsplit : (∀ j, i ≤ j → j < wholeRecords data hdr →
            (fontGlyph data (glyphOffset hdr j)).Passes data.length hdr) ↔
            (fontGlyph data (glyphOffset hdr i)).Passes data.length hdr ∧
              ∀ j, i + 1 ≤ j → j < wholeRecords data hdr →
                (fontGlyph data (glyphOffset hdr j)).Passes data.length hdr := by
          constructor
          · exact fun h => ⟨h i (Nat.le_refl i) hlt, fun j hj => h j (Nat.le_of_succ_le hj)⟩
          · rintro ⟨hfirst, hlater⟩ j hj
            rcases Nat.lt_or_eq_of_le hj with hj | rfl
            · exact hlater j hj
            · exact fun _ => hfirst
        rw [hsplit, ← Nat.add_assoc, Nat.add_right_comm]
        by_cases hskip : (fontGlyph data (glyphOffset hdr i)).Skipped
        · rw [if_pos hskip, ih hlt]
          have hpasses : (fontGlyph data (glyphOffset hdr i)).Passes data.length hdr := Or.inl hskip
          simp only [hpasses, true_and]
        · rw [if_neg hskip]
          by_cases hinside : (fontGlyph data (glyphOffset hdr i)).bitmapInside data.length hdr = true
          · rw [if_neg (not_not.mpr hinside), ih hlt]
            have hpasses : (fontGlyph data (glyphOffset hdr i)).Passes data.length hdr :=
              Or.inr hinside
            simp only [hpasses, true_and]
          · rw [if_pos hinside]
            refine iff_of_false (by simp) ?_
            rintro ⟨-, -, hpasses, -⟩
            exact hpasses.elim hskip hinside
      · by_cases hcut : LastCut data hdr
        · rw [countGlyphs_at hstarts hi, readGlyph_cut hstarts hcut, bind_error]
          exact iff_of_true rfl ⟨by omega, hcut, fun j hj hlt => absurd hlt (Nat.not_lt.mpr hj)⟩
        · obtain ⟨g, hread⟩ := readGlyph_last hstarts hcut
          refine iff_of_false ?_ fun h => hcut h.2.1
          rw [countGlyphs_step hstarts hi hread]
          split
          · exact countGlyphs_behind (Nat.lt_succ_self _)
          split
          · simp
          · exact countGlyphs_behind (Nat.lt_succ_self _)

-- A table that starts behind the file is not looked at.
theorem countGlyphs_none (hstarts : data.length < hdr.glyphs.toNat) :
    countGlyphs data hdr rest i count ≠ .error .outside := by
  cases rest with
  | zero => simp [countGlyphs]
  | succ rest =>
      rw [countGlyphs, if_pos hstarts]
      simp

theorem readGlyph_eq {off : Nat} {g : FontGlyph} (h : readGlyph data off = .ok g) :
    g = fontGlyph data off := by
  unfold readGlyph at h
  split at h
  · cases h
    rfl
  · cases h

-- How many of the records are used.
def usedGlyphs (data : List UInt8) (hdr : FontHdr) : Nat → Nat → Nat
  | 0, _ => 0
  | rest + 1, i =>
      (if (fontGlyph data (glyphOffset hdr i)).Skipped then 0 else 1) +
        usedGlyphs data hdr rest (i + 1)

-- A record the second pass can rely on.
def Checked (data : List UInt8) (hdr : FontHdr) (i : Nat) : Prop :=
  readGlyph data (glyphOffset hdr i) = .ok (fontGlyph data (glyphOffset hdr i)) ∧
    (fontGlyph data (glyphOffset hdr i)).Passes data.length hdr

theorem countGlyphs_ok {n : Nat} (h : countGlyphs data hdr rest i count = .ok n)
    (hrest : rest ≤ count) :
    (∀ j, i ≤ j → j < i + rest → Checked data hdr j) ∧
      n + rest = count + usedGlyphs data hdr rest i := by
  induction rest generalizing i count with
  | zero =>
      cases h
      exact ⟨fun j hj hlt => absurd hlt (Nat.not_lt.mpr hj), rfl⟩
  | succ rest ih =>
      rw [countGlyphs] at h
      split at h
      · cases h
      split at h
      · cases h
      split at h
      · cases h
      cases hread : readGlyph data (glyphOffset hdr i) with
      | error e =>
          rw [hread] at h
          cases h
      | ok g =>
          obtain rfl := readGlyph_eq hread
          rw [hread, bind_ok] at h
          have hcons : ∀ (hpasses : (fontGlyph data (glyphOffset hdr i)).Passes data.length hdr)
              (hlater : ∀ j, i + 1 ≤ j → j < i + 1 + rest → Checked data hdr j) j, i ≤ j →
              j < i + (rest + 1) → Checked data hdr j := by
            intro hpasses hlater j hj hlt
            rcases Nat.lt_or_eq_of_le hj with hj | rfl
            · exact hlater j hj (by omega)
            · exact ⟨hread, hpasses⟩
          rw [usedGlyphs]
          by_cases hskip : (fontGlyph data (glyphOffset hdr i)).Skipped
          · rw [if_pos hskip] at h
            obtain ⟨hlater, hn⟩ := ih h (by omega)
            refine ⟨hcons (Or.inl hskip) hlater, ?_⟩
            rw [if_pos hskip]
            omega
          · rw [if_neg hskip] at h
            split at h
            · cases h
            · rename_i hinside
              obtain ⟨hlater, hn⟩ := ih h (by omega)
              refine ⟨hcons (Or.inr (not_not.mp hinside)) hlater, ?_⟩
              rw [if_neg hskip]
              omega

end FirstPass

section SecondPass

variable (grants : Nat → Bool) {data : List UInt8} {hdr : FontHdr} {i rest count : Nat}
  {c : Converted} {g : FontGlyph}

def PyrionGlyph.rect (g : PyrionGlyph) : Rect :=
  ⟨g.atlasX.toNat, g.atlasY.toNat, g.width.toNat, g.height.toNat⟩

-- A glyph that is not empty, in an atlas of `height` rows.
structure PyrionGlyph.Inside (height : Nat) (g : PyrionGlyph) : Prop where
  columns : 0 < g.width.toNat
  rows : 0 < g.height.toNat
  within : g.rect.Within INITIAL_WIDTH height

-- What the second pass keeps: the glyphs are in the atlas, and the fallback is one of them.
structure Converted.Sound (c : Converted) : Prop where
  ready : c.glyphs = [] ∧ (∃ calls, c.atlas = emptyAtlas calls) ∨ ∃ s, c.atlas.Packed s
  inside : ∀ g ∈ c.glyphs, g.Inside c.atlas.shelf.height
  fallback : ∀ g, c.fallbackGlyph = some g → g ∈ c.glyphs

-- The bitmap of a glyph that passes is in the file.
theorem glyphBitmap_backed (hinside : g.bitmapInside data.length hdr = true) :
    (glyphBitmap data hdr g).Backed := by
  unfold FontGlyph.bitmapInside at hinside
  split at hinside
  · cases hinside
  split at hinside
  · cases hinside
  split at hinside
  · cases hinside
  split at hinside
  · cases hinside
  split at hinside
  · cases hinside
  · show g.bitmapSize ≤ (data.drop (hdr.atlas.toNat + g.sourceOffset)).length
    rw [List.length_drop]
    omega

theorem toNat_extended (v : BitVec 16) : (v.setWidth 32).toNat = v.toNat := by
  rw [BitVec.toNat_setWidth]
  exact Nat.mod_eq_of_lt (Nat.lt_trans v.isLt (by decide))

theorem glyphBitmap_extent (data : List UInt8) (hdr : FontHdr) (g : FontGlyph) :
    (glyphBitmap data hdr g).extent = (g.width.toNat, g.height.toNat) := by
  simp only [Bitmap.extent, glyphBitmap, toNat_extended]

theorem toNat_pos {w : Nat} {v : BitVec w} (h : v ≠ 0) : 0 < v.toNat := by
  apply Nat.pos_of_ne_zero
  intro hzero
  exact h (BitVec.eq_of_toNat_eq (by simpa using hzero))

-- A place in the atlas fits into the fields of a glyph.
theorem pyrionGlyph_rect (hused : ¬ g.Skipped) {x y height : Nat}
    (hwithin : (⟨x, y, g.width.toNat, g.height.toNat⟩ : Rect).Within INITIAL_WIDTH height)
    (hheight : height ≤ 65536) :
    (pyrionGlyph g x y).rect = ⟨x, y, g.width.toNat, g.height.toNat⟩ := by
  have hx : x + g.width.toNat ≤ INITIAL_WIDTH := hwithin.1
  have hy : y + g.height.toNat ≤ height := hwithin.2
  have hrow : 0 < g.height.toNat := toNat_pos fun hzero => hused (Or.inr (Or.inr hzero))
  unfold INITIAL_WIDTH at hx
  simp only [PyrionGlyph.rect, pyrionGlyph, BitVec.toNat_ofNat]
  rw [Nat.mod_eq_of_lt (by omega), Nat.mod_eq_of_lt (by omega)]

theorem Converted.Sound.atlas_ready (hc : c.Sound) : c.atlas.Ready := by
  rcases hc.ready with ⟨-, hempty⟩ | hp
  · exact Or.inl hempty
  · exact Or.inr hp

-- What the second pass has made once a glyph is converted.
def Converted.push (c : Converted) (g : FontGlyph) (a : AtlasData) (x y : Nat) : Converted where
  atlas := a
  glyphs := c.glyphs ++ [pyrionGlyph g x y]
  fallbackGlyph := if g.isFallback = 0 then c.fallbackGlyph else some (pyrionGlyph g x y)

theorem Converted.Sound.push (hc : c.Sound) {a : AtlasData} {s : Sheet} {x y : Nat}
    (hp : a.Packed s) (hgrows : c.atlas.shelf.height ≤ a.shelf.height) (hused : ¬ g.Skipped)
    (hwithin : (⟨x, y, g.width.toNat, g.height.toNat⟩ : Rect).Within INITIAL_WIDTH a.shelf.height) :
    (c.push g a x y).Sound := by
  have hheight : a.shelf.height ≤ 65536 := by
    rw [hp.shelf_eq]
    exact hp.height
  refine ⟨Or.inr ⟨s, hp⟩, fun g' hg' => ?_, fun g' hg' => ?_⟩
  · rcases List.mem_append.mp hg' with hold | hnew
    · obtain ⟨hwide, hhigh, hcolumns, hrows⟩ := hc.inside g' hold
      exact ⟨hwide, hhigh, hcolumns, Nat.le_trans hrows hgrows⟩
    · rw [List.mem_singleton.mp hnew]
      refine ⟨toNat_pos fun hzero => hused (Or.inr (Or.inl hzero)),
        toNat_pos fun hzero => hused (Or.inr (Or.inr hzero)), ?_⟩
      rw [pyrionGlyph_rect hused hwithin hheight]
      exact hwithin
  · unfold Converted.push at hg'
    dsimp only at hg'
    split at hg'
    · exact List.mem_append_left _ (hc.fallback g' hg')
    · cases hg'
      exact List.mem_append_right _ List.mem_cons_self

theorem convert_sound (hc : c.Sound) (hused : ¬ g.Skipped)
    (hinside : g.bitmapInside data.length hdr = true) :
    convertGlyphToRgba8 grants c.atlas (glyphBitmap data hdr g) = .error .refused ∨
      ∃ a x y, convertGlyphToRgba8 grants c.atlas (glyphBitmap data hdr g) = .ok (a, x, y) ∧
        (c.push g a x y).Sound := by
  rcases convert_ok grants hc.atlas_ready (glyphBitmap_backed hinside) with
    ⟨hconvert, -⟩ | ⟨a, s, hconvert, hp, hwide, hshelf, -⟩
  · exact Or.inl hconvert
  refine Or.inr ⟨a, _, _, hconvert, hc.push hp ?_ hused ?_⟩
  · rw [hshelf]
    exact Shelf.height_le_add (by decide) _
  · have hspot : c.atlas.shelf.spot INITIAL_WIDTH (glyphBitmap data hdr g).extent ∈
        c.atlas.shelf.spots INITIAL_WIDTH 512 [(glyphBitmap data hdr g).extent] :=
      List.mem_cons_self
    have hwithin := Shelf.spots_within (by decide) (List.forall_mem_singleton.mpr hwide) hspot
    rw [List.foldl_cons, List.foldl_nil, ← hshelf, Shelf.spot, glyphBitmap_extent] at hwithin
    rw [Shelf.spot, glyphBitmap_extent]
    exact hwithin

-- The second pass stays in the file, and it fills exactly the entries that were counted.
theorem convertGlyphs_ok (hchecked : ∀ j, i ≤ j → j < i + rest → Checked data hdr j)
    (hc : c.Sound) (hcount : c.glyphs.length + usedGlyphs data hdr rest i = count) :
    convertGlyphs grants data hdr count rest i c = .error .refused ∨
      ∃ c', convertGlyphs grants data hdr count rest i c = .ok c' ∧ c'.Sound ∧
        c'.glyphs.length = count := by
  induction rest generalizing i c with
  | zero => exact Or.inr ⟨c, rfl, hc, hcount⟩
  | succ rest ih =>
      obtain ⟨hread, hpasses⟩ := hchecked i (Nat.le_refl i) (by omega)
      have hlater : ∀ j, i + 1 ≤ j → j < i + 1 + rest → Checked data hdr j :=
        fun j hj hlt => hchecked j (by omega) (by omega)
      rw [usedGlyphs] at hcount
      rw [convertGlyphs, hread, bind_ok]
      by_cases hskip : (fontGlyph data (glyphOffset hdr i)).Skipped
      · rw [if_pos hskip] at hcount ⊢
        exact ih hlater hc (by omega)
      · rw [if_neg hskip] at hcount ⊢
        rcases convert_sound grants hc hskip (hpasses.resolve_left hskip) with
          hconvert | ⟨a, x, y, hconvert, hsound⟩
        · rw [hconvert]
          exact Or.inl rfl
        · have hroom : ¬ count ≤ c.glyphs.length := by omega
          rw [hconvert, bind_ok]
          dsimp only
          rw [if_neg hroom]
          apply ih hlater hsound
          show (c.glyphs ++ [_]).length + usedGlyphs data hdr rest (i + 1) = count
          rw [List.length_append, List.length_singleton]
          omega

end SecondPass

-- A font that can be drawn with: its glyphs are in its atlas, which is as large as it says.
structure PyrionFont.Drawable (font : PyrionFont) : Prop where
  atlas : ∃ s, font.atlas = some s ∧ s.words = font.w.toNat * font.h.toNat
  width : font.w.toNat = INITIAL_WIDTH
  height : font.h.toNat ≤ 65536
  glyphs : ∀ g ∈ font.glyphs, g.Inside font.h.toNat
  fallback : ∀ g, font.fallbackGlyph = some g → g ∈ font.glyphs
  count : font.glyphs.length = font.glyphCount

theorem sound_start : Converted.Sound ⟨emptyAtlas 1, [], none⟩ :=
  ⟨Or.inl ⟨rfl, 1, rfl⟩, by simp, by simp⟩

-- What becomes of a file whose first pass ends.
theorem aosbfToPyrionFont_counted (grants : Nat → Bool) {data : List UInt8} {count : Nat}
    (hsize : ¬ data.length < sizeofFontHdr)
    (haccepted : (fontHdr data).accepted data.length = true)
    (hcount : countGlyphs data (fontHdr data) (fontHdr data).glyphCount.toNat 0
      (fontHdr data).glyphCount.toNat = .ok count) :
    aosbfToPyrionFont grants data = .error .refused ∨
      ∃ font, aosbfToPyrionFont grants data = .ok font ∧ font.Drawable := by
  obtain ⟨hchecked, hused⟩ := countGlyphs_ok hcount (Nat.le_refl _)
  rw [aosbfToPyrionFont, if_neg hsize]
  dsimp only
  rw [if_neg (not_not.mpr haccepted), hcount, bind_ok]
  split
  · exact Or.inl rfl
  split
  · exact Or.inl rfl
  split
  · exact Or.inl rfl
  rename_i hsome _
  have hlength : (0 : Nat) + usedGlyphs data (fontHdr data) (fontHdr data).glyphCount.toNat 0 =
      count := by omega
  rcases convertGlyphs_ok grants hchecked sound_start hlength with hno | ⟨c, hc, hsound, hall⟩
  · rw [hno]
    exact Or.inl rfl
  rw [hc, bind_ok]
  refine Or.inr ⟨_, rfl, ?_⟩
  rcases hsound.ready with ⟨hnil, -⟩ | ⟨s, hp⟩
  · rw [hnil] at hall
    exact absurd hall.symm (by simpa using hsome)
  · have hheight : (BitVec.ofNat 32 c.atlas.height).toNat = c.atlas.height := by
      rw [BitVec.toNat_ofNat]
      exact Nat.mod_eq_of_lt (Nat.lt_of_le_of_lt hp.height (by decide))
    have hwidth : (BitVec.ofNat 32 c.atlas.width).toNat = INITIAL_WIDTH := by
      rw [hp.width]
      rfl
    have hinside := hsound.inside
    rw [hp.shelf_eq] at hinside
    refine ⟨⟨s, hp.atlas, ?_⟩, hwidth, ?_, ?_, hsound.fallback, hall⟩
    · rw [hwidth, hheight, hp.words, Nat.mul_comm]
    · rw [hheight]
      exact hp.height
    · rw [hheight]
      exact hinside

theorem aosbfToPyrionFont_drawable {grants : Nat → Bool} {data : List UInt8} {font : PyrionFont}
    (h : aosbfToPyrionFont grants data = .ok font) : font.Drawable := by
  by_cases hsize : data.length < sizeofFontHdr
  · rw [aosbfToPyrionFont, if_pos hsize] at h
    cases h
  by_cases haccepted : (fontHdr data).accepted data.length = true
  · cases hcount : countGlyphs data (fontHdr data) (fontHdr data).glyphCount.toNat 0
        (fontHdr data).glyphCount.toNat with
    | error e =>
        rw [aosbfToPyrionFont, if_neg hsize] at h
        dsimp only at h
        rw [if_neg (not_not.mpr haccepted), hcount, bind_error] at h
        cases h
    | ok count =>
        rcases aosbfToPyrionFont_counted grants hsize haccepted hcount with hno | ⟨_, hfont, hd⟩
        · rw [hno] at h
          cases h
        · rw [hfont] at h
          cases h
          exact hd
  · rw [aosbfToPyrionFont, if_neg hsize] at h
    dsimp only at h
    rw [if_pos haccepted] at h
    cases h

-- Exactly then the reader stays inside: no record of the table is cut off by the end of the
-- file where the first pass gets to it.
theorem aosbfToPyrionFont_inside_iff (grants : Nat → Bool) (data : List UInt8) :
    aosbfToPyrionFont grants data ≠ .error .outside ↔ ¬ TableCut data := by
  rw [not_iff_not]
  by_cases hsize : data.length < sizeofFontHdr
  · rw [aosbfToPyrionFont, if_pos hsize]
    refine iff_of_false (by simp) fun hcut => ?_
    exact absurd hsize (Nat.not_lt.mpr hcut.size)
  by_cases haccepted : (fontHdr data).accepted data.length = true
  · have hpass : TableCut data ↔ countGlyphs data (fontHdr data) (fontHdr data).glyphCount.toNat 0
        (fontHdr data).glyphCount.toNat = .error .outside := by
      by_cases hstarts : (fontHdr data).glyphs.toNat ≤ data.length
      · rw [countGlyphs_outside_iff hstarts (Nat.zero_le _), Nat.zero_add]
        constructor
        · exact fun h => ⟨h.more, h.cut, fun j _ => h.passes j⟩
        · rintro ⟨hmore, hcut, hpasses⟩
          exact ⟨Nat.le_of_not_lt hsize, haccepted, hstarts, hmore, hcut,
            fun j hj => hpasses j (Nat.zero_le j) hj⟩
      · refine iff_of_false (fun h => hstarts h.starts) ?_
        exact countGlyphs_none (Nat.lt_of_not_le hstarts)
    rw [hpass]
    cases hcount : countGlyphs data (fontHdr data) (fontHdr data).glyphCount.toNat 0
        (fontHdr data).glyphCount.toNat with
    | error e =>
        rw [aosbfToPyrionFont, if_neg hsize]
        dsimp only
        rw [if_neg (not_not.mpr haccepted), hcount, bind_error]
        cases e <;> simp
    | ok count =>
        refine iff_of_false ?_ (by simp)
        rcases aosbfToPyrionFont_counted grants hsize haccepted hcount with hno | ⟨font, hfont, -⟩
        · rw [hno]
          simp
        · rw [hfont]
          simp
  · rw [aosbfToPyrionFont, if_neg hsize]
    dsimp only
    rw [if_pos haccepted]
    refine iff_of_false (by simp) fun hcut => ?_
    exact haccepted hcut.accepted

-- The header of a font with one glyph, the record of which is right behind the header.
def oneGlyphHdr (atlas : BitVec 64) : FontHdr where
  magic := AOS_BITMAP_FONT_MAGIC
  version := AOS_BITMAP_FONT_VERSION
  revision := AOS_BITMAP_FONT_REVISION
  stringTable := 0
  fontName := 0
  fontFamilyName := 0
  authorName := 0
  fontSize := 8
  lineGap := 0
  lineHeight := 8
  ascent := 8
  descent := 0
  comments := 0
  commentCount := 0
  totalW := 1
  totalH := 1
  atlas := atlas
  glyphs := 112
  glyphCount := 1

-- Where the file ends there, the record is read behind it.
theorem record_behind_file :
    aosbfToPyrionFont (fun _ => true) (oneGlyphHdr 0).bytes = .error .outside := by
  rfl

end AosKernel.Font
