import AosKernel.Font.ReaderSafety
import AosKernel.Gpu.BuiltinText

namespace AosKernel.Gpu

open Verif AosKernel.Font

-- The framebuffer of a context, 32 bits for each pixel.
structure FbInfo where
  width : BitVec 32
  height : BitVec 32
  sheet : Sheet

-- The framebuffer that pyrion_create_viewport_res allocates. Its size is a product of 32 bits.
def pyrionCreateViewportRes (granted : Bool) (viewport : Viewport) : Option FbInfo :=
  let words := (viewport.width * viewport.height).toNat
  if words = 0 ∨ granted = false then none
  else some ⟨viewport.width, viewport.height, ⟨words, fun _ => 0⟩⟩

-- A context without acceleration. It is ready if it is valid, usable and has a device.
structure SoftwareCtx where
  ready : Bool
  viewport : Viewport
  fb : FbInfo
  flushNeeded : Bool

def channel (v : BitVec 32) (i : Nat) : Nat := (v >>> (8 * i)).toNat % 256

def srcAlpha (src : BitVec 32) : Nat := channel src 3

def mix (s d alpha : Nat) : Nat := (s * alpha + d * (0xFF - alpha) + 0x7F) / 0xFF

-- A pixel that is not transparent over the one that is there.
def blend (src dst : BitVec 32) : BitVec 32 :=
  let sa := srcAlpha src
  let mixed := fun i => UInt8.ofNat (mix (channel src i) (channel dst i) sa)
  if sa = 0xFF then
    rgbaWord (UInt8.ofNat (channel src 0)) (UInt8.ofNat (channel src 1))
      (UInt8.ofNat (channel src 2)) 0xFF
  else
    rgbaWord (mixed 0) (mixed 1) (mixed 2)
      (UInt8.ofNat (sa + (channel dst 3 * (0xFF - sa) + 0x7F) / 0xFF))

def drawPixel (src : BitVec 32) (place : Nat) (s : Sheet) : Except Stop Sheet :=
  if srcAlpha src = 0 then .ok s
  else do
    let dst ← s.read place
    s.write place (blend src dst)

section

variable (fb : FbInfo) (font : Font.PyrionFont) (atlas : Sheet) (g : Font.PyrionGlyph)
  (drawX drawY : BitVec 32)

-- A row or column of the glyph, `n` of which it has.
def clampSource (d n : Nat) : Nat := if n ≤ d then (n + (2 ^ 32 - 1)) % 2 ^ 32 else d

-- The word of the atlas that pixel (dx, dy) of the glyph is drawn from.
def sourcePlace (dx dy : Nat) : Nat :=
  ((g.atlasY.toNat + clampSource dy g.height.toNat) * font.w.toNat + g.atlasX.toNat) % 2 ^ 32 +
    clampSource dx g.width.toNat

-- The word of the framebuffer it is drawn to. Addresses have 64 bits.
def destPlace (dx dy : Nat) : Nat :=
  ((drawY.toNat + dy) * fb.width.toNat + drawX.toNat + dx) * 4 % 2 ^ 64 / 4

def drawColumns (dy : Nat) : Nat → Sheet → Except Stop Sheet :=
  times fun dx s => do
    let src ← atlas.read (sourcePlace font g dx dy)
    drawPixel src (destPlace fb drawX drawY dx dy) s

def drawLines (cols : Nat) : Nat → Sheet → Except Stop Sheet :=
  times fun dy s => drawColumns fb font atlas g drawX drawY dy cols s

end

-- Where the glyph is drawn with its bearings, unless that is negative or fails the check
-- against the viewport.
def drawPlace (viewport : Viewport) (x y : BitVec 32) (g : Font.PyrionGlyph) :
    Option (BitVec 32 × BitVec 32) :=
  let drawXI := (x.toNat : Int) + g.bearingX.toInt
  let drawYI := (y.toNat : Int) - g.bearingY.toInt
  if drawXI < 0 ∨ drawYI < 0 then none
  else
    let drawX := BitVec.ofInt 32 drawXI
    let drawY := BitVec.ofInt 32 drawYI
    if drawX < viewport.x ∨ drawY < viewport.y ∨
        viewport.x + viewport.width < drawX + BitVec.ofNat 32 (max g.width.toNat 1) ∨
        viewport.y + viewport.height < drawY + BitVec.ofNat 32 (max g.height.toNat 1) then none
    else some (drawX, drawY)

-- pyrion_draw_char_virtio for a context without acceleration and a font at its base size: the
-- scale is 1, so that the products with it are the numbers themselves.
def pyrionDrawCharSoftware (ctx : SoftwareCtx) (x y codepoint : BitVec 32) (font : Font.PyrionFont)
    (g : Font.PyrionGlyph) : Except Stop SoftwareCtx :=
  if ctx.ready = false then .error .refused
  else if g.valid = false ∨ g.codepoint ≠ codepoint then .error .refused
  else
    match drawPlace ctx.viewport x y g with
    | none => .error .refused
    | some (drawX, drawY) =>
        match font.atlas with
        | none => .error .refused
        | some atlas => do
            let sheet ← drawLines ctx.fb font atlas g drawX drawY (max g.width.toNat 1)
              (max g.height.toNat 1) ctx.fb.sheet
            .ok { ctx with fb := { ctx.fb with sheet := sheet }, flushNeeded := true }

-- Pixel (dx, dy) of the glyph is not transparent.
def ShowsAt (font : Font.PyrionFont) (atlas : Sheet) (g : Font.PyrionGlyph) (dx dy : Nat) : Prop :=
  srcAlpha (atlas.word ((g.atlasY.toNat + dy) * font.w.toNat + g.atlasX.toNat + dx)) ≠ 0

-- Where the glyph passes the check, its pixels that are not transparent have room, each at
-- its place on the screen in a framebuffer that has the size of the viewport.
def HasRoomAt (viewport : Viewport) (font : Font.PyrionFont) (g : Font.PyrionGlyph)
    (x y : BitVec 32) : Prop :=
  ∀ drawX drawY, drawPlace viewport x y g = some (drawX, drawY) →
    ∀ atlas, font.atlas = some atlas →
      ∀ dx < g.width.toNat, ∀ dy < g.height.toNat, ShowsAt font atlas g dx dy →
        ((drawY.toNat + dy) * viewport.width.toNat + drawX.toNat + dx) % 2 ^ 62 <
          (viewport.width * viewport.height).toNat

section Loops

variable (fb : FbInfo) {font : Font.PyrionFont} {atlas s : Sheet} {g : Font.PyrionGlyph}
  (drawX drawY : BitVec 32) {dx dy words : Nat}

theorem drawPixel_ok {src : BitVec 32} {place : Nat} (h : srcAlpha src ≠ 0 → place < s.words) :
    ∃ t, drawPixel src place s = .ok t ∧ t.words = s.words := by
  by_cases hclear : srcAlpha src = 0
  · rw [drawPixel, if_pos hclear]
    exact ⟨s, rfl, rfl⟩
  · rw [drawPixel, if_neg hclear, Sheet.read, if_pos (h hclear), bind_ok, Sheet.write,
      if_pos (h hclear)]
    exact ⟨_, rfl, rfl⟩

theorem drawPixel_outside {src : BitVec 32} {place : Nat}
    (h : ¬ (srcAlpha src ≠ 0 → place < s.words)) : drawPixel src place s = .error .outside := by
  simp only [Classical.not_imp] at h
  obtain ⟨hshows, hout⟩ := h
  rw [drawPixel, if_neg hshows, Sheet.read, if_neg hout]
  rfl

theorem clampSource_of_lt {d n : Nat} (h : d < n) : clampSource d n = d :=
  if_neg (Nat.not_le.mpr h)

-- The pixels of a glyph are read inside the atlas.
theorem sourcePlace_ok (hfont : font.Drawable) (hatlas : font.atlas = some atlas)
    (hg : g.Inside font.h.toNat) (hdx : dx < g.width.toNat) (hdy : dy < g.height.toNat) :
    sourcePlace font g dx dy = (g.atlasY.toNat + dy) * font.w.toNat + g.atlasX.toNat + dx ∧
      sourcePlace font g dx dy < atlas.words := by
  obtain ⟨t, ht, hwords⟩ := hfont.atlas
  obtain rfl := Option.some.inj (hatlas.symm.trans ht)
  have hcolumns : g.atlasX.toNat + g.width.toNat ≤ INITIAL_WIDTH := hg.within.1
  have hrows : g.atlasY.toNat + g.height.toNat ≤ font.h.toNat := hg.within.2
  have hheight := hfont.height
  have hplace : sourcePlace font g dx dy =
      (g.atlasY.toNat + dy) * font.w.toNat + g.atlasX.toNat + dx := by
    rw [sourcePlace, clampSource_of_lt hdx, clampSource_of_lt hdy, hfont.width, Nat.mod_eq_of_lt]
    unfold INITIAL_WIDTH at *
    omega
  refine ⟨hplace, ?_⟩
  have hcell : (g.atlasY.toNat + dy) * INITIAL_WIDTH + (g.atlasX.toNat + dx) <
      font.h.toNat * INITIAL_WIDTH + 0 := cell_lt (by omega) (by omega)
  rw [hplace, hwords, hfont.width, Nat.mul_comm INITIAL_WIDTH]
  omega

-- Pixel (dx, dy) is transparent or drawn inside the framebuffer.
def FineAt (fb : FbInfo) (font : Font.PyrionFont) (atlas : Sheet) (g : Font.PyrionGlyph)
    (drawX drawY : BitVec 32) (words dx dy : Nat) : Prop :=
  ShowsAt font atlas g dx dy → destPlace fb drawX drawY dx dy < words

variable (hfont : font.Drawable) (hatlas : font.atlas = some atlas) (hg : g.Inside font.h.toNat)

include hfont hatlas hg

theorem drawColumns_ok (hdy : dy < g.height.toNat) (hs : s.words = words)
    (hfine : ∀ dx < g.width.toNat, FineAt fb font atlas g drawX drawY words dx dy) :
    ∃ t, drawColumns fb font atlas g drawX drawY dy g.width.toNat s = .ok t ∧ t.words = words := by
  refine times_ok (fun t : Sheet => t.words = words) (fun dx hdx t ht => ?_) hs
  obtain ⟨hplace, hin⟩ := sourcePlace_ok hfont hatlas hg hdx hdy
  rw [Sheet.read, if_pos hin, bind_ok, hplace, ← ht]
  apply drawPixel_ok
  rw [ht]
  exact hfine dx hdx

theorem drawColumns_outside (hdy : dy < g.height.toNat) (hs : s.words = words)
    (hbad : ¬ ∀ dx < g.width.toNat, FineAt fb font atlas g drawX drawY words dx dy) :
    drawColumns fb font atlas g drawX drawY dy g.width.toNat s = .error .outside := by
  apply (times_error_iff (fun t : Sheet => t.words = words)
    (fun dx => FineAt fb font atlas g drawX drawY words dx dy) hs ?_ ?_).mpr
  · simpa only [not_forall, exists_prop] using hbad
  · intro dx hdx hfine t ht
    obtain ⟨hplace, hin⟩ := sourcePlace_ok hfont hatlas hg hdx hdy
    rw [Sheet.read, if_pos hin, bind_ok, hplace, ← ht]
    apply drawPixel_ok
    rw [ht]
    exact hfine
  · intro dx hdx hbad t ht
    obtain ⟨hplace, hin⟩ := sourcePlace_ok hfont hatlas hg hdx hdy
    rw [Sheet.read, if_pos hin, bind_ok, hplace]
    apply drawPixel_outside
    rw [ht]
    exact hbad

-- Exactly then drawing leaves the framebuffer: a pixel that shows has no room.
theorem drawLines_outside_iff (hs : fb.sheet.words = words) :
    drawLines fb font atlas g drawX drawY g.width.toNat g.height.toNat fb.sheet = .error .outside ↔
      ∃ dy < g.height.toNat,
        ¬ ∀ dx < g.width.toNat, FineAt fb font atlas g drawX drawY words dx dy := by
  apply times_error_iff (fun t : Sheet => t.words = words) _ hs
  · exact fun dy hdy hfine t ht => drawColumns_ok fb drawX drawY hfont hatlas hg hdy ht hfine
  · exact fun dy hdy hbad t ht => drawColumns_outside fb drawX drawY hfont hatlas hg hdy ht hbad

end Loops

-- A framebuffer of 32-bit words is addressed with 64 bits.
theorem destPlace_eq (fb : FbInfo) (drawX drawY : BitVec 32) (dx dy : Nat) :
    destPlace fb drawX drawY dx dy =
      ((drawY.toNat + dy) * fb.width.toNat + drawX.toNat + dx) % 2 ^ 62 := by
  unfold destPlace
  omega

theorem hasRoomAt_iff {viewport : Viewport} {font : Font.PyrionFont} {atlas : Sheet}
    {g : Font.PyrionGlyph} {x y drawX drawY : BitVec 32} (fb : FbInfo)
    (hplace : drawPlace viewport x y g = some (drawX, drawY)) (hatlas : font.atlas = some atlas)
    (hwidth : fb.width = viewport.width) :
    HasRoomAt viewport font g x y ↔
      ¬ ∃ dy < g.height.toNat, ¬ ∀ dx < g.width.toNat, FineAt fb font atlas g drawX drawY
        (viewport.width * viewport.height).toNat dx dy := by
  simp only [not_exists, not_and, not_not, FineAt, destPlace_eq, hwidth]
  constructor
  · intro h dy hdy dx hdx hshows
    exact h drawX drawY hplace atlas hatlas dx hdx dy hdy hshows
  · intro h X Y hplace' atlas' hatlas' dx hdx dy hdy hshows
    cases hplace.symm.trans hplace'
    obtain rfl := Option.some.inj (hatlas.symm.trans hatlas')
    exact h dy hdy dx hdx hshows

-- The framebuffer of a viewport, whatever has been drawn so far.
def FbInfo.showing (fb : FbInfo) (word : Nat → BitVec 32) : FbInfo :=
  { fb with sheet := { fb.sheet with word := word } }

-- Exactly then a glyph of a font is drawn inside the framebuffer of its context.
theorem drawChar_inside_iff {grants : Nat → Bool} {data : List UInt8} {font : Font.PyrionFont}
    (hfont : aosbfToPyrionFont grants data = .ok font) {g : Font.PyrionGlyph} (hg : g ∈ font.glyphs)
    (granted : Bool) (viewport : Viewport) {fb : FbInfo}
    (hfb : pyrionCreateViewportRes granted viewport = some fb) (word : Nat → BitVec 32)
    (ready flushNeeded : Bool) (x y codepoint : BitVec 32) :
    pyrionDrawCharSoftware ⟨ready, viewport, fb.showing word, flushNeeded⟩ x y codepoint font g ≠
        .error .outside ↔
      (ready = true → g.valid = true → g.codepoint = codepoint →
        HasRoomAt viewport font g x y) := by
  have hdrawable := aosbfToPyrionFont_drawable hfont
  obtain ⟨atlas, hatlas, -⟩ := hdrawable.atlas
  have hinside := hdrawable.glyphs g hg
  have hsize : fb.width = viewport.width ∧
      fb.sheet.words = (viewport.width * viewport.height).toNat := by
    unfold pyrionCreateViewportRes at hfb
    dsimp only at hfb
    split at hfb
    · cases hfb
    · cases hfb
      exact ⟨rfl, rfl⟩
  rw [pyrionDrawCharSoftware]
  dsimp only
  by_cases hready : ready = false
  · rw [if_pos hready]
    exact iff_of_true (by simp) fun hyes => by simp [hready] at hyes
  rw [if_neg hready]
  by_cases hother : g.valid = false ∨ g.codepoint ≠ codepoint
  · rw [if_pos hother]
    refine iff_of_true (by simp) fun _ hvalid hcode => ?_
    rcases hother with hinvalid | hcode'
    · rw [hinvalid] at hvalid
      cases hvalid
    · exact absurd hcode hcode'
  rw [if_neg hother]
  simp only [not_or, Bool.not_eq_false, not_not] at hready hother
  simp only [hready, hother, true_imp_iff]
  cases hplace : drawPlace viewport x y g with
  | none => exact iff_of_true (by simp) (by simp [HasRoomAt, hplace])
  | some place =>
      obtain ⟨drawX, drawY⟩ := place
      have hloop := drawLines_outside_iff (fb.showing word) drawX drawY hdrawable hatlas hinside
        hsize.2
      rw [hasRoomAt_iff (fb.showing word) hplace hatlas hsize.1, ← hloop, hatlas,
        Nat.max_eq_left hinside.columns, Nat.max_eq_left hinside.rows]
      dsimp only
      cases hrun : drawLines (fb.showing word) font atlas g drawX drawY g.width.toNat
          g.height.toNat (fb.showing word).sheet with
      | error e => cases e <;> simp [bind_error]
      | ok t => simp [bind_ok]

theorem drawPlace_eq {viewport : Viewport} {g : Font.PyrionGlyph} {x y drawX drawY : BitVec 32}
    (h : drawPlace viewport x y g = some (drawX, drawY)) :
    0 ≤ (x.toNat : Int) + g.bearingX.toInt ∧ 0 ≤ (y.toNat : Int) - g.bearingY.toInt ∧
      drawX = BitVec.ofInt 32 (x.toNat + g.bearingX.toInt) ∧
      drawY = BitVec.ofInt 32 (y.toNat - g.bearingY.toInt) ∧
      drawX + BitVec.ofNat 32 (max g.width.toNat 1) ≤ viewport.x + viewport.width ∧
      drawY + BitVec.ofNat 32 (max g.height.toNat 1) ≤ viewport.y + viewport.height := by
  unfold drawPlace at h
  dsimp only at h
  split at h
  · cases h
  split at h
  · cases h
  · cases h
    rename_i hpositive hin
    simp only [not_or, Int.not_lt, BitVec.not_lt] at hpositive hin
    exact ⟨hpositive.1, hpositive.2, rfl, rfl, hin.2.2.1, hin.2.2.2⟩

-- A sum that is not cut off is compared as it is.
theorem end_le {v : Int} {n : Nat} {limit : BitVec 32} (hv : 0 ≤ v) (hn : 0 < n)
    (hend : v + n < 2 ^ 32) (h : BitVec.ofInt 32 v + BitVec.ofNat 32 (max n 1) ≤ 0 + limit) :
    (BitVec.ofInt 32 v).toNat + n ≤ limit.toNat := by
  obtain ⟨k, rfl⟩ := Int.eq_ofNat_of_zero_le hv
  have hzero : 0 + limit = limit := BitVec.zero_add limit
  rw [hzero, Nat.max_eq_left hn, BitVec.le_def, BitVec.toNat_add, BitVec.ofInt_natCast,
    BitVec.toNat_ofNat, BitVec.toNat_ofNat] at h
  rw [BitVec.ofInt_natCast, BitVec.toNat_ofNat]
  omega

-- There is room wherever a glyph goes in a viewport at the origin, as long as no sum and no
-- product is cut off.
theorem hasRoomAt_origin {viewport : Viewport} {font : Font.PyrionFont} {g : Font.PyrionGlyph}
    {x y : BitVec 32} (hx : viewport.x = 0) (hy : viewport.y = 0)
    (hwords : viewport.width.toNat * viewport.height.toNat < 2 ^ 32)
    (hright : (x.toNat : Int) + g.bearingX.toInt + g.width.toNat < 2 ^ 32)
    (hbottom : (y.toNat : Int) - g.bearingY.toInt + g.height.toNat < 2 ^ 32) :
    HasRoomAt viewport font g x y := by
  intro drawX drawY hplace atlas _ dx hdx dy hdy _
  obtain ⟨hleft, htop, rfl, rfl, hcolumns, hrows⟩ := drawPlace_eq hplace
  rw [hx] at hcolumns
  rw [hy] at hrows
  have hcolumn := end_le hleft (Nat.zero_lt_of_lt hdx) hright hcolumns
  have hrow := end_le htop (Nat.zero_lt_of_lt hdy) hbottom hrows
  rw [BitVec.toNat_mul, Nat.mod_eq_of_lt hwords]
  generalize (BitVec.ofInt 32 (x.toNat + g.bearingX.toInt)).toNat = left at *
  generalize (BitVec.ofInt 32 (y.toNat - g.bearingY.toInt)).toNat = top at *
  have hcell : (top + dy) * viewport.width.toNat + (left + dx) <
      viewport.height.toNat * viewport.width.toNat + 0 := cell_lt (by omega) (by omega)
  rw [Nat.mul_comm viewport.height.toNat] at hcell
  exact Nat.lt_of_le_of_lt (Nat.mod_le _ _) (by omega)

-- A font of one opaque pixel.
def onePixelFont : List UInt8 :=
  (oneGlyphHdr 148).bytes ++
    FontGlyph.bytes ⟨65, 0, 0, 1, 1, 1, 0, 0, 1, 0, Format.mono.code, 0, 1⟩ ++ [0x80]

def onePixelGlyph : Font.PyrionGlyph := ⟨65, 0, 0, 1, 1, 0, 0, 1, 0, true⟩

def stopOf {α : Type} : Except Stop α → Option Stop
  | .ok _ => none
  | .error e => some e

theorem onePixelFont_ok : ∃ font, aosbfToPyrionFont (fun _ => true) onePixelFont = .ok font ∧
    font.glyphs = [onePixelGlyph] := by
  have hglyphs : (aosbfToPyrionFont (fun _ => true) onePixelFont).toOption.map (·.glyphs) =
      some [onePixelGlyph] := by
    decide +kernel
  cases hfont : aosbfToPyrionFont (fun _ => true) onePixelFont with
  | error e =>
      rw [hfont] at hglyphs
      cases hglyphs
  | ok font =>
      rw [hfont] at hglyphs
      exact ⟨font, rfl, Option.some.inj hglyphs⟩

theorem drawChar_inside_iff_origin :
    ∃ font fb, aosbfToPyrionFont (fun _ => true) onePixelFont = .ok font ∧
      pyrionCreateViewportRes true ⟨0, 0, 4, 4⟩ = some fb ∧
      pyrionDrawCharSoftware ⟨true, ⟨0, 0, 4, 4⟩, fb, false⟩ 3 3 65 font onePixelGlyph ≠
        .error .outside := by
  obtain ⟨font, hfont, hglyphs⟩ := onePixelFont_ok
  have hg : onePixelGlyph ∈ font.glyphs := by
    rw [hglyphs]
    exact List.mem_cons_self
  refine ⟨font, _, hfont, rfl, ?_⟩
  apply (drawChar_inside_iff hfont hg true ⟨0, 0, 4, 4⟩ rfl (fun _ => 0) true false 3 3 65).mpr
  intro _ _ _
  exact hasRoomAt_origin rfl rfl (by decide) (by decide) (by decide)

-- A viewport that starts lower than it is high: the place of the glyph is not counted from its
-- corner.
theorem dot_behind_framebuffer :
    ∃ font fb, aosbfToPyrionFont (fun _ => true) onePixelFont = .ok font ∧
      pyrionCreateViewportRes true ⟨0, 4, 4, 4⟩ = some fb ∧
      pyrionDrawCharSoftware ⟨true, ⟨0, 4, 4, 4⟩, fb, false⟩ 0 4 65 font onePixelGlyph =
        .error .outside := by
  obtain ⟨font, hfont, -⟩ := onePixelFont_ok
  have hstop : stopOf (do
      let font ← aosbfToPyrionFont (fun _ => true) onePixelFont
      pyrionDrawCharSoftware ⟨true, ⟨0, 4, 4, 4⟩, ⟨4, 4, ⟨16, fun _ => 0⟩⟩, false⟩ 0 4 65 font
        onePixelGlyph) = some .outside := by
    decide +kernel
  rw [hfont, bind_ok] at hstop
  refine ⟨font, ⟨4, 4, ⟨16, fun _ => 0⟩⟩, hfont, rfl, ?_⟩
  cases hdraw : pyrionDrawCharSoftware ⟨true, ⟨0, 4, 4, 4⟩, ⟨4, 4, ⟨16, fun _ => 0⟩⟩, false⟩ 0 4 65
      font onePixelGlyph with
  | ok ctx =>
      rw [hdraw] at hstop
      cases hstop
  | error e =>
      rw [hdraw] at hstop
      cases hstop
      rfl

end AosKernel.Gpu
