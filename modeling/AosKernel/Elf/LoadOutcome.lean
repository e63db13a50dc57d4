import AosKernel.Elf.Headers

namespace AosKernel.Elf

open Verif

-- The last page of the address space begins here.
def lastPage : Nat := 2 ^ 64 - 0x1000

def lowestOf : List ElfPhdr → Nat
  | [] => UINT64_MAX
  | ph :: rest => min (ALIGN_DOWN ph.vaddr) (lowestOf rest)

-- The lowest page of an image.
def lowest (phs : List ElfPhdr) : Nat := lowestOf (loads phs)

-- A segment ends before the last page does.
def Reaches (phs : List ElfPhdr) : Prop := ∃ ph ∈ loads phs, ph.vaddr + ph.memsz ≤ lastPage

section Lowest

variable {l : List ElfPhdr} {ph : ElfPhdr}

theorem lowestOf_le (h : ph ∈ l) : lowestOf l ≤ ALIGN_DOWN ph.vaddr := by
  induction l with
  | nil => cases h
  | cons q rest ih =>
      obtain rfl | h := List.mem_cons.mp h
      · exact Nat.min_le_left ..
      · exact (Nat.min_le_right ..).trans (ih h)

theorem lowestOf_mem (l : List ElfPhdr) :
    lowestOf l = UINT64_MAX ∨ ∃ ph ∈ l, lowestOf l = ALIGN_DOWN ph.vaddr := by
  induction l with
  | nil => exact .inl rfl
  | cons q rest ih =>
      rw [lowestOf]
      obtain hq | hrest := Nat.le_total (ALIGN_DOWN q.vaddr) (lowestOf rest)
      · exact .inr ⟨q, List.mem_cons_self, Nat.min_eq_left hq⟩
      · rw [Nat.min_eq_right hrest]
        exact ih.imp_right fun ⟨ph, hph, heq⟩ => ⟨ph, List.mem_cons_of_mem _ hph, heq⟩

theorem lowestOf_le_max (h : ∀ ph ∈ l, ph.vaddr ≤ UINT64_MAX) : lowestOf l ≤ UINT64_MAX := by
  obtain heq | ⟨ph, hph, heq⟩ := lowestOf_mem l
  · exact heq.le
  · rw [heq]
    exact (Nat.div_mul_le_self ..).trans (h ph hph)

end Lowest

section Extent

variable {data : List UInt8} {phs : List ElfPhdr} {entry bits : Nat} {acc : Scan} {ph : ElfPhdr}

theorem Checked.vaddr_le (hc : Checked bits data.length phs) (hph : ph ∈ loads phs) :
    ph.vaddr ≤ UINT64_MAX :=
  Nat.le_trans (Nat.le_add_right ..) (hc.sound hph).inSpace

theorem Extent.imageBase_eq (h : Extent entry (loads phs) acc)
    (hc : Checked bits data.length phs) : acc.imageBase = lowest phs := by
  have hmax : lowest phs ≤ UINT64_MAX := lowestOf_le_max fun _ => hc.vaddr_le
  apply Nat.le_antisymm
  · obtain heq | ⟨ph, hph, heq⟩ := lowestOf_mem (loads phs)
    · rw [lowest, heq]
      obtain hbase | ⟨ph, hph, hbase⟩ := h.base_mem
      · exact hbase.le
      · rw [hbase]
        exact (Nat.div_mul_le_self ..).trans (hc.vaddr_le hph)
    · rw [lowest, heq]
      exact h.base_le ph hph
  · obtain hbase | ⟨ph, hph, hbase⟩ := h.base_mem
    · rwa [hbase]
    · rw [hbase]
      exact lowestOf_le hph

theorem lowest_lt_of_reaches (h : Reaches phs) (hc : Checked bits data.length phs) :
    lowest phs < UINT64_MAX := by
  obtain ⟨ph, hph, -⟩ := h
  have hle := lowestOf_le hph
  have hvaddr := hc.vaddr_le hph
  simp only [ALIGN_DOWN] at hle
  simp only [UINT64_MAX, lowest] at hvaddr ⊢
  omega

-- The size of the image comes out positive if some segment ends before the last page.
theorem Extent.reaches_iff (h : Extent entry (loads phs) acc)
    (hc : Checked bits data.length phs) : lowest phs < acc.endSpace ↔ Reaches phs := by
  constructor
  · intro hlt
    obtain hzero | ⟨ph, hph, hend⟩ := h.end_mem
    · omega
    · refine ⟨ph, hph, ?_⟩
      have hspace := (hc.sound hph).inSpace
      rw [hend, ALIGN_UP] at hlt
      simp only [UINT64_MAX] at hspace
      simp only [lastPage]
      omega
  · rintro ⟨ph, hph, hend⟩
    have hlow : lowest phs ≤ ALIGN_DOWN ph.vaddr := lowestOf_le hph
    have hle := h.le_end ph hph
    have hpos := (ElfPhdr.loadable_iff.mp (mem_loads.mp hph).2).2
    simp only [ALIGN_DOWN, ALIGN_UP] at hlow hle
    simp only [lastPage] at hend
    omega

theorem Extent.end_le (h : Extent entry (loads phs) acc) : acc.endSpace ≤ lastPage := by
  obtain hzero | ⟨q, -, hq⟩ := h.end_mem
  · rw [hzero]
    exact Nat.zero_le _
  · rw [hq]
    simp only [ALIGN_UP, lastPage]
    omega

theorem Extent.end_aligned (h : Extent entry (loads phs) acc) : acc.endSpace % 0x1000 = 0 := by
  obtain hzero | ⟨q, -, hq⟩ := h.end_mem
  · rw [hzero]
  · rw [hq]
    exact Nat.mul_mod_left ..

-- The pages of an image hold those of its segments that end before the last page.
theorem inPages_image_iff (h : Extent entry (loads phs) acc) (hc : Checked bits data.length phs)
    (hph : ph ∈ loads phs) {base : Nat}
    (hfits : base + ALIGN_UP (acc.endSpace - lowest phs) / 0x1000 * 0x1000 ≤ 2 ^ 64) :
    Write.InPages ⟨cell base (lowest phs) ph.vaddr, ph.memsz,
        [⟨base, ALIGN_UP (acc.endSpace - lowest phs) / 0x1000 * 0x1000⟩]⟩ ↔
      ph.vaddr + ph.memsz ≤ lastPage := by
  have hspace := (hc.sound hph).inSpace
  have hpos := (ElfPhdr.loadable_iff.mp (mem_loads.mp hph).2).2
  have hlow : lowest phs ≤ ALIGN_DOWN ph.vaddr := lowestOf_le hph
  have hlowPage : lowest phs % 0x1000 = 0 := by
    obtain hmax | ⟨q, -, hq⟩ := lowestOf_mem (loads phs)
    · simp only [lowest, hmax, ALIGN_DOWN, UINT64_MAX] at hlow hspace
      omega
    · rw [lowest, hq]
      exact Nat.mul_mod_left ..
  have hend := h.end_le
  have hendPage := h.end_aligned
  have hle := h.le_end ph hph
  simp only [Write.InPages, List.mem_singleton, exists_eq_left, Span.Mem, cell]
  generalize lowest phs = low at *
  generalize acc.endSpace = stop at *
  simp only [ALIGN_DOWN, ALIGN_UP, UINT64_MAX, lastPage] at *
  constructor
  · intro hall
    have hlast := hall (ph.memsz - 1) (by omega)
    omega
  · intro hin k hk
    omega

end Extent

-- The files whose image is loaded, if the firmware has memory for it.
structure Acceptable (data : List UInt8) (ctx : ElfCtx) (phs : List ElfPhdr) : Prop where
  checked : Checked 64 data.length phs
  reaches : Reaches phs
  enters : ∃ ph ∈ loads phs, ph.Enters ctx.entry
  usable : ctx.reloc = false → ∀ ph ∈ loads phs, ph.Usable
  apart : ctx.reloc = false → ((loads phs).map ElfPhdr.fixedPages).Pairwise Span.Apart

section Outcome

variable {fw : Firmware} {data : List UInt8} {ctx : ElfCtx} {phs : List ElfPhdr}
  {m : Nat → UInt8} {acc : Scan} {s t : LoadState} {done : List (ElfPhdr × Nat)}

theorem contained_start (m : Nat → UInt8) (pages : List Span) :
    LoadState.Contained ⟨m, pages, []⟩ :=
  fun _ hw => nomatch hw

theorem Scanned.checked {r : Option Scan} (h : Scanned fw data ctx phs m r t done acc)
    (hr : r = some acc) : Checked 64 data.length phs := by
  have hdone := (h.ended acc hr).1
  intro p hp
  exact h.inv.checked p (hdone ▸ hp)

theorem Scanned.extent {r : Option Scan} (h : Scanned fw data ctx phs m r t done acc)
    (hr : r = some acc) : Extent ctx.entry (loads phs) acc := by
  have hextent := h.inv.extent
  rwa [← (h.ended acc hr).1, List.zipIdx_map_fst] at hextent

-- The two loops are separated by what the first one has found.
section Ended

variable {bits : Nat}
  (hscan : scanSegments fw bits data ctx phs phs.zipIdx ⟨false, UINT64_MAX, 0⟩ ⟨m, [], []⟩ =
    .ok (some acc, t))
  (hext : Extent ctx.entry (loads phs) acc) (hc : Checked bits data.length phs)

include hscan hext hc

theorem loadSegments_ended (hno : ¬ Reaches phs) :
    loadSegments fw bits data ctx phs ⟨m, [], []⟩ = .ok (none, t) := by
  rw [loadSegments, hscan]
  dsimp only
  rw [hext.imageBase_eq hc]
  split
  · rfl
  · rw [if_pos (Nat.not_lt.mp fun hlt => hno ((hext.reaches_iff hc).mp hlt))]

theorem loadSegments_reaches (hreaches : Reaches phs) :
    loadSegments fw bits data ctx phs ⟨m, [], []⟩ =
      if ctx.reloc then
        match fw.allocatePages none (ALIGN_UP (acc.endSpace - lowest phs) / 0x1000) t.pages with
        | none => .ok (none, t)
        | some loadBase =>
            match placeSegments data (lowest phs) loadBase (cell loadBase (lowest phs) ctx.entry)
                phs acc.entryValid
                { t with
                  pages := t.pages ++
                    [⟨loadBase, ALIGN_UP (acc.endSpace - lowest phs) / 0x1000 * 0x1000⟩] } with
            | .error e => .error e
            | .ok (entryValid, s) =>
                .ok (if entryValid then some ⟨loadBase, acc.endSpace - lowest phs,
                  cell loadBase (lowest phs) ctx.entry⟩ else none, s)
      else
        .ok (if acc.entryValid then some ⟨lowest phs, acc.endSpace - lowest phs, ctx.entry⟩
          else none, t) := by
  have hlt := (hext.reaches_iff hc).mpr hreaches
  have hmax := lowest_lt_of_reaches hreaches hc
  rw [loadSegments, hscan]
  dsimp only
  rw [hext.imageBase_eq hc, if_neg (Nat.ne_of_lt hmax),
    if_neg (Nat.not_le.mpr hlt)]
  rfl

end Ended

-- A place for the image means that every segment gets its own, inside if it ends before
-- the last page.
theorem loadSegments_placed {bits : Nat} (hscan : scanSegments fw bits data ctx phs phs.zipIdx
      ⟨false, UINT64_MAX, 0⟩ ⟨m, [], []⟩ = .ok (some acc, t)) (hstart : t = ⟨m, [], []⟩)
    (hext : Extent ctx.entry (loads phs) acc) (hc : Checked bits data.length phs)
    (hreaches : Reaches phs) (hreloc : ctx.reloc = true) (hentry : ctx.entry < 2 ^ 64) {base : Nat}
    (halloc : fw.allocatePages none (ALIGN_UP (acc.endSpace - lowest phs) / 0x1000) [] =
      some base) :
    ∃ v u, loadSegments fw bits data ctx phs ⟨m, [], []⟩ =
        .ok (if v then some ⟨base, acc.endSpace - lowest phs, cell base (lowest phs) ctx.entry⟩
          else none, u) ∧
      u.mem = placed data base (lowest phs) m (loads phs) ∧
      (u.Contained ↔ ∀ ph ∈ loads phs, ph.vaddr + ph.memsz ≤ lastPage) ∧
      (v = true ↔ ∃ ph ∈ loads phs, ph.Enters ctx.entry) := by
  have hload := loadSegments_reaches hscan hext hc hreaches
  rw [if_pos hreloc, hstart] at hload
  dsimp only at hload
  rw [halloc] at hload
  obtain ⟨v, u, hplace, hmem, hcontained, hvalid, hkeep⟩ :=
    place_run (lowest phs) base (cell base (lowest phs) ctx.entry)
      ⟨m, [] ++ [⟨base, ALIGN_UP (acc.endSpace - lowest phs) / 0x1000 * 0x1000⟩], []⟩
      acc.entryValid fun _ hph => hc.sound hph
  dsimp only at hload
  rw [hplace] at hload
  refine ⟨v, u, hload, hmem, ?_, ?_⟩
  · rw [hcontained, and_iff_right (contained_start _ _)]
    exact forall₂_congr fun ph hph => inPages_image_iff hext hc hph (fw.fits halloc)
  · refine ⟨fun hv => ?_, fun henters => hkeep (hext.entry_iff.mpr henters)⟩
    obtain hscanned | ⟨ph, hph, hx, hge, hlt⟩ := hvalid hv
    · exact hext.entry_iff.mp hscanned
    · refine ⟨ph, hph, hx, ?_⟩
      have hspace := (hc.sound hph).inSpace
      have hlow := lowest_lt_of_reaches hreaches hc
      simp only [cell, UINT64_MAX] at hge hlt hspace hlow
      omega

end Outcome

-- The end of some segments of a relocatable image rounds up to 0, that of others does not.
def RelocWraps (data : List UInt8) (ctx : ElfCtx) (phs : List ElfPhdr) : Prop :=
  ctx.reloc = true ∧ Checked 64 data.length phs ∧ Reaches phs ∧
    ∃ ph ∈ loads phs, lastPage < ph.vaddr + ph.memsz

-- The first segment to load has its place and a size that rounds up to 0.
def FixedWraps (data : List UInt8) (ctx : ElfCtx) (phs : List ElfPhdr) : Prop :=
  ctx.reloc = false ∧ ∃ p, phs.zipIdx.find? (fun p => p.1.loadable) = some p ∧
    p.1.sound data.length = true ∧ p.1.apartFrom 64 data.length phs p.2 = true ∧ p.1.Usable ∧
    lastPage < p.1.memsz

section Safe

variable {fw : Firmware} {data : List UInt8} {ctx : ElfCtx} {phs : List ElfPhdr}
  {m : Nat → UInt8} {t : LoadState} {r : Option Scan} {done : List (ElfPhdr × Nat)} {acc : Scan}

theorem Scanned.split (h : Scanned fw data ctx phs m r t done acc) :
    ∃ rest, phs.zipIdx = done ++ rest := by
  cases hr : r with
  | none =>
      obtain ⟨ph, i, rest, hsplit, -⟩ := h.refused hr
      exact ⟨_, hsplit⟩
  | some a => exact ⟨[], by rw [(h.ended a hr).1, List.append_nil]⟩

-- In the first loop only the first segment to load can leave its pages.
theorem Scanned.contained (h : Scanned fw data ctx phs m r t done acc)
    (hfixed : ¬ FixedWraps data ctx phs) : t.Contained := by
  cases hreloc : ctx.reloc with
  | true =>
      rw [h.inv.reloc hreloc]
      exact contained_start m []
  | false =>
      have hfix := h.inv.fixed hreloc
      refine hfix.contained.mpr fun ph hph => Nat.not_lt.mp fun hhuge => hfixed ⟨hreloc, ?_⟩
      obtain ⟨hmem, hload⟩ := mem_loads.mp hph
      obtain ⟨q, hq, rfl⟩ := List.mem_map.mp hmem
      obtain ⟨rest, hsplit⟩ := h.split
      obtain ⟨p, hp⟩ := Option.isSome_iff_exists.mp
        (List.find?_isSome.mpr ⟨q, hq, hload⟩ : (done.find? fun p => p.1.loadable).isSome)
      have hpmem := List.mem_of_find?_eq_some hp
      have hpload : p.1.loadable = true := by simpa using List.find?_some hp
      obtain ⟨hpsound, hpapart⟩ := h.inv.checked p hpmem hpload
      have hpu := hfix.usable p.1 (mem_loads.mpr ⟨List.mem_map_of_mem hpmem, hpload⟩)
      have hfirst : phs.zipIdx.find? (fun p => p.1.loadable) = some p := by
        rw [hsplit, List.find?_append, hp, Option.some_or]
      by_cases hsame : q.2 = p.2
      · have hq? := zipIdx_getElem? (hsplit ▸ List.mem_append_left rest hq)
        have hp? := zipIdx_getElem? (hsplit ▸ List.mem_append_left rest hpmem)
        rw [hsame, hp?] at hq?
        rw [← Option.some.inj hq?] at hhuge
        exact ⟨p, hfirst, hpsound, hpapart, hpu, hhuge⟩
      · have hqs := ElfPhdr.sound_of_check (h.inv.checked q hq hload).1 hload
        have hps := ElfPhdr.sound_of_check hpsound hpload
        have hdis := disjoint_of_ne hqs (h.inv.checked q hq hload).2
          (hsplit ▸ List.mem_append_left rest hpmem) (Ne.symm hsame) hpload hps
        exact (no_other (Nat.not_le.mpr hhuge) hqs.inSpace (hfix.usable q.1 hph) hps.inSpace hpu
          hdis (ElfPhdr.loadable_iff.mp hpload).2).elim

theorem placed_own (hlow : lowest phs ≤ 2 ^ 64) :
    placed data 0 0 m (loads phs) = placed data (lowest phs) (lowest phs) m (loads phs) := by
  have hcell : ∀ x, cell 0 0 x = cell (lowest phs) (lowest phs) x := fun x => by
    unfold cell
    omega
  unfold placed
  simp only [hcell]

-- What the first loop knows at its end makes the file one that can be loaded.
theorem Scanned.acceptable (h : Scanned fw data ctx phs m (some acc) t done acc)
    (hreaches : Reaches phs) (henters : ∃ ph ∈ loads phs, ph.Enters ctx.entry) :
    Acceptable data ctx phs := by
  have hfix := h.inv.fixed
  rw [← (h.ended acc rfl).1, List.zipIdx_map_fst] at hfix
  refine ⟨h.checked rfl, hreaches, henters, fun hreloc => (hfix hreloc).usable, fun hreloc => ?_⟩
  rw [← (hfix hreloc).pages]
  exact (hfix hreloc).apart

-- What loading leaves, with `out` as its answer.
structure Outcome (data : List UInt8) (ctx : ElfCtx) (phs : List ElfPhdr) (m : Nat → UInt8)
    (out : Option Loaded) (u : LoadState) : Prop where
  contained : ¬ RelocWraps data ctx phs → ¬ FixedWraps data ctx phs → u.Contained
  accepted : ∀ image, out = some image → Acceptable data ctx phs
  entry : ∀ image, out = some image → image.entry = cell image.imageBase (lowest phs) ctx.entry
  mem : ∀ image, out = some image → u.mem = placed data image.imageBase (lowest phs) m (loads phs)

theorem outcome_none {u : LoadState}
    (h : ¬ RelocWraps data ctx phs → ¬ FixedWraps data ctx phs → u.Contained) :
    Outcome data ctx phs m none u :=
  ⟨h, (fun _ hno => nomatch hno), (fun _ hno => nomatch hno), (fun _ hno => nomatch hno)⟩

theorem loadSegments_outcome (hentry : ctx.entry < 2 ^ 64) (fw : Firmware) (m : Nat → UInt8) :
    ∃ out u, loadSegments fw 64 data ctx phs ⟨m, [], []⟩ = .ok (out, u) ∧
      Outcome data ctx phs m out u := by
  obtain ⟨r, t, done, acc, hscan, h⟩ := scan_all fw data ctx phs m
  cases r with
  | none =>
      rw [loadSegments, hscan]
      exact ⟨none, t, rfl, outcome_none fun _ hfixed => h.contained hfixed⟩
  | some a =>
      obtain rfl := (h.ended a rfl).2
      by_cases hreaches : Reaches phs
      · cases hreloc : ctx.reloc with
        | true =>
            cases halloc : fw.allocatePages none
                (ALIGN_UP (acc.endSpace - lowest phs) / 0x1000) [] with
            | none =>
                have hstart := h.inv.reloc hreloc
                rw [loadSegments_reaches hscan (h.extent rfl) (h.checked rfl) hreaches, if_pos hreloc, hstart]
                dsimp only
                rw [halloc]
                exact ⟨none, _, rfl, outcome_none fun _ _ => contained_start m []⟩
            | some base =>
                obtain ⟨v, u, hload, hmem, hin, hvalid⟩ :=
                  loadSegments_placed hscan (h.inv.reloc hreloc) (h.extent rfl) (h.checked rfl)
                    hreaches hreloc hentry halloc
                have hcontained : ¬ RelocWraps data ctx phs → u.Contained := fun hno =>
                  hin.mpr fun ph hph => Nat.not_lt.mp fun hlast =>
                    hno ⟨hreloc, h.checked rfl, hreaches, ph, hph, hlast⟩
                cases v with
                | false => exact ⟨none, u, hload, outcome_none fun hno _ => hcontained hno⟩
                | true =>
                    refine ⟨_, u, hload, fun hno _ => hcontained hno, fun image himage => ?_,
                      fun image himage => ?_, fun image himage => ?_⟩ <;> cases himage
                    · exact h.acceptable hreaches (hvalid.mp rfl)
                    · rfl
                    · exact hmem
        | false =>
            have hfix := h.inv.fixed hreloc
            rw [← (h.ended acc rfl).1, List.zipIdx_map_fst] at hfix
            have hlow := lowest_lt_of_reaches hreaches (h.checked rfl)
            simp only [UINT64_MAX] at hlow
            rw [loadSegments_reaches hscan (h.extent rfl) (h.checked rfl) hreaches, if_neg (by simp [hreloc])]
            by_cases hvalid : acc.entryValid = true
            · rw [if_pos hvalid]
              refine ⟨_, t, rfl, fun _ hfixed => h.contained hfixed, fun image himage => ?_,
                fun image himage => ?_, fun image himage => ?_⟩ <;> cases himage
              · exact h.acceptable hreaches ((h.extent rfl).entry_iff.mp hvalid)
              · exact (cell_self hentry (show lowest phs ≤ 2 ^ 64 by omega)).symm
              · rw [hfix.mem, placed_own (by omega)]
            · rw [if_neg hvalid]
              exact ⟨none, t, rfl, outcome_none fun _ hfixed => h.contained hfixed⟩
      · rw [loadSegments_ended hscan (h.extent rfl) (h.checked rfl) hreaches]
        exact ⟨none, t, rfl, outcome_none fun _ hfixed => h.contained hfixed⟩

end Safe

end AosKernel.Elf
