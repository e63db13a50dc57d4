import AosKernel.Elf.LoadSafety

namespace AosKernel.Elf

open Verif

-- The program headers of a 32-bit file.
def phdrs32 (data : List UInt8) : List ElfPhdr :=
  (List.range (le data 44 2)).map fun i => elf32Phdr data (le data 28 4 + i * sizeofElf32Phdr)

-- No address belongs to two PT_LOAD segments.
def RangesApart (phs : List ElfPhdr) : Prop :=
  phs.Pairwise fun a b => a.type = PT_LOAD → b.type = PT_LOAD → ∀ x, ¬ (a.Covers x ∧ b.Covers x)

-- Loading reads inside the file, and an image that is accepted has segments that are apart,
-- each of which is in memory with what it has in the file and zeroes behind it.
def LoadsImage32 (fw : Firmware) (data : List UInt8) (ctx : ElfCtx) (m : Nat → UInt8) : Prop :=
  ∃ out t, elf32Load fw data ctx ⟨m, [], []⟩ = .ok (out, t) ∧ ∀ image, out = some image →
    RangesApart (phdrs32 data) ∧
      (∀ ph ∈ phdrs32 data, ph.type = PT_LOAD → ∀ k < ph.filesz, data[ph.offset + k]? =
        some (t.mem (cell image.imageBase (lowest (phdrs32 data)) (ph.vaddr + k)))) ∧
      ∀ ph ∈ phdrs32 data, ph.type = PT_LOAD → ∀ k, ph.filesz ≤ k → k < ph.memsz →
        t.mem (cell image.imageBase (lowest (phdrs32 data)) (ph.vaddr + k)) = 0

-- The files whose image is loaded, if the firmware has memory for it.
structure Accepted32 (data : List UInt8) (ctx : ElfCtx) (phs : List ElfPhdr) : Prop where
  checked : Checked 32 data.length phs
  enters : ∃ ph ∈ loads phs, ph.Enters ctx.entry
  usable : ctx.reloc = false → ∀ ph ∈ loads phs, ph.Usable
  apart : ctx.reloc = false → ((loads phs).map ElfPhdr.fixedPages).Pairwise Span.Apart

-- Where the sum of p_vaddr and p_memsz does not fit into 32 bits, the segment keeps clear of
-- the others all the same.
def WrappedApart (phs : List ElfPhdr) : Prop :=
  (loads phs).Pairwise fun a b =>
    2 ^ 32 ≤ a.vaddr + a.memsz ∨ 2 ^ 32 ≤ b.vaddr + b.memsz → a.Disjoint b

structure Loadable32 (data : List UInt8) (ctx : ElfCtx) (phs : List ElfPhdr) : Prop where
  ends : Accepted32 data ctx phs → ctx.reloc = true → WrappedApart phs
  bare : Accepted32 data ctx phs → BareLoaded data phs

section Fields

variable {data : List UInt8} {phs : List ElfPhdr} {ph : ElfPhdr}

theorem elf32Load_eq {fw : Firmware} {ctx : ElfCtx} {s : LoadState} (hb64 : ctx.b64 = false)
    (hsize : sizeofElf32Ehdr ≤ data.length)
    (htable : le data 28 4 + le data 44 2 * sizeofElf32Phdr ≤ data.length) :
    elf32Load fw data ctx s = loadSegments fw 32 data ctx (phdrs32 data) s := by
  simp only [sizeofElf32Ehdr] at hsize
  have hgo : ¬ (data.length = 0 ∨ ctx.b64 = true) := by
    rw [hb64]
    simp only [Bool.false_eq_true, or_false]
    omega
  rw [elf32Load, if_neg hgo, field_ok (by omega), bind_ok, field_ok (by omega), bind_ok,
    phdrTable_ok _ htable, bind_ok, phdrs32]

-- The fields have 32 bits.
def Small (phs : List ElfPhdr) : Prop := ∀ ph ∈ loads phs, ph.vaddr < 2 ^ 32 ∧ ph.memsz < 2 ^ 32

theorem small_phdrs32 (data : List UInt8) : Small (phdrs32 data) := by
  intro ph hph
  obtain ⟨i, -, rfl⟩ := List.mem_map.mp (mem_loads.mp hph).1
  exact ⟨le_lt data _ 4, le_lt data _ 4⟩

theorem Small.reaches (hsmall : Small phs) (hph : ph ∈ loads phs) : Reaches phs := by
  obtain ⟨hvaddr, hmemsz⟩ := hsmall ph hph
  refine ⟨ph, hph, ?_⟩
  simp only [lastPage]
  omega

-- The ranges are apart if those that are not empty lie one behind the other.
theorem rangesApart_iff : RangesApart phs ↔ (loads phs).Pairwise ElfPhdr.Disjoint := by
  have hcovers : ∀ {a b : ElfPhdr}, a.memsz ≠ 0 → b.memsz ≠ 0 →
      (a.Disjoint b ↔ ∀ x, ¬ (a.Covers x ∧ b.Covers x)) := by
    intro a b ha hb
    unfold ElfPhdr.Disjoint ElfPhdr.Covers
    constructor
    · intro h x
      omega
    · intro h
      have hmax := h (max a.vaddr b.vaddr)
      omega
  unfold RangesApart loads
  rw [List.pairwise_filter]
  refine ⟨fun h => h.imp ?_, fun h => h.imp ?_⟩
  · intro a b hab ha hb
    obtain ⟨hatype, hasize⟩ := ElfPhdr.loadable_iff.mp ha
    obtain ⟨hbtype, hbsize⟩ := ElfPhdr.loadable_iff.mp hb
    exact (hcovers hasize hbsize).mpr (hab hatype hbtype)
  · intro a b hab hatype hbtype x hx
    have hasize : a.memsz ≠ 0 := by
      unfold ElfPhdr.Covers at hx
      omega
    have hbsize : b.memsz ≠ 0 := by
      unfold ElfPhdr.Covers at hx
      omega
    exact (hcovers hasize hbsize).mp (hab (ElfPhdr.loadable_iff.mpr ⟨hatype, hasize⟩)
      (ElfPhdr.loadable_iff.mpr ⟨hbtype, hbsize⟩)) x hx

theorem wrappedApart_of_disjoint (h : (loads phs).Pairwise ElfPhdr.Disjoint) :
    WrappedApart phs := by
  refine List.Pairwise.imp ?_ h
  intro a b hab _
  exact hab

-- Without a carry the check of the loader is exact.
theorem overlaps_exact {a b : ElfPhdr} (ha : a.vaddr + a.memsz < 2 ^ 32)
    (hb : b.vaddr + b.memsz < 2 ^ 32) (h : a.overlaps 32 b = false) : a.Disjoint b := by
  rw [ElfPhdr.overlaps, Nat.mod_eq_of_lt hb, Nat.mod_eq_of_lt ha] at h
  simp only [Bool.and_eq_false_iff, decide_eq_false_iff_not, Nat.not_lt] at h
  exact h.symm

theorem Checked.apart32 (h : Checked 32 data.length phs) :
    (loads phs).Pairwise fun a b => a.overlaps 32 b = false := by
  apply List.pairwise_filter.mpr
  apply List.pairwise_iff_getElem.mpr
  intro i j hi hj hlt hli hlj
  have hzip : (phs[i], i) ∈ phs.zipIdx := by
    rw [List.mem_zipIdx_iff_getElem?]
    exact List.getElem?_eq_getElem hi
  exact apartFrom_overlaps (h _ hzip hli).2 hj (Nat.ne_of_gt hlt) hlj

-- The pages of a segment hold it.
theorem disjoint_of_pages {a b : ElfPhdr} (ha : a.memsz < 2 ^ 32) (hb : b.memsz < 2 ^ 32)
    (hapos : a.memsz ≠ 0) (hbpos : b.memsz ≠ 0) (h : a.fixedPages.Apart b.fixedPages) :
    a.Disjoint b := by
  have hmax := h (max a.vaddr b.vaddr)
  simp only [ElfPhdr.fixedPages, Span.Mem, ALIGN_UP] at hmax
  unfold ElfPhdr.Disjoint
  omega

end Fields

section Scan

variable {fw : Firmware} {data : List UInt8} {ctx : ElfCtx} {phs : List ElfPhdr}
  {m : Nat → UInt8} {done rest : List (ElfPhdr × Nat)} {acc : Scan} {s : LoadState}
  {ph : ElfPhdr} {i : Nat}

-- An image that is loaded where it says, up to some segment.
structure Fixed32 (data : List UInt8) (m : Nat → UInt8) (l : List ElfPhdr) (s : LoadState) :
    Prop where
  mem : s.mem = placed data 0 0 m l
  pages : s.pages = l.map ElfPhdr.fixedPages
  usable : ∀ ph ∈ l, ph.Usable
  apart : s.pages.Pairwise Span.Apart

-- The first loop once it has been through `done`.
structure Scan32 (data : List UInt8) (ctx : ElfCtx) (phs : List ElfPhdr) (m : Nat → UInt8)
    (done : List (ElfPhdr × Nat)) (acc : Scan) (s : LoadState) : Prop where
  checked : ∀ p ∈ done, p.1.loadable = true →
    p.1.sound data.length = true ∧ p.1.apartFrom 32 data.length phs p.2 = true
  extent : Extent ctx.entry (loads (done.map Prod.fst)) acc
  reloc : ctx.reloc = true → s = ⟨m, [], []⟩
  fixed : ctx.reloc = false → Fixed32 data m (loads (done.map Prod.fst)) s

theorem scan32_nil (data : List UInt8) (ctx : ElfCtx) (phs : List ElfPhdr) (m : Nat → UInt8) :
    Scan32 data ctx phs m [] ⟨false, UINT64_MAX, 0⟩ ⟨m, [], []⟩ :=
  ⟨by simp, extent_nil _, fun _ => rfl, fun _ => ⟨rfl, rfl, by simp [loads], .nil⟩⟩

theorem Scan32.skip (h : Scan32 data ctx phs m done acc s) (hload : ¬ ph.loadable = true) :
    Scan32 data ctx phs m (done ++ [(ph, i)]) acc s := by
  have hloads := loads_snoc_of_not (i := i) done hload
  refine ⟨?_, hloads ▸ h.extent, h.reloc, fun hfix => hloads ▸ h.fixed hfix⟩
  exact List.forall_mem_append.mpr ⟨h.checked,
    List.forall_mem_singleton.mpr fun hyes => absurd hyes hload⟩

-- A segment that passes the checks; a fixed image has `t` as its next state.
theorem Scan32.step (h : Scan32 data ctx phs m done acc s) (hload : ph.loadable = true)
    (hok : ph.sound data.length = true ∧ ph.apartFrom 32 data.length phs i = true)
    {t : LoadState} (hreloc : ctx.reloc = true → t = s)
    (hfixed : ctx.reloc = false → Fixed32 data m (loads (done.map Prod.fst) ++ [ph]) t) :
    Scan32 data ctx phs m (done ++ [(ph, i)]) (acc.add ctx.entry ph) t := by
  have hloads := loads_snoc_of_loadable (i := i) done hload
  refine ⟨?_, ?_, fun hyes => (hreloc hyes).trans (h.reloc hyes), fun hno => ?_⟩
  · exact List.forall_mem_append.mpr ⟨h.checked, List.forall_mem_singleton.mpr fun _ => hok⟩
  · rw [hloads]
    exact h.extent.snoc ph
  · rw [hloads]
    exact hfixed hno

theorem Fixed32.load (h : Fixed32 data m (loads (done.map Prod.fst)) s) {t : LoadState}
    (hs : ph.Sound data.length) (hu : ph.Usable)
    (hown : ∀ p ∈ s.pages, Span.Apart ph.fixedPages p)
    (hcopy : Copied data ph ph.vaddr { s with pages := s.pages ++ [ph.fixedPages] } t) :
    Fixed32 data m (loads (done.map Prod.fst) ++ [ph]) t := by
  have hlt : ph.vaddr < 2 ^ 64 := Nat.lt_of_le_of_lt (Nat.le_add_right _ _) hs.end_lt
  refine ⟨?_, ?_, ?_, ?_⟩
  · rw [hcopy.mem, placed_append, placed_singleton, cell_zero hlt, ← h.mem]
  · rw [hcopy.pages, List.map_append, List.map_singleton, h.pages]
  · exact List.forall_mem_append.mpr ⟨h.usable, List.forall_mem_singleton.mpr hu⟩
  · rw [hcopy.pages]
    apply List.pairwise_append.mpr
    refine ⟨h.apart, List.pairwise_singleton _ _, fun p hp q hq => ?_⟩
    rw [List.mem_singleton.mp hq]
    exact (hown p hp).symm

-- Whatever is granted, the first loop reads inside the file, and if it gets to the end it
-- has been through all segments.
theorem scan32_run (fw : Firmware) (hsplit : phs.zipIdx = done ++ rest)
    (h : Scan32 data ctx phs m done acc s) :
    ∃ r t, scanSegments fw 32 data ctx phs rest acc s = .ok (r, t) ∧
      ∀ a, r = some a → Scan32 data ctx phs m phs.zipIdx a t := by
  induction rest generalizing done acc s with
  | nil =>
      refine ⟨some acc, s, rfl, fun a ha => ?_⟩
      cases ha
      rwa [hsplit, List.append_nil]
  | cons p rest ih =>
      obtain ⟨ph, i⟩ := p
      have hstop : ∃ r t, Except.ok (ε := Fault) ((none : Option Scan), s) = .ok (r, t) ∧
          ∀ a, r = some a → Scan32 data ctx phs m phs.zipIdx a t :=
        ⟨none, s, rfl, fun _ hno => nomatch hno⟩
      have hsplit' : phs.zipIdx = (done ++ [(ph, i)]) ++ rest := by simpa using hsplit
      rw [scanSegments]
      by_cases hload : ph.loadable = true
      · rw [if_neg (by simp [hload])]
        by_cases hok : ph.sound data.length = true ∧ ph.apartFrom 32 data.length phs i = true
        · rw [if_neg (by simp [hok])]
          have hsound := ElfPhdr.sound_of_check hok.1 hload
          cases hreloc : ctx.reloc with
          | true =>
              rw [if_pos rfl]
              apply ih hsplit'
              apply h.step hload hok (fun _ => rfl)
              intro hno
              rw [hreloc] at hno
              cases hno
          | false =>
              rw [if_neg Bool.false_ne_true]
              by_cases hkind : ph.flags &&& PF_X = 0 ∧ ph.flags &&& PF_W = 0 ∧ ph.flags &&& PF_R = 0
              · rw [if_pos hkind]
                exact hstop
              rw [if_neg hkind]
              cases halloc : fw.allocatePages (some ph.vaddr) (ALIGN_UP ph.memsz / 0x1000) s.pages with
              | none => exact hstop
              | some addr =>
                  obtain rfl := fw.fixed halloc
                  have hlt : ph.vaddr < 2 ^ 64 :=
                    Nat.lt_of_le_of_lt (Nat.le_add_right _ _) hsound.end_lt
                  obtain ⟨t, ht, hcopy⟩ :=
                    copySegment_ok { s with pages := s.pages ++ [ph.fixedPages] } hsound hlt
                  rw [ElfPhdr.fixedPages] at ht
                  dsimp only
                  rw [ht]
                  apply ih hsplit'
                  apply h.step hload hok
                  · intro hyes
                    rw [hreloc] at hyes
                    cases hyes
                  · intro hfix
                    exact (h.fixed hfix).load hsound ⟨fw.aligned halloc, hkind⟩ (fw.own halloc) hcopy
        · rw [if_pos (by rwa [Bool.not_eq_true', ← Bool.not_eq_true, Bool.and_eq_true])]
          exact hstop
      · rw [if_pos (by simp [hload])]
        exact ih hsplit' (h.skip hload)

-- The greedy firmware lets it get there.
theorem scan32_greedy (start : Nat) (hacc : Accepted32 data ctx phs)
    (hsplit : phs.zipIdx = done ++ rest) (h : Scan32 data ctx phs m done acc s) :
    ∃ a t, scanSegments (greedy start) 32 data ctx phs rest acc s = .ok (some a, t) := by
  induction rest generalizing done acc s with
  | nil => exact ⟨acc, s, rfl⟩
  | cons p rest ih =>
      obtain ⟨ph, i⟩ := p
      have hsplit' : phs.zipIdx = (done ++ [(ph, i)]) ++ rest := by simpa using hsplit
      rw [scanSegments]
      by_cases hload : ph.loadable = true
      · have hmem : (ph, i) ∈ phs.zipIdx := hsplit ▸ List.mem_append_right _ List.mem_cons_self
        have hph : ph ∈ loads phs :=
          mem_loads.mpr ⟨List.mem_of_getElem? (zipIdx_getElem? hmem), hload⟩
        have hok := hacc.checked _ hmem hload
        have hsound := ElfPhdr.sound_of_check hok.1 hload
        rw [if_neg (by simp [hload]), if_neg (by simp [hok])]
        cases hreloc : ctx.reloc with
        | true =>
            rw [if_pos rfl]
            apply ih hsplit'
            apply h.step hload hok (fun _ => rfl)
            intro hno
            rw [hreloc] at hno
            cases hno
        | false =>
            have hu := hacc.usable hreloc ph hph
            have hfree : ∀ p ∈ s.pages, Span.Apart ph.fixedPages p := by
              intro p hp
              have hloads : loads phs =
                  loads (done.map Prod.fst) ++ ph :: loads (rest.map Prod.fst) := by
                rw [← List.zipIdx_map_fst 0 phs, hsplit, List.map_append, List.map_cons]
                simp [loads, hload]
              have hpairs := hacc.apart hreloc
              rw [hloads, List.map_append, List.map_cons] at hpairs
              rw [(h.fixed hreloc).pages] at hp
              exact ((List.pairwise_append.mp hpairs).2.2 p hp _ List.mem_cons_self).symm
            have hlt : ph.vaddr < 2 ^ 64 :=
              Nat.lt_of_le_of_lt (Nat.le_add_right _ _) hsound.end_lt
            obtain ⟨t, ht, hcopy⟩ :=
              copySegment_ok { s with pages := s.pages ++ [ph.fixedPages] } hsound hlt
            rw [ElfPhdr.fixedPages] at ht
            rw [if_neg Bool.false_ne_true, if_neg hu.kind, greedy_fixed start hsound hu hfree]
            dsimp only
            rw [ht]
            apply ih hsplit'
            apply h.step hload hok
            · intro hyes
              rw [hreloc] at hyes
              cases hyes
            · intro hfix
              exact (h.fixed hfix).load hsound hu hfree hcopy
      · rw [if_pos (by simp [hload])]
        exact ih hsplit' (h.skip hload)

end Scan

section Outcome

variable {fw : Firmware} {data : List UInt8} {ctx : ElfCtx} {phs : List ElfPhdr}
  {m : Nat → UInt8} {acc : Scan} {t : LoadState}

theorem Scan32.all (h : Scan32 data ctx phs m phs.zipIdx acc t) :
    Checked 32 data.length phs ∧ Extent ctx.entry (loads phs) acc ∧
      (ctx.reloc = false → Fixed32 data m (loads phs) t) := by
  have hextent := h.extent
  have hfixed := h.fixed
  rw [List.zipIdx_map_fst] at hextent hfixed
  exact ⟨h.checked, hextent, hfixed⟩

theorem Scan32.accepted (h : Scan32 data ctx phs m phs.zipIdx acc t)
    (henters : ∃ ph ∈ loads phs, ph.Enters ctx.entry) : Accepted32 data ctx phs := by
  obtain ⟨hc, -, hfixed⟩ := h.all
  refine ⟨hc, henters, fun hreloc => (hfixed hreloc).usable, fun hreloc => ?_⟩
  rw [← (hfixed hreloc).pages]
  exact (hfixed hreloc).apart

theorem lowest_le_of_small (hsmall : Small phs) {ph : ElfPhdr} (hph : ph ∈ loads phs) :
    lowest phs ≤ 2 ^ 64 := by
  have hle : lowest phs ≤ ALIGN_DOWN ph.vaddr := lowestOf_le hph
  have hvaddr := (hsmall ph hph).1
  simp only [ALIGN_DOWN] at hle
  omega

-- What loading leaves of an image that is accepted.
theorem load32_outcome (data : List UInt8) (hsmall : Small phs) (hentry : ctx.entry < 2 ^ 64)
    (fw : Firmware) (m : Nat → UInt8) :
    ∃ out u, loadSegments fw 32 data ctx phs ⟨m, [], []⟩ = .ok (out, u) ∧
      ∀ image, out = some image → Accepted32 data ctx phs ∧
        u.mem = placed data image.imageBase (lowest phs) m (loads phs) := by
  obtain ⟨r, t, hscan, h⟩ := scan32_run fw (List.nil_append _).symm
    (scan32_nil data ctx phs m)
  have hno : ∀ u : LoadState, ∃ out u', Except.ok (ε := Fault) ((none : Option Loaded), u) =
      .ok (out, u') ∧ ∀ image, out = some image → Accepted32 data ctx phs ∧
        u'.mem = placed data image.imageBase (lowest phs) m (loads phs) :=
    fun u => ⟨none, u, rfl, fun _ hyes => nomatch hyes⟩
  cases r with
  | none =>
      rw [loadSegments, hscan]
      exact hno t
  | some acc =>
      have hinv := h acc rfl
      obtain ⟨hc, hext, hfixed⟩ := hinv.all
      by_cases hreaches : Reaches phs
      · cases hreloc : ctx.reloc with
        | true =>
            have hstart := hinv.reloc hreloc
            cases halloc : fw.allocatePages none
                (ALIGN_UP (acc.endSpace - lowest phs) / 0x1000) [] with
            | none =>
                rw [loadSegments_reaches hscan hext hc hreaches, if_pos hreloc, hstart]
                dsimp only
                rw [halloc]
                exact hno _
            | some base =>
                obtain ⟨v, u, hload, hmem, -, hvalid⟩ :=
                  loadSegments_placed hscan hstart hext hc hreaches hreloc hentry halloc
                rw [hload]
                cases v with
                | false => exact hno u
                | true =>
                    refine ⟨_, u, rfl, fun image himage => ?_⟩
                    cases himage
                    exact ⟨hinv.accepted (hvalid.mp rfl), hmem⟩
        | false =>
            rw [loadSegments_reaches hscan hext hc hreaches, if_neg (by simp [hreloc])]
            by_cases hvalid : acc.entryValid = true
            · rw [if_pos hvalid]
              refine ⟨_, t, rfl, fun image himage => ?_⟩
              cases himage
              obtain ⟨ph, hph, -⟩ := hreaches
              refine ⟨hinv.accepted (hext.entry_iff.mp hvalid), ?_⟩
              rw [(hfixed hreloc).mem, placed_own (lowest_le_of_small hsmall hph)]
            · rw [if_neg hvalid]
              exact hno t
      · rw [loadSegments_ended hscan hext hc hreaches]
        exact hno t

-- The greedy firmware has memory for every image that is accepted.
theorem load32_greedy (hsmall : Small phs) (hentry : ctx.entry < 2 ^ 64)
    (hacc : Accepted32 data ctx phs) (m : Nat → UInt8) :
    ∃ image u, loadSegments (greedy 0) 32 data ctx phs ⟨m, [], []⟩ = .ok (some image, u) ∧
      image.imageBase = greedyBase 0 ctx phs := by
  obtain ⟨acc, t, hscan⟩ := scan32_greedy 0 hacc (List.nil_append _).symm
    (scan32_nil data ctx phs m)
  obtain ⟨r, t', hscan', h⟩ := scan32_run (greedy 0) (List.nil_append _).symm
    (scan32_nil data ctx phs m)
  rw [hscan] at hscan'
  cases hscan'
  have hinv := h acc rfl
  obtain ⟨hc, hext, -⟩ := hinv.all
  obtain ⟨ph, hph, -⟩ := hacc.enters
  have hreaches := hsmall.reaches hph
  cases hreloc : ctx.reloc with
  | true =>
      have hend := hext.end_le
      have halloc : (greedy 0).allocatePages none
          (ALIGN_UP (acc.endSpace - lowest phs) / 0x1000) [] = some 0 := by
        apply greedy_any rfl
        simp only [ALIGN_UP]
        simp only [lastPage] at hend
        omega
      obtain ⟨v, u, hload, -, -, hvalid⟩ := loadSegments_placed hscan (hinv.reloc hreloc) hext hc
        hreaches hreloc hentry halloc
      rw [if_pos (hvalid.mpr hacc.enters)] at hload
      rw [greedyBase, if_pos hreloc]
      exact ⟨_, u, hload, rfl⟩
  | false =>
      have hload := loadSegments_reaches hscan hext hc hreaches
      rw [if_neg (by simp [hreloc]), if_pos (hext.entry_iff.mpr hacc.enters)] at hload
      rw [greedyBase, if_neg (by simp [hreloc])]
      exact ⟨_, t, hload, rfl⟩

-- Fixed images are kept apart by their pages, others by the check where no sum is cut off.
theorem disjoint_of_accepted (hsmall : Small phs) (hacc : Accepted32 data ctx phs)
    (hends : ctx.reloc = true → WrappedApart phs) : (loads phs).Pairwise ElfPhdr.Disjoint := by
  cases hreloc : ctx.reloc with
  | true =>
      have hboth := (hends hreloc).and hacc.checked.apart32
      refine hboth.imp fun {a b} ⟨hwrapped, hoverlaps⟩ => ?_
      by_cases hwraps : 2 ^ 32 ≤ a.vaddr + a.memsz ∨ 2 ^ 32 ≤ b.vaddr + b.memsz
      · exact hwrapped hwraps
      · exact overlaps_exact (by omega) (by omega) hoverlaps
  | false =>
      have hapart := List.pairwise_map.mp (hacc.apart hreloc)
      refine hapart.imp_of_mem fun {a b} ha hb hpages => ?_
      have hapos := (ElfPhdr.loadable_iff.mp (mem_loads.mp ha).2).2
      have hbpos := (ElfPhdr.loadable_iff.mp (mem_loads.mp hb).2).2
      exact disjoint_of_pages (hsmall a ha).2 (hsmall b hb).2 hapos hbpos hpages

theorem laid_of_accepted (hsmall : Small phs) (hacc : Accepted32 data ctx phs)
    (hdisjoint : (loads phs).Pairwise ElfPhdr.Disjoint) : Laid data phs := by
  obtain ⟨ph, hph, -⟩ := hacc.enters
  exact ⟨fun _ hph => hacc.checked.sound hph, hdisjoint, lowest_le_of_small hsmall hph⟩

end Outcome

-- Exactly then an image that is accepted is loaded, whatever the firmware grants and memory
-- holds.
theorem elf32Load_iff (data : List UInt8) (ctx : ElfCtx) (hsize : sizeofElf32Ehdr ≤ data.length)
    (hverify : elf32Verify data = .ok true) (hb64 : ctx.b64 = false) (hentry : ctx.entry < 2 ^ 64) :
    (∀ fw m, LoadsImage32 fw data ctx m) ↔ Loadable32 data ctx (phdrs32 data) := by
  obtain ⟨b, hb, htable⟩ := elf32Verify_ok hsize
  have hb : b = true := Except.ok.inj (hb.symm.trans hverify)
  have hsmall := small_phdrs32 data
  unfold LoadsImage32
  simp only [elf32Load_eq hb64 hsize (htable hb)]
  constructor
  · intro h
    have hdisjoint : Accepted32 data ctx (phdrs32 data) →
        (loads (phdrs32 data)).Pairwise ElfPhdr.Disjoint := by
      intro hacc
      obtain ⟨image, u, hload, -⟩ := load32_greedy hsmall hentry hacc fun _ => 0
      obtain ⟨out, t, hrun, himage⟩ := h (greedy 0) fun _ => 0
      rw [hload] at hrun
      cases hrun
      exact rangesApart_iff.mp (himage image rfl).1
    refine ⟨fun hacc _ => wrappedApart_of_disjoint (hdisjoint hacc), fun hacc => ?_⟩
    apply bareLoaded_of_file (laid_of_accepted hsmall hacc (hdisjoint hacc))
      (greedyBase 0 ctx (phdrs32 data))
    intro m
    obtain ⟨image, u, hload, hbase⟩ := load32_greedy hsmall hentry hacc m
    obtain ⟨out, t, hrun, himage⟩ := h (greedy 0) m
    obtain ⟨out', t', hrun', hmem⟩ := load32_outcome data hsmall hentry (greedy 0) m
    rw [hload] at hrun hrun'
    cases hrun
    cases hrun'
    have hfile := (himage image rfl).2.1
    rwa [(hmem image rfl).2, hbase] at hfile
  · intro hcond fw m
    obtain ⟨out, u, hload, h⟩ := load32_outcome data hsmall hentry fw m
    refine ⟨out, u, hload, fun image himage => ?_⟩
    obtain ⟨hacc, hmem⟩ := h image himage
    have hdisjoint := disjoint_of_accepted hsmall hacc (hcond.ends hacc)
    have hlaid := laid_of_accepted hsmall hacc hdisjoint
    rw [hmem]
    refine ⟨rangesApart_iff.mpr hdisjoint, ?_, ?_⟩
    · exact fun ph hph htype k hk => placed_file hlaid (hcond.bare hacc) _ hph htype hk
    · exact fun ph hph htype k hfile hk => placed_zero hlaid _ hph htype hfile hk

-- A relocatable image whose first segment is executable, has `memsz` bytes and starts in the
-- last page of the 32-bit addresses; the second one starts 0x800 bytes behind it.
def lastPage32 (memsz : Nat) : List UInt8 :=
  leBytes 4 ELFMAG ++ [1, 1, 1] ++ leBytes 9 0 ++ leBytes 2 ET_DYN ++ leBytes 2 EM_X86_64 ++
  leBytes 4 EV_CURRENT ++ leBytes 4 0xFFFFF000 ++ leBytes 4 52 ++ leBytes 8 0 ++
  leBytes 2 52 ++ leBytes 2 32 ++ leBytes 2 2 ++ leBytes 6 0 ++
  leBytes 4 PT_LOAD ++ leBytes 4 0 ++ leBytes 4 0xFFFFF000 ++ leBytes 4 0 ++ leBytes 4 0 ++
  leBytes 4 memsz ++ leBytes 4 5 ++ leBytes 4 1 ++
  leBytes 4 PT_LOAD ++ leBytes 4 0 ++ leBytes 4 0xFFFFF800 ++ leBytes 4 0 ++ leBytes 4 16 ++
  leBytes 4 16 ++ leBytes 4 6 ++ leBytes 4 1

theorem elf32Load_iff_apart :
    elfMakeCtx (lastPage32 0x800) = .ok (some ⟨false, true, true, 0xFFFFF000⟩) ∧
      ∀ fw m, LoadsImage32 fw (lastPage32 0x800) ⟨false, true, true, 0xFFFFF000⟩ m := by
  refine ⟨by decide +kernel, ?_⟩
  apply (elf32Load_iff _ _ (by decide +kernel) (by decide +kernel) rfl (by decide)).mpr
  refine ⟨fun _ _ => ?_, fun _ => ?_⟩
  · unfold WrappedApart ElfPhdr.Disjoint
    decide +kernel
  · intro ph hph _ hzero
    have hsizes : ∀ ph ∈ phdrs32 (lastPage32 0x800), ph.memsz ≠ 0 := by decide +kernel
    exact absurd hzero (hsizes ph hph)

theorem lastPage32_accepted :
    Accepted32 (lastPage32 0x2000) ⟨false, true, true, 0xFFFFF000⟩
      (phdrs32 (lastPage32 0x2000)) := by
  refine ⟨?_, ?_, fun hno => (nomatch hno), fun hno => (nomatch hno)⟩
  · unfold Checked
    decide +kernel
  · unfold ElfPhdr.Enters
    decide +kernel

-- The end of the first segment is cut off, so that the second one inside it is not noticed.
theorem overlap_accepted :
    elfMakeCtx (lastPage32 0x2000) = .ok (some ⟨false, true, true, 0xFFFFF000⟩) ∧
      ¬ LoadsImage32 (greedy 0) (lastPage32 0x2000) ⟨false, true, true, 0xFFFFF000⟩
        fun _ => 0 := by
  refine ⟨by decide +kernel, ?_⟩
  rintro ⟨out, t, hrun, himage⟩
  obtain ⟨image, u, hload, -⟩ :=
    load32_greedy (small_phdrs32 _) (by decide) lastPage32_accepted fun _ => 0
  rw [elf32Load_eq rfl (by decide +kernel) (by decide +kernel), hload] at hrun
  cases hrun
  have hoverlap : ¬ (loads (phdrs32 (lastPage32 0x2000))).Pairwise ElfPhdr.Disjoint := by
    unfold ElfPhdr.Disjoint
    decide +kernel
  exact hoverlap (rangesApart_iff.mp (himage image rfl).1)

end AosKernel.Elf
