import AosKernel.Elf.Image

namespace AosKernel.Elf

open Verif

-- A write stays in pages that were allocated before it.
def Write.InPages (w : Write) : Prop :=
  ∀ k < w.len, ∃ p ∈ w.pages, Span.Mem ((w.addr + k) % 2 ^ 64) p

namespace LoadState

def Contained (s : LoadState) : Prop := ∀ w ∈ s.writes, w.InPages

variable {s : LoadState} {addr len : Nat} {src : Nat → UInt8}

theorem write_mem : (s.write addr len src).mem = blit s.mem addr len src := by
  rw [write]

theorem write_pages : (s.write addr len src).pages = s.pages := by
  rw [write]

theorem write_writes : (s.write addr len src).writes = s.writes ++ [⟨addr, len, s.pages⟩] := by
  rw [write]

theorem contained_write :
    (s.write addr len src).Contained ↔ s.Contained ∧ Write.InPages ⟨addr, len, s.pages⟩ := by
  rw [Contained, write_writes, List.forall_mem_append, List.forall_mem_singleton, Contained]

end LoadState

section Copy

variable {data : List UInt8} {ph : ElfPhdr} {addr : Nat} {s : LoadState}

-- The copied part of a segment and the cleared one behind it make up the segment.
theorem blit_halves (m : Nat → UInt8) (haddr : addr < 2 ^ 64) (hle : ph.filesz ≤ ph.memsz)
    (hmax : ph.memsz ≤ UINT64_MAX) :
    blit (blit m addr ph.filesz fun k => data.getD (ph.offset + k) 0)
        ((addr + ph.filesz) % 2 ^ 64) (ph.memsz - ph.filesz) (fun _ => 0) =
      blit m addr ph.memsz (ph.byte data) := by
  funext x
  simp only [UINT64_MAX] at hmax
  have hlt := behind_lt addr x
  by_cases hfile : behind addr x < ph.filesz
  · have hrest : behind ((addr + ph.filesz) % 2 ^ 64) x =
        behind addr x + 2 ^ 64 - ph.filesz := by
      unfold behind at hfile ⊢
      omega
    rw [blit_out (by omega), blit_in hfile, blit_in (by omega), ElfPhdr.byte, if_pos hfile]
  · have hrest : behind ((addr + ph.filesz) % 2 ^ 64) x = behind addr x - ph.filesz := by
      unfold behind at hfile ⊢
      omega
    by_cases hmem : behind addr x < ph.memsz
    · rw [blit_in (by omega), blit_in hmem, ElfPhdr.byte, if_neg hfile]
    · rw [blit_out (by omega), blit_out (by omega), blit_out (by omega)]

theorem inPages_halves (pages : List Span) (hle : ph.filesz ≤ ph.memsz) :
    Write.InPages ⟨addr, ph.filesz, pages⟩ ∧
        Write.InPages ⟨(addr + ph.filesz) % 2 ^ 64, ph.memsz - ph.filesz, pages⟩ ↔
      Write.InPages ⟨addr, ph.memsz, pages⟩ := by
  constructor
  · rintro ⟨hfile, hzero⟩ k hk
    by_cases hlt : k < ph.filesz
    · exact hfile k hlt
    · have hin := hzero (k - ph.filesz) (by dsimp only at hk ⊢; omega)
      dsimp only at hin ⊢
      rwa [show ((addr + ph.filesz) % 2 ^ 64 + (k - ph.filesz)) % 2 ^ 64 = (addr + k) % 2 ^ 64 by
        omega] at hin
  · refine fun hall => ⟨fun k hk => hall k (by dsimp only at hk ⊢; omega), fun k hk => ?_⟩
    have hin := hall (ph.filesz + k) (by dsimp only at hk ⊢; omega)
    dsimp only at hin ⊢
    rwa [show (addr + (ph.filesz + k)) % 2 ^ 64 = ((addr + ph.filesz) % 2 ^ 64 + k) % 2 ^ 64 by
      omega] at hin

theorem blit_zero {α : Type} (m : Nat → α) (addr : Nat) (src : Nat → α) : blit m addr 0 src = m :=
  funext fun _ => blit_out (Nat.zero_le _)

theorem inPages_zero (addr : Nat) (pages : List Span) : Write.InPages ⟨addr, 0, pages⟩ :=
  fun _ hk => absurd hk (Nat.not_lt_zero _)

-- What copying a checked segment leaves.
structure Copied (data : List UInt8) (ph : ElfPhdr) (addr : Nat) (s t : LoadState) : Prop where
  mem : t.mem = blit s.mem addr ph.memsz (ph.byte data)
  pages : t.pages = s.pages
  contained : t.Contained ↔ s.Contained ∧ Write.InPages ⟨addr, ph.memsz, s.pages⟩

theorem copyFile_eq (data : List UInt8) (ph : ElfPhdr) (addr : Nat) (s : LoadState) :
    (copyFile data ph addr s).mem =
        blit s.mem addr ph.filesz (fun k => data.getD (ph.offset + k) 0) ∧
      (copyFile data ph addr s).pages = s.pages ∧
      ((copyFile data ph addr s).Contained ↔
        s.Contained ∧ Write.InPages ⟨addr, ph.filesz, s.pages⟩) := by
  unfold copyFile
  by_cases hfile : ph.filesz > 0
  · rw [if_pos hfile]
    exact ⟨LoadState.write_mem, LoadState.write_pages, LoadState.contained_write⟩
  · have hnone : ph.filesz = 0 := by omega
    rw [if_neg hfile, hnone, blit_zero]
    exact ⟨rfl, rfl, (and_iff_left (inPages_zero addr s.pages)).symm⟩

theorem clearRest_eq (ph : ElfPhdr) (addr : Nat) (s : LoadState) :
    (clearRest ph addr s).mem =
        blit s.mem ((addr + ph.filesz) % 2 ^ 64) (ph.memsz - ph.filesz) (fun _ => 0) ∧
      (clearRest ph addr s).pages = s.pages ∧
      ((clearRest ph addr s).Contained ↔ s.Contained ∧
        Write.InPages ⟨(addr + ph.filesz) % 2 ^ 64, ph.memsz - ph.filesz, s.pages⟩) := by
  unfold clearRest
  by_cases hzero : ph.memsz > ph.filesz
  · rw [if_pos hzero]
    exact ⟨LoadState.write_mem, LoadState.write_pages, LoadState.contained_write⟩
  · have hnone : ph.memsz - ph.filesz = 0 := by omega
    rw [if_neg hzero, hnone, blit_zero]
    exact ⟨rfl, rfl, (and_iff_left (inPages_zero _ s.pages)).symm⟩

theorem copySegment_ok (s : LoadState) (hs : ph.Sound data.length) (haddr : addr < 2 ^ 64) :
    ∃ t, copySegment data ph addr s = .ok t ∧ Copied data ph addr s t := by
  have hle := hs.filesz_le
  have hmax : ph.memsz ≤ UINT64_MAX := Nat.le_trans (Nat.le_add_left _ _) hs.inSpace
  obtain ⟨hmem, hpages, hcontained⟩ := copyFile_eq data ph addr s
  obtain ⟨hmem', hpages', hcontained'⟩ := clearRest_eq ph addr (copyFile data ph addr s)
  refine ⟨_, if_neg fun hno => hno.2 hs.inFile, ?_, hpages'.trans hpages, ?_⟩
  · rw [hmem', hmem, blit_halves s.mem haddr hle hmax]
  · rw [hcontained', hcontained, hpages, and_assoc, inPages_halves s.pages hle]

end Copy

namespace ElfPhdr

-- The entry of the file is in the segment.
def Enters (ph : ElfPhdr) (entry : Nat) : Prop :=
  ph.flags &&& PF_X ≠ 0 ∧ ph.vaddr ≤ entry ∧ entry < ph.vaddr + ph.memsz

-- Memory can be had for a segment that has to be where it says.
structure Usable (ph : ElfPhdr) : Prop where
  aligned : ph.vaddr % 0x1000 = 0
  kind : ¬ (ph.flags &&& PF_X = 0 ∧ ph.flags &&& PF_W = 0 ∧ ph.flags &&& PF_R = 0)

def fixedPages (ph : ElfPhdr) : Span := ⟨ph.vaddr, ALIGN_UP ph.memsz / 0x1000 * 0x1000⟩

end ElfPhdr

-- What the first loop knows of the segments it has seen.
structure Extent (entry : Nat) (l : List ElfPhdr) (acc : Scan) : Prop where
  base_le : ∀ ph ∈ l, acc.imageBase ≤ ALIGN_DOWN ph.vaddr
  base_mem : acc.imageBase = UINT64_MAX ∨ ∃ ph ∈ l, acc.imageBase = ALIGN_DOWN ph.vaddr
  le_end : ∀ ph ∈ l, ALIGN_UP (ph.vaddr + ph.memsz) ≤ acc.endSpace
  end_mem : acc.endSpace = 0 ∨ ∃ ph ∈ l, acc.endSpace = ALIGN_UP (ph.vaddr + ph.memsz)
  entry_iff : acc.entryValid = true ↔ ∃ ph ∈ l, ph.Enters entry

section Extent

variable {entry : Nat} {l : List ElfPhdr} {acc : Scan}

theorem extent_nil (entry : Nat) : Extent entry [] ⟨false, UINT64_MAX, 0⟩ := by
  refine ⟨?_, .inl rfl, ?_, .inl rfl, ?_⟩ <;> simp

theorem Extent.snoc (h : Extent entry l acc) (ph : ElfPhdr) :
    Extent entry (l ++ [ph]) (acc.add entry ph) := by
  refine ⟨?_, ?_, ?_, ?_, ?_⟩
  · refine List.forall_mem_append.mpr ⟨fun ph' hph' => ?_, List.forall_mem_singleton.mpr ?_⟩
    · have hle := h.base_le ph' hph'
      simp only [Scan.add]
      split <;> omega
    · simp only [Scan.add]
      split <;> omega
  · simp only [Scan.add]
    split
    · exact .inr ⟨ph, by simp, rfl⟩
    · obtain hmax | ⟨ph', hph', heq⟩ := h.base_mem
      · exact .inl hmax
      · exact .inr ⟨ph', List.mem_append_left _ hph', heq⟩
  · refine List.forall_mem_append.mpr ⟨fun ph' hph' => ?_, List.forall_mem_singleton.mpr ?_⟩
    · have hle := h.le_end ph' hph'
      simp only [Scan.add]
      split <;> omega
    · simp only [Scan.add]
      split <;> omega
  · simp only [Scan.add]
    split
    · exact .inr ⟨ph, by simp, rfl⟩
    · obtain hzero | ⟨ph', hph', heq⟩ := h.end_mem
      · exact .inl hzero
      · exact .inr ⟨ph', List.mem_append_left _ hph', heq⟩
  · simp only [Scan.add, Bool.or_eq_true, Bool.and_eq_true, bne_iff_ne, decide_eq_true_eq,
      h.entry_iff, List.mem_append, List.mem_singleton, or_and_right, exists_or, exists_eq_left]
    refine or_congr_right ?_
    rw [ElfPhdr.Enters, and_assoc]
    exact and_congr_right fun _ => and_comm

end Extent

-- An image that is loaded where it says, up to some segment.
structure Fixed (data : List UInt8) (m : Nat → UInt8) (l : List ElfPhdr) (s : LoadState) :
    Prop where
  mem : s.mem = placed data 0 0 m l
  pages : s.pages = l.map ElfPhdr.fixedPages
  usable : ∀ ph ∈ l, ph.Usable
  apart : s.pages.Pairwise Span.Apart
  contained : s.Contained ↔ ∀ ph ∈ l, ph.memsz ≤ 2 ^ 64 - 0x1000

-- The first loop once it has been through `done`.
structure ScanInv (data : List UInt8) (ctx : ElfCtx) (phs : List ElfPhdr) (m : Nat → UInt8)
    (done : List (ElfPhdr × Nat)) (acc : Scan) (s : LoadState) : Prop where
  checked : ∀ p ∈ done, p.1.loadable = true →
    p.1.sound data.length = true ∧ p.1.apartFrom 64 data.length phs p.2 = true
  extent : Extent ctx.entry (loads (done.map Prod.fst)) acc
  reloc : ctx.reloc = true → s = ⟨m, [], []⟩
  fixed : ctx.reloc = false → Fixed data m (loads (done.map Prod.fst)) s

section Scan

variable {fw : Firmware} {data : List UInt8} {ctx : ElfCtx} {phs : List ElfPhdr}
  {m : Nat → UInt8} {done rest : List (ElfPhdr × Nat)} {acc : Scan} {s : LoadState}
  {ph : ElfPhdr} {i : Nat}

theorem loads_snoc_of_loadable (done : List (ElfPhdr × Nat)) (hload : ph.loadable = true) :
    loads ((done ++ [(ph, i)]).map Prod.fst) = loads (done.map Prod.fst) ++ [ph] := by
  simp [loads, hload]

theorem loads_snoc_of_not (done : List (ElfPhdr × Nat)) (hload : ¬ ph.loadable = true) :
    loads ((done ++ [(ph, i)]).map Prod.fst) = loads (done.map Prod.fst) := by
  simp [loads, hload]

theorem scanInv_nil : ScanInv data ctx phs m [] ⟨false, UINT64_MAX, 0⟩ ⟨m, [], []⟩ := by
  refine ⟨by simp, extent_nil _, fun _ => rfl, fun _ => ⟨rfl, rfl, by simp [loads], .nil, ?_⟩⟩
  simp [LoadState.Contained, loads]

theorem ScanInv.skip (h : ScanInv data ctx phs m done acc s) (hload : ¬ ph.loadable = true) :
    ScanInv data ctx phs m (done ++ [(ph, i)]) acc s := by
  have hloads := loads_snoc_of_not (i := i) done hload
  refine ⟨?_, hloads ▸ h.extent, h.reloc, fun hfix => hloads ▸ h.fixed hfix⟩
  exact List.forall_mem_append.mpr ⟨h.checked,
    List.forall_mem_singleton.mpr fun hyes => absurd hyes hload⟩

theorem cell_zero {x : Nat} (hx : x < 2 ^ 64) : cell 0 0 x = x := cell_self hx (Nat.zero_le _)

theorem zipIdx_getElem? {p : ElfPhdr × Nat} (h : p ∈ phs.zipIdx) : phs[p.2]? = some p.1 :=
  List.mem_zipIdx_iff_getElem?.mp h

theorem zipIdx_ne {pre post : List (ElfPhdr × Nat)} {p q : ElfPhdr × Nat}
    (h : phs.zipIdx = pre ++ p :: post) (hq : q ∈ pre) : q.2 ≠ p.2 := by
  have hnodup : (phs.zipIdx.map Prod.snd).Nodup := by
    rw [List.zipIdx_map_snd]
    exact List.nodup_range'
  rw [h, List.map_append, List.map_cons] at hnodup
  have hdis := (List.nodup_append.mp hnodup).2.2
  exact hdis _ (List.mem_map_of_mem hq) _ List.mem_cons_self

-- The check of a segment keeps it apart from the others.
theorem disjoint_of_ne (hs : ph.Sound data.length)
    (hapart : ph.apartFrom 64 data.length phs i = true) {q : ElfPhdr × Nat} (hq : q ∈ phs.zipIdx)
    (hne : q.2 ≠ i) (hload : q.1.loadable = true) (hqs : q.1.Sound data.length) :
    ph.Disjoint q.1 := by
  obtain ⟨hlt, heq⟩ := List.getElem?_eq_some_iff.mp (zipIdx_getElem? hq)
  have hoverlaps := apartFrom_overlaps hapart hlt hne (heq ▸ hload)
  exact ElfPhdr.disjoint_of_check hs hqs (heq ▸ hoverlaps)

-- A segment of nearly all there is leaves no room for another one.
theorem no_other {q : ElfPhdr} (hhuge : ¬ ph.memsz ≤ 2 ^ 64 - 0x1000)
    (hs : ph.vaddr + ph.memsz ≤ UINT64_MAX) (hu : ph.Usable) (hqs : q.vaddr + q.memsz ≤ UINT64_MAX)
    (hqu : q.Usable) (hd : ph.Disjoint q) (hq : q.memsz ≠ 0) : False := by
  have hp := hu.aligned
  have hqa := hqu.aligned
  simp only [UINT64_MAX] at hs hqs
  unfold ElfPhdr.Disjoint at hd
  omega

-- Pages of its own hold a segment unless its size rounds up to 0.
theorem inPages_fixed_iff (hs : ph.vaddr + ph.memsz ≤ UINT64_MAX) (hpos : ph.memsz ≠ 0)
    {pages : List Span} (hfirst : ¬ ph.memsz ≤ 2 ^ 64 - 0x1000 → pages = []) :
    Write.InPages ⟨ph.vaddr, ph.memsz, pages ++ [ph.fixedPages]⟩ ↔
      ph.memsz ≤ 2 ^ 64 - 0x1000 := by
  simp only [UINT64_MAX] at hs
  constructor
  · intro hin
    by_contra hhuge
    obtain ⟨p, hp, hmem⟩ := hin 0 (Nat.pos_of_ne_zero hpos)
    rw [hfirst hhuge, List.nil_append] at hp
    have heq := List.mem_singleton.mp hp
    rw [heq] at hmem
    simp only [ElfPhdr.fixedPages, Span.Mem, ALIGN_UP] at hmem
    omega
  · intro hsmall k hk
    refine ⟨ph.fixedPages, by simp, ?_⟩
    simp only [ElfPhdr.fixedPages, Span.Mem, ALIGN_UP]
    dsimp only at hk
    omega

-- A step of the first loop that loads a segment.
theorem Fixed.load (h : Fixed data m (loads (done.map Prod.fst)) s) {t : LoadState}
    (hs : ph.Sound data.length) (hpos : ph.memsz ≠ 0) (hu : ph.Usable)
    (hown : ∀ p ∈ s.pages, Span.Apart ph.fixedPages p)
    (hfirst : ¬ ph.memsz ≤ 2 ^ 64 - 0x1000 → loads (done.map Prod.fst) = [])
    (hcopy : Copied data ph ph.vaddr { s with pages := s.pages ++ [ph.fixedPages] } t) :
    Fixed data m (loads (done.map Prod.fst) ++ [ph]) t := by
  have hlt : ph.vaddr < 2 ^ 64 := Nat.lt_of_le_of_lt (Nat.le_add_right _ _) hs.end_lt
  refine ⟨?_, ?_, ?_, ?_, ?_⟩
  · rw [hcopy.mem, placed_append, placed_singleton, cell_zero hlt, ← h.mem]
  · rw [hcopy.pages, List.map_append, List.map_singleton, h.pages]
  · exact List.forall_mem_append.mpr ⟨h.usable, List.forall_mem_singleton.mpr hu⟩
  · rw [hcopy.pages]
    refine List.pairwise_append.mpr ⟨h.apart, List.pairwise_singleton _ _, fun p hp q hq => ?_⟩
    rw [List.mem_singleton.mp hq]
    exact (hown p hp).symm
  · have hpages : ¬ ph.memsz ≤ 2 ^ 64 - 0x1000 → s.pages = [] := fun hhuge => by
      rw [h.pages, hfirst hhuge, List.map_nil]
    rw [hcopy.contained, inPages_fixed_iff hs.inSpace hpos hpages, List.forall_mem_append]
    refine and_congr h.contained ?_
    simp only [List.mem_singleton, forall_eq]

theorem ScanInv.check (h : ScanInv data ctx phs m done acc s)
    (hok : ph.sound data.length = true ∧ ph.apartFrom 64 data.length phs i = true) :
    ∀ p ∈ done ++ [(ph, i)], p.1.loadable = true →
      p.1.sound data.length = true ∧ p.1.apartFrom 64 data.length phs p.2 = true :=
  List.forall_mem_append.mpr ⟨h.checked, List.forall_mem_singleton.mpr fun _ => hok⟩

theorem ScanInv.extend (h : ScanInv data ctx phs m done acc s) (hload : ph.loadable = true) :
    Extent ctx.entry (loads ((done ++ [(ph, i)]).map Prod.fst)) (acc.add ctx.entry ph) := by
  rw [loads_snoc_of_loadable done hload]
  exact h.extent.snoc ph

-- A segment of almost all of memory leaves no room for one before it.
theorem ScanInv.huge_first (h : ScanInv data ctx phs m done acc s)
    (hsplit : phs.zipIdx = done ++ (ph, i) :: rest) (hs : ph.Sound data.length)
    (hapart : ph.apartFrom 64 data.length phs i = true) (hu : ph.Usable)
    (hfix : Fixed data m (loads (done.map Prod.fst)) s) (hhuge : ¬ ph.memsz ≤ 2 ^ 64 - 0x1000) :
    loads (done.map Prod.fst) = [] := by
  apply List.eq_nil_iff_forall_not_mem.mpr
  intro q hq
  obtain ⟨hmem, hload⟩ := mem_loads.mp hq
  obtain ⟨p, hp, rfl⟩ := List.mem_map.mp hmem
  have hps := ElfPhdr.sound_of_check (h.checked p hp hload).1 hload
  have hdisjoint := disjoint_of_ne hs hapart (hsplit ▸ List.mem_append_left _ hp)
    (zipIdx_ne hsplit hp) hload hps
  exact no_other hhuge hs.inSpace hu hps.inSpace (hfix.usable _ hq) hdisjoint
    (ElfPhdr.loadable_iff.mp hload).2

-- Where the first loop returns AOS_FALSE.
def Refuses (fw : Firmware) (data : List UInt8) (ctx : ElfCtx) (phs : List ElfPhdr)
    (s : LoadState) (ph : ElfPhdr) (i : Nat) : Prop :=
  ph.loadable = true ∧
    (¬ (ph.sound data.length = true ∧ ph.apartFrom 64 data.length phs i = true) ∨
      ctx.reloc = false ∧
        (ph.flags &&& PF_X = 0 ∧ ph.flags &&& PF_W = 0 ∧ ph.flags &&& PF_R = 0 ∨
          fw.allocatePages (some ph.vaddr) (ALIGN_UP ph.memsz / 0x1000) s.pages = none))

-- How the first loop ends: at a segment it refuses, or behind the last one.
structure Scanned (fw : Firmware) (data : List UInt8) (ctx : ElfCtx) (phs : List ElfPhdr)
    (m : Nat → UInt8) (r : Option Scan) (t : LoadState) (done : List (ElfPhdr × Nat))
    (acc : Scan) : Prop where
  inv : ScanInv data ctx phs m done acc t
  refused : r = none → ∃ ph i rest, phs.zipIdx = done ++ (ph, i) :: rest ∧
    Refuses fw data ctx phs t ph i
  ended : ∀ a, r = some a → phs.zipIdx = done ∧ acc = a

-- The first loop reads inside the file.
theorem scan_run (fw : Firmware) (hsplit : phs.zipIdx = done ++ rest)
    (h : ScanInv data ctx phs m done acc s) :
    ∃ r t done' acc', scanSegments fw 64 data ctx phs rest acc s = .ok (r, t) ∧
      Scanned fw data ctx phs m r t done' acc' := by
  induction rest generalizing done acc s with
  | nil =>
      refine ⟨some acc, s, done, acc, rfl, h, (fun hno => nomatch hno), fun a ha => ?_⟩
      rw [hsplit, List.append_nil]
      exact ⟨rfl, Option.some.inj ha⟩
  | cons p rest ih =>
      obtain ⟨ph, i⟩ := p
      have hstop : Refuses fw data ctx phs s ph i → ∃ r t done' acc',
          Except.ok (ε := Fault) ((none : Option Scan), s) = .ok (r, t) ∧
            Scanned fw data ctx phs m r t done' acc' := fun hrefuses =>
        ⟨none, s, done, acc, rfl, h, fun _ => ⟨ph, i, rest, hsplit, hrefuses⟩,
          fun _ hno => nomatch hno⟩
      have hsplit' : phs.zipIdx = (done ++ [(ph, i)]) ++ rest := by simpa using hsplit
      rw [scanSegments]
      by_cases hload : ph.loadable = true
      · rw [if_neg (by simp [hload])]
        by_cases hok : ph.sound data.length = true ∧ ph.apartFrom 64 data.length phs i = true
        · rw [if_neg (by simp [hok])]
          have hsound := ElfPhdr.sound_of_check hok.1 hload
          have hpos := (ElfPhdr.loadable_iff.mp hload).2
          cases hreloc : ctx.reloc with
          | true =>
              rw [if_pos rfl]
              refine ih hsplit' ⟨h.check hok, h.extend hload, h.reloc, fun hno => ?_⟩
              rw [hreloc] at hno
              cases hno
          | false =>
              rw [if_neg Bool.false_ne_true]
              have hfix := h.fixed hreloc
              by_cases hkind : ph.flags &&& PF_X = 0 ∧ ph.flags &&& PF_W = 0 ∧ ph.flags &&& PF_R = 0
              · rw [if_pos hkind]
                exact hstop ⟨hload, .inr ⟨hreloc, .inl hkind⟩⟩
              rw [if_neg hkind]
              cases halloc : fw.allocatePages (some ph.vaddr) (ALIGN_UP ph.memsz / 0x1000) s.pages with
              | none => exact hstop ⟨hload, .inr ⟨hreloc, .inr halloc⟩⟩
              | some addr =>
                  obtain rfl := fw.fixed halloc
                  have hu : ph.Usable := ⟨fw.aligned halloc, hkind⟩
                  have hlt : ph.vaddr < 2 ^ 64 :=
                    Nat.lt_of_le_of_lt (Nat.le_add_right _ _) hsound.end_lt
                  have hfirst := h.huge_first hsplit hsound hok.2 hu hfix
                  obtain ⟨t, ht, hcopy⟩ :=
                    copySegment_ok { s with pages := s.pages ++ [ph.fixedPages] } hsound hlt
                  rw [ElfPhdr.fixedPages] at ht
                  dsimp only
                  rw [ht]
                  have hload' := hfix.load hsound hpos hu (fw.own halloc) hfirst hcopy
                  rw [← loads_snoc_of_loadable (i := i) done hload] at hload'
                  refine ih hsplit' ⟨h.check hok, h.extend hload, fun hyes => ?_, fun _ => hload'⟩
                  rw [hreloc] at hyes
                  cases hyes
        · rw [if_pos (by rwa [Bool.not_eq_true', ← Bool.not_eq_true, Bool.and_eq_true])]
          exact hstop ⟨hload, .inl hok⟩
      · rw [if_pos (by simp [hload])]
        exact ih hsplit' (h.skip hload)

theorem scan_all (fw : Firmware) (data : List UInt8) (ctx : ElfCtx) (phs : List ElfPhdr)
    (m : Nat → UInt8) :
    ∃ r t done acc, scanSegments fw 64 data ctx phs phs.zipIdx ⟨false, UINT64_MAX, 0⟩ ⟨m, [], []⟩ =
      .ok (r, t) ∧ Scanned fw data ctx phs m r t done acc :=
  scan_run fw (List.nil_append _).symm scanInv_nil

end Scan

-- The second loop writes every segment, each to its own place.
theorem place_run {data : List UInt8} (imageBase loadBase entry : Nat) {phs : List ElfPhdr}
    (s : LoadState) (valid : Bool) (hs : ∀ ph ∈ loads phs, ph.Sound data.length) :
    ∃ v t, placeSegments data imageBase loadBase entry phs valid s = .ok (v, t) ∧
      t.mem = placed data loadBase imageBase s.mem (loads phs) ∧
      (t.Contained ↔ s.Contained ∧ ∀ ph ∈ loads phs,
        Write.InPages ⟨cell loadBase imageBase ph.vaddr, ph.memsz, s.pages⟩) ∧
      (v = true → valid = true ∨ ∃ ph ∈ loads phs, ph.flags &&& PF_X ≠ 0 ∧
        cell loadBase imageBase ph.vaddr ≤ entry ∧
        entry < (cell loadBase imageBase ph.vaddr + ph.memsz) % 2 ^ 64) ∧
      (valid = true → v = true) := by
  induction phs generalizing s valid with
  | nil =>
      exact ⟨valid, s, rfl, rfl, by simp [loads], fun hv => .inl hv, id⟩
  | cons ph rest ih =>
      rw [placeSegments]
      by_cases hload : ph.loadable = true
      · have hloads : loads (ph :: rest) = ph :: loads rest := by simp [loads, hload]
        rw [hloads] at hs ⊢
        obtain ⟨hph, hrest⟩ := List.forall_mem_cons.mp hs
        obtain ⟨u, hu, hcopy⟩ := copySegment_ok s hph (cell_lt loadBase imageBase ph.vaddr)
        rw [if_neg (by simp [hload])]
        rw [cell] at hu
        dsimp only
        rw [hu]
        obtain ⟨v, t, hrun, hmem, hcontained, hvalid, hkeep⟩ := ih u
          (valid || (ph.flags &&& PF_X != 0 &&
            decide (entry < (cell loadBase imageBase ph.vaddr + ph.memsz) % 2 ^ 64) &&
            decide (entry ≥ cell loadBase imageBase ph.vaddr))) hrest
        refine ⟨v, t, hrun, ?_, ?_, ?_, ?_⟩
        · rw [hmem, hcopy.mem, ← placed_singleton, ← placed_append]
          rfl
        · rw [hcontained, hcopy.contained, hcopy.pages, List.forall_mem_cons, and_assoc]
        · intro hv
          obtain hv | ⟨ph', hph', hin⟩ := hvalid hv
          · simp only [Bool.or_eq_true, Bool.and_eq_true, bne_iff_ne, decide_eq_true_eq] at hv
            obtain hv | ⟨⟨hx, hlt⟩, hge⟩ := hv
            · exact .inl hv
            · exact .inr ⟨ph, List.mem_cons_self, hx, hge, hlt⟩
          · exact .inr ⟨ph', List.mem_cons_of_mem _ hph', hin⟩
        · intro hyes
          exact hkeep (by simp [hyes])
      · have hloads : loads (ph :: rest) = loads rest := by simp [loads, hload]
        rw [hloads] at hs ⊢
        rw [if_pos (by simp [hload])]
        exact ih s valid hs

end AosKernel.Elf
