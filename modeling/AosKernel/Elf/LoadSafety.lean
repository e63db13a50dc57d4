import AosKernel.Elf.Greedy

namespace AosKernel.Elf

open Verif

-- Every PT_LOAD segment is where it belongs in memory, and the entry is in one of them.
structure ImageLoaded (data : List UInt8) (phs : List ElfPhdr) (image : Loaded)
    (mem : Nat → UInt8) : Prop where
  file : ∀ ph ∈ phs, ph.type = PT_LOAD → ∀ k < ph.filesz,
    data[ph.offset + k]? = some (mem (cell image.imageBase (lowest phs) (ph.vaddr + k)))
  zero : ∀ ph ∈ phs, ph.type = PT_LOAD → ∀ k, ph.filesz ≤ k → k < ph.memsz →
    mem (cell image.imageBase (lowest phs) (ph.vaddr + k)) = 0
  entry : ∃ ph ∈ phs, ph.type = PT_LOAD ∧ ph.flags &&& PF_X ≠ 0 ∧ ∃ k < ph.memsz,
    image.entry = cell image.imageBase (lowest phs) (ph.vaddr + k)

-- Reading the file stays inside it, writing stays in pages that the loader has, and an
-- image that is accepted is loaded.
def LoadsSafely (fw : Firmware) (data : List UInt8) (m : Nat → UInt8) : Prop :=
  ∃ r, elfMakeCtx data = .ok r ∧ ∀ ctx, r = some ctx →
    ∃ out t, elf64Load fw data ctx ⟨m, [], []⟩ = .ok (out, t) ∧ t.Contained ∧
      ∀ image, out = some image → ImageLoaded data (phdrs data) image t.mem

-- What segments without memory have in the file is in the image all the same.
def BareLoaded (data : List UInt8) (phs : List ElfPhdr) : Prop :=
  ∀ ph ∈ phs, ph.type = PT_LOAD → ph.memsz = 0 → ∀ k < ph.filesz, ∃ b,
    data[ph.offset + k]? = some b ∧ imageByte data (loads phs) ((ph.vaddr + k) % 2 ^ 64) = some b

structure Loadable (data : List UInt8) (ctx : ElfCtx) (phs : List ElfPhdr) : Prop where
  reloc : ¬ RelocWraps data ctx phs
  fixed : ¬ FixedWraps data ctx phs
  bare : Acceptable data ctx phs → BareLoaded data phs

section Image

variable {data : List UInt8} {ctx : ElfCtx} {phs : List ElfPhdr} {m : Nat → UInt8}
  {image : Loaded} {ph : ElfPhdr}

-- Segments that lie apart, each in its file and in the address space.
structure Laid (data : List UInt8) (phs : List ElfPhdr) : Prop where
  sound : ∀ ph ∈ loads phs, ph.Sound data.length
  disjoint : (loads phs).Pairwise ElfPhdr.Disjoint
  lowest_le : lowest phs ≤ 2 ^ 64

theorem Acceptable.laid (hacc : Acceptable data ctx phs) : Laid data phs := by
  refine ⟨fun _ hph => hacc.checked.sound hph, hacc.checked.disjoint, ?_⟩
  have hlt := lowest_lt_of_reaches hacc.reaches hacc.checked
  simp only [UINT64_MAX] at hlt
  omega

theorem placed_at (hlaid : Laid data phs) (base x : Nat) :
    placed data base (lowest phs) m (loads phs) (cell base (lowest phs) x) =
      (imageByte data (loads phs) (x % 2 ^ 64)).getD (m (cell base (lowest phs) x)) := by
  rw [← cell_mod hlaid.lowest_le x]
  exact placed_cell hlaid.lowest_le (fun ph hph => (hlaid.sound ph hph).inSpace) hlaid.disjoint
    (Nat.mod_lt _ (Nat.two_pow_pos 64))

theorem placed_at_segment (hlaid : Laid data phs) (hph : ph ∈ loads phs) (base : Nat)
    {k : Nat} (hk : k < ph.memsz) :
    placed data base (lowest phs) m (loads phs) (cell base (lowest phs) (ph.vaddr + k)) =
      ph.byte data k := by
  have hspace := (hlaid.sound ph hph).end_lt
  have hcover : ph.Covers (ph.vaddr + k) := ⟨Nat.le_add_right .., Nat.add_lt_add_left hk _⟩
  rw [placed_at hlaid, Nat.mod_eq_of_lt (by omega),
    imageByte_of_covers hlaid.disjoint hph hcover, Nat.add_sub_cancel_left, Option.getD_some]

theorem mem_loads_of_size (hph : ph ∈ phs) (htype : ph.type = PT_LOAD) (hpos : ph.memsz ≠ 0) :
    ph ∈ loads phs :=
  mem_loads.mpr ⟨hph, ElfPhdr.loadable_iff.mpr ⟨htype, hpos⟩⟩

theorem placed_file (hlaid : Laid data phs) (hbare : BareLoaded data phs) (base : Nat)
    (hph : ph ∈ phs) (htype : ph.type = PT_LOAD) {k : Nat} (hk : k < ph.filesz) :
    data[ph.offset + k]? =
      some (placed data base (lowest phs) m (loads phs) (cell base (lowest phs) (ph.vaddr + k))) := by
  by_cases hpos : ph.memsz = 0
  · obtain ⟨b, hb, himage⟩ := hbare ph hph htype hpos k hk
    rw [placed_at hlaid, himage, hb, Option.getD_some]
  · have hs := hlaid.sound ph (mem_loads_of_size hph htype hpos)
    have hin := hs.inFile
    rw [placed_at_segment hlaid (mem_loads_of_size hph htype hpos) _ (hk.trans_le hs.filesz_le),
      ElfPhdr.byte, if_pos hk, List.getD_eq_getElem?_getD,
      List.getElem?_eq_getElem (by omega), Option.getD_some]

theorem placed_zero (hlaid : Laid data phs) (base : Nat) (hph : ph ∈ phs)
    (htype : ph.type = PT_LOAD) {k : Nat} (hfile : ph.filesz ≤ k) (hk : k < ph.memsz) :
    placed data base (lowest phs) m (loads phs) (cell base (lowest phs) (ph.vaddr + k)) = 0 := by
  rw [placed_at_segment hlaid (mem_loads_of_size hph htype (Nat.ne_zero_of_lt hk)) _ hk,
    ElfPhdr.byte, if_neg (Nat.not_lt.mpr hfile)]

theorem imageLoaded_of_placed (hacc : Acceptable data ctx phs) (hbare : BareLoaded data phs)
    (hentry : image.entry = cell image.imageBase (lowest phs) ctx.entry) :
    ImageLoaded data phs image (placed data image.imageBase (lowest phs) m (loads phs)) := by
  refine ⟨fun ph hph htype k hk => placed_file hacc.laid hbare _ hph htype hk,
    fun ph hph htype k hfile hk => placed_zero hacc.laid _ hph htype hfile hk, ?_⟩
  obtain ⟨ph, hph, hx, hge, hlt⟩ := hacc.enters
  obtain ⟨hmem, hl⟩ := mem_loads.mp hph
  refine ⟨ph, hmem, (ElfPhdr.loadable_iff.mp hl).1, hx, ctx.entry - ph.vaddr, by omega, ?_⟩
  rw [hentry, Nat.add_sub_cancel' hge]

-- Memory that was there before shows where the image has nothing.
theorem bareLoaded_of_file (hlaid : Laid data phs) (base : Nat)
    (h : ∀ m, ∀ ph ∈ phs, ph.type = PT_LOAD → ∀ k < ph.filesz, data[ph.offset + k]? =
      some (placed data base (lowest phs) m (loads phs)
        (cell base (lowest phs) (ph.vaddr + k)))) :
    BareLoaded data phs := by
  intro ph hph htype _ k hk
  have hall := fun m => h m ph hph htype k hk
  simp only [placed_at hlaid] at hall
  cases himage : imageByte data (loads phs) ((ph.vaddr + k) % 2 ^ 64) with
  | some b =>
      refine ⟨b, ?_, rfl⟩
      simpa only [himage, Option.getD_some] using hall fun _ => 0
  | none =>
      simp only [himage, Option.getD_none] at hall
      have hdiff := (hall fun _ => 0).symm.trans (hall fun _ => 1)
      exact absurd hdiff (by decide)

end Image

section Condition

variable {data : List UInt8} {ctx : ElfCtx} {phs : List ElfPhdr}

theorem loadSegments_safe (hcond : Loadable data ctx phs) (hentry : ctx.entry < 2 ^ 64)
    (fw : Firmware) (m : Nat → UInt8) :
    ∃ out u, loadSegments fw 64 data ctx phs ⟨m, [], []⟩ = .ok (out, u) ∧ u.Contained ∧
      ∀ image, out = some image → ImageLoaded data phs image u.mem := by
  obtain ⟨out, u, hload, h⟩ := loadSegments_outcome hentry fw m
  refine ⟨out, u, hload, h.contained hcond.reloc hcond.fixed, fun image himage => ?_⟩
  have hacc := h.accepted image himage
  rw [h.mem image himage]
  exact imageLoaded_of_placed hacc (hcond.bare hacc) (h.entry image himage)

theorem loadable_of_safe (hentry : ctx.entry < 2 ^ 64)
    (h : ∀ fw m, ∃ out u, loadSegments fw 64 data ctx phs ⟨m, [], []⟩ = .ok (out, u) ∧
      u.Contained ∧ ∀ image, out = some image → ImageLoaded data phs image u.mem) :
    Loadable data ctx phs := by
  refine ⟨?_, ?_, fun hacc => ?_⟩
  · rintro ⟨hreloc, hc, hreaches, ph, hph, hwrap⟩
    obtain ⟨v, size, u, hload, -, hin, -⟩ := greedy_placed rfl (Nat.zero_le _) hc hreaches hreloc hentry fun _ => 0
    obtain ⟨out, u', hrun, hcontained, -⟩ := h (greedy 0) fun _ => 0
    rw [hload] at hrun
    cases hrun
    exact Nat.not_le.mpr hwrap (hin.mp hcontained ph hph)
  · rintro ⟨hreloc, p, hfirst, hs, hapart, hu, hhuge⟩
    obtain ⟨r, t, done, acc, hscan, hsc⟩ := scan_all (greedy 0) data ctx phs fun _ => 0
    obtain ⟨out, hload⟩ := loadSegments_state hscan hreloc
    obtain ⟨out', u', hrun, hcontained, -⟩ := h (greedy 0) fun _ => 0
    rw [hload] at hrun
    cases hrun
    have hdone := greedy_first hreloc hfirst hs hapart hu hsc
    have hmem : p.1 ∈ loads (done.map Prod.fst) :=
      mem_loads.mpr ⟨List.mem_map_of_mem hdone, by simpa using List.find?_some hfirst⟩
    exact Nat.not_le.mpr hhuge ((hsc.inv.fixed hreloc).contained.mp hcontained _ hmem)
  · apply bareLoaded_of_file hacc.laid (greedyBase 0 ctx phs)
    intro m
    obtain ⟨image, u, hload, hbase, hmem⟩ := greedy_accepts rfl (Nat.zero_le _) hacc hentry m
    obtain ⟨out, u', hrun, -, himage⟩ := h (greedy 0) m
    rw [hload] at hrun
    cases hrun
    have hfile := (himage image rfl).file
    rwa [hmem, hbase] at hfile

end Condition

theorem elf64Load_b32 {fw : Firmware} {data : List UInt8} {ctx : ElfCtx} {s : LoadState}
    (h : ¬ ctx.b64 = true) : elf64Load fw data ctx s = .ok (none, s) :=
  if_pos (.inr (by simpa using h))

-- Exactly then loading a file is safe whatever the firmware grants and memory holds.
theorem loadsSafely_iff (data : List UInt8) :
    (∀ fw m, LoadsSafely fw data m) ↔ ∀ ctx, elfMakeCtx data = .ok (some ctx) →
      ctx.b64 = true → Loadable data ctx (phdrs data) := by
  obtain ⟨r, hctx, hread⟩ := elfMakeCtx_ok data
  constructor
  · intro h ctx hmake hb64
    rw [hctx] at hmake
    obtain rfl := Except.ok.inj hmake
    obtain ⟨hsize, htable, hentry⟩ := hread ctx rfl hb64
    refine loadable_of_safe hentry fun fw m => ?_
    obtain ⟨r', hr', hrun⟩ := h fw m
    rw [hctx] at hr'
    obtain rfl := Except.ok.inj hr'
    obtain ⟨out, t, hload⟩ := hrun ctx rfl
    rw [elf64Load_eq hb64 hsize htable] at hload
    exact ⟨out, t, hload⟩
  · intro h fw m
    refine ⟨r, hctx, fun ctx hr => ?_⟩
    by_cases hb64 : ctx.b64 = true
    · obtain ⟨hsize, htable, hentry⟩ := hread ctx hr hb64
      rw [elf64Load_eq hb64 hsize htable]
      exact loadSegments_safe (h ctx (by rw [hctx, hr]) hb64) hentry fw m
    · rw [elf64Load_b32 hb64]
      exact ⟨none, _, rfl, contained_start m [], fun _ hno => nomatch hno⟩

-- Bytes of a number, lowest one first.
def leBytes : Nat → Nat → List UInt8
  | 0, _ => []
  | width + 1, x => UInt8.ofNat x :: leBytes width (x / 256)

-- A relocatable image of two pages at the end of the address space.
def twoPages : List UInt8 :=
  leBytes 4 ELFMAG ++ [2, 1, 1] ++ leBytes 9 0 ++ leBytes 2 ET_DYN ++ leBytes 2 EM_X86_64 ++
  leBytes 4 EV_CURRENT ++ leBytes 8 0xFFFFFFFFFFFFE000 ++ leBytes 8 64 ++ leBytes 8 0 ++
  leBytes 4 0 ++ leBytes 2 64 ++ leBytes 2 56 ++ leBytes 2 2 ++ leBytes 6 0 ++
  leBytes 4 PT_LOAD ++ leBytes 4 5 ++ leBytes 8 0 ++ leBytes 8 0xFFFFFFFFFFFFE000 ++ leBytes 8 0 ++
  leBytes 8 0 ++ leBytes 8 0x1000 ++ leBytes 8 0x1000 ++
  leBytes 4 PT_LOAD ++ leBytes 4 6 ++ leBytes 8 0 ++ leBytes 8 0xFFFFFFFFFFFFF000 ++ leBytes 8 0 ++
  leBytes 8 0 ++ leBytes 8 0x10 ++ leBytes 8 0x1000

theorem twoPages_ctx :
    elfMakeCtx twoPages = .ok (some ⟨true, true, true, 0xFFFFFFFFFFFFE000⟩) := by
  decide +kernel

theorem twoPages_checked : Checked 64 twoPages.length (phdrs twoPages) := by
  unfold Checked
  decide +kernel

-- The second segment is written behind the one page that the loader has.
theorem twoPages_unsafe : ¬ LoadsSafely (greedy 0) twoPages fun _ => 0 := by
  rintro ⟨r, hr, hrun⟩
  rw [twoPages_ctx] at hr
  obtain ⟨hsize, htable, -⟩ : sizeofElf64Ehdr ≤ twoPages.length ∧
      le twoPages 32 8 + le twoPages 56 2 * sizeofElf64Phdr ≤ twoPages.length ∧ True := by
    decide +kernel
  have hreaches : Reaches (phdrs twoPages) := by
    unfold Reaches
    decide +kernel
  have hwrap : ∃ ph ∈ loads (phdrs twoPages), lastPage < ph.vaddr + ph.memsz := by
    decide +kernel
  obtain ⟨ph, hph, hlast⟩ := hwrap
  obtain ⟨v, size, u, hload, -, hin, -⟩ :=
    greedy_placed rfl (Nat.zero_le _) twoPages_checked hreaches rfl
      (show (⟨true, true, true, 0xFFFFFFFFFFFFE000⟩ : ElfCtx).entry < 2 ^ 64 by decide) fun _ => 0
  obtain ⟨out, t, hrun, hcontained, -⟩ := hrun _ (Except.ok.inj hr).symm
  rw [elf64Load_eq rfl hsize htable, hload] at hrun
  cases hrun
  exact Nat.not_le.mpr hlast (hin.mp hcontained ph hph)

end AosKernel.Elf
