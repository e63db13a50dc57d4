import AosKernel.Elf.LoadSafety

namespace AosKernel.Elf

open Verif

def sizeofElf64Dyn : Nat := 16
def sizeofElf64Rela : Nat := 24

def DT_NULL : Nat := 0
def DT_RELA : Nat := 7
def DT_RELASZ : Nat := 8
def R_X86_64_RELATIVE : Nat := 8

-- The entries of a dynamic section up to DT_NULL, each a tag and its value.
def dynamicEntries (data : List UInt8) (ph : ElfPhdr) : List (Nat × Nat) :=
  ((List.range (ph.filesz / sizeofElf64Dyn)).map fun i =>
    (le data (ph.offset + i * sizeofElf64Dyn) 8, le data (ph.offset + i * sizeofElf64Dyn + 8) 8))
  |>.takeWhile fun entry => entry.1 != DT_NULL

-- The last entry with a tag counts.
def dynamicValue (entries : List (Nat × Nat)) (tag : Nat) : Option Nat :=
  (entries.reverse.find? fun entry => entry.1 == tag).map Prod.snd

structure Elf64Rela where
  offset : Nat
  info : Nat
  addend : Nat
  deriving DecidableEq

-- The 64-bit word at a virtual address of the image, as the file gives it.
def imageWord (data : List UInt8) (phs : List ElfPhdr) (x : Nat) : Nat :=
  leNat ((List.range 8).map fun k => (imageByte data phs (x + k)).getD 0)

def elf64Rela (data : List UInt8) (phs : List ElfPhdr) (x : Nat) : Elf64Rela where
  offset := imageWord data phs x
  info := imageWord data phs (x + 8)
  addend := imageWord data phs (x + 16)

-- The relocations that the dynamic section of an image lists.
def relocations (data : List UInt8) (phs : List ElfPhdr) : List Elf64Rela :=
  match phs.find? fun ph => ph.type == PT_DYNAMIC with
  | none => []
  | some ph =>
      match dynamicValue (dynamicEntries data ph) DT_RELA,
          dynamicValue (dynamicEntries data ph) DT_RELASZ with
      | some rela, some relasz =>
          (List.range (relasz / sizeofElf64Rela)).map fun i =>
            elf64Rela data (loads phs) (rela + i * sizeofElf64Rela)
      | _, _ => []

-- All of them are relative to the base of the image, and in its segments.
def RelativeOnly (data : List UInt8) (phs : List ElfPhdr) : Prop :=
  ∀ r ∈ relocations data phs, r.info % 2 ^ 32 = R_X86_64_RELATIVE ∧
    ∃ ph ∈ loads phs, ph.vaddr ≤ r.offset ∧ r.offset + 8 ≤ ph.vaddr + ph.memsz

def memWord (mem : Nat → UInt8) (addr : Nat) : Nat :=
  leNat ((List.range 8).map fun k => mem ((addr + k) % 2 ^ 64))

-- The image is relocated to `base`, and is else what the file says.
structure Relocated (data : List UInt8) (phs : List ElfPhdr) (base : Nat) (mem : Nat → UInt8) :
    Prop where
  word : ∀ r ∈ relocations data phs,
    memWord mem (cell base (lowest phs) r.offset) =
      (base + 2 ^ 64 - lowest phs + r.addend) % 2 ^ 64
  rest : ∀ x, (∃ ph ∈ loads phs, ph.Covers x) →
    (∀ r ∈ relocations data phs, ¬ (r.offset ≤ x ∧ x < r.offset + 8)) →
    imageByte data (loads phs) x = some (mem (cell base (lowest phs) x))

-- A relocatable kernel that is loaded is relocated.
def RelocatesKernel (fw : Firmware) (data : List UInt8) (m : Nat → UInt8) : Prop :=
  ∀ kernel t, tryLoadElf fw data ⟨m, [], []⟩ = .ok (some kernel, t) →
    ∀ ctx, elfMakeCtx data = .ok (some ctx) → ctx.b64 = true → ctx.reloc = true →
      RelativeOnly data (phdrs data) →
      Relocated data (phdrs data) kernel.image.imageBase t.mem

section Relocation

variable {data : List UInt8} {ctx : ElfCtx} {phs : List ElfPhdr} {m : Nat → UInt8}
  {fw : Firmware}

theorem placed_imageByte (hacc : Acceptable data ctx phs) (base : Nat) {x : Nat}
    (hx : ∃ ph ∈ loads phs, ph.Covers x) :
    imageByte data (loads phs) x =
      some (placed data base (lowest phs) m (loads phs) (cell base (lowest phs) x)) := by
  obtain ⟨ph, hph, hge, hlt⟩ := hx
  have hbyte := placed_at_segment (m := m) hacc.laid hph base (show x - ph.vaddr < ph.memsz by omega)
  rw [Nat.add_sub_cancel' hge] at hbyte
  rw [hbyte, imageByte_of_covers hacc.checked.disjoint hph ⟨hge, hlt⟩]

-- The loader leaves every word of the image as it is in the file, wherever the image is.
theorem placed_word (hacc : Acceptable data ctx phs) (base : Nat) {x : Nat}
    (hx : ∃ ph ∈ loads phs, ph.vaddr ≤ x ∧ x + 8 ≤ ph.vaddr + ph.memsz) :
    memWord (placed data base (lowest phs) m (loads phs)) (cell base (lowest phs) x) =
      imageWord data (loads phs) x := by
  obtain ⟨ph, hph, hge, hle⟩ := hx
  refine congrArg leNat (List.map_congr_left fun k hk => ?_)
  have hlt : k < 8 := List.mem_range.mp hk
  have hcell : (cell base (lowest phs) x + k) % 2 ^ 64 = cell base (lowest phs) (x + k) := by
    have hlow := lowest_lt_of_reaches hacc.reaches hacc.checked
    simp only [UINT64_MAX] at hlow
    unfold cell
    omega
  rw [hcell, placed_imageByte (m := m) hacc base ⟨ph, hph, by omega, by omega⟩,
    Option.getD_some]

-- try_load_elf is no more than elf64_load for such a file.
theorem tryLoadElf_eq (hfw : fw.initialized = true) (hmake : elfMakeCtx data = .ok (some ctx))
    (hb64 : ctx.b64 = true) {image : Option Loaded} {t : LoadState}
    (hload : loadSegments fw 64 data ctx (phdrs data) ⟨m, [], []⟩ = .ok (image, t)) :
    ∃ k, tryLoadElf fw data ⟨m, [], []⟩ = .ok (k, t) ∧ k.map Kernel.image = image := by
  obtain ⟨r, hr, hread⟩ := elfMakeCtx_ok data
  rw [hmake] at hr
  obtain ⟨hsize, htable, -⟩ := hread ctx (Except.ok.inj hr).symm hb64
  have hpos : data.length ≠ 0 := by
    simp only [sizeofElf64Ehdr] at hsize
    omega
  rw [tryLoadElf, if_neg (by simp [hfw]), hmake, bind_ok]
  dsimp only
  rw [elfLoad, if_neg hpos, if_pos hb64, elf64Load_eq hb64 hsize htable, hload, bind_ok]
  refine ⟨_, rfl, ?_⟩
  cases image <;> rfl

theorem tryLoadElf_uninitialized (hfw : ¬ fw.initialized = true) (s : LoadState) :
    tryLoadElf fw data s = .ok (none, s) := if_pos (by simpa using hfw)

-- Whoever is loaded is as the file says.
theorem relocated_of_none (hacc : Acceptable data ctx phs) (hnone : relocations data phs = [])
    (base : Nat) : Relocated data phs base (placed data base (lowest phs) m (loads phs)) :=
  ⟨fun r hr => by simp [hnone] at hr, fun _ hx _ => placed_imageByte hacc base hx⟩

-- Two bases ask for different words.
theorem relocations_eq_nil (hacc : Acceptable data ctx phs) (hrel : RelativeOnly data phs)
    (h : ∀ base, base % 0x1000 = 0 → base ≤ 0x1000 →
      Relocated data phs base (placed data base (lowest phs) m (loads phs))) :
    relocations data phs = [] := by
  refine List.eq_nil_iff_forall_not_mem.mpr fun r hr => ?_
  have hat := (h 0 rfl (Nat.zero_le _)).word r hr
  have hbehind := (h 0x1000 rfl le_rfl).word r hr
  rw [placed_word hacc _ (hrel r hr).2] at hat hbehind
  have hlow := lowest_lt_of_reaches hacc.reaches hacc.checked
  simp only [UINT64_MAX] at hlow
  omega

end Relocation

-- Exactly then a file is relocated whatever its base: it has nothing to relocate.
theorem relocatesKernel_iff (data : List UInt8) :
    (∀ fw m, RelocatesKernel fw data m) ↔ ∀ ctx, elfMakeCtx data = .ok (some ctx) →
      ctx.b64 = true → ctx.reloc = true → RelativeOnly data (phdrs data) →
      Acceptable data ctx (phdrs data) → relocations data (phdrs data) = [] := by
  constructor
  · intro h ctx hmake hb64 hreloc hrel hacc
    obtain ⟨r, hr, hread⟩ := elfMakeCtx_ok data
    rw [hmake] at hr
    obtain ⟨-, -, hentry⟩ := hread ctx (Except.ok.inj hr).symm hb64
    refine relocations_eq_nil (m := fun _ => 0) hacc hrel fun base halign hbase => ?_
    obtain ⟨image, u, hload, himage, hmem⟩ :=
      greedy_accepts halign hbase hacc hentry fun _ => 0
    rw [greedyBase, if_pos hreloc] at himage hmem
    obtain ⟨k, hrun, hk⟩ := tryLoadElf_eq rfl hmake hb64 hload
    obtain ⟨kernel, rfl, hkernel⟩ := Option.map_eq_some_iff.mp hk
    have hdone := h (greedy base) _ kernel u hrun ctx hmake hb64 hreloc hrel
    rwa [hkernel, himage, hmem] at hdone
  · intro h fw m kernel t hrun ctx hmake hb64 hreloc hrel
    obtain ⟨r, hr, hread⟩ := elfMakeCtx_ok data
    rw [hmake] at hr
    obtain ⟨-, -, hentry⟩ := hread ctx (Except.ok.inj hr).symm hb64
    by_cases hfw : fw.initialized = true
    · obtain ⟨image, u, hload, hout⟩ := loadSegments_outcome hentry fw m
      obtain ⟨k, hrun', hk⟩ := tryLoadElf_eq hfw hmake hb64 hload
      rw [hrun] at hrun'
      cases hrun'
      have hsome : image = some kernel.image := hk.symm
      have hacc := hout.accepted _ hsome
      rw [hout.mem _ hsome]
      exact relocated_of_none hacc (h ctx hmake hb64 hreloc hrel hacc) _
    · rw [tryLoadElf_uninitialized hfw] at hrun
      cases hrun

-- A relocatable image of one segment, the file itself, with one relocation of its last word.
def oneRelocation : List UInt8 :=
  leBytes 4 ELFMAG ++ [2, 1, 1] ++ leBytes 9 0 ++ leBytes 2 ET_DYN ++ leBytes 2 EM_X86_64 ++
  leBytes 4 EV_CURRENT ++ leBytes 8 0 ++ leBytes 8 64 ++ leBytes 8 0 ++ leBytes 4 0 ++
  leBytes 2 64 ++ leBytes 2 56 ++ leBytes 2 2 ++ leBytes 6 0 ++
  leBytes 4 PT_LOAD ++ leBytes 4 7 ++ leBytes 8 0 ++ leBytes 8 0 ++ leBytes 8 0 ++
  leBytes 8 272 ++ leBytes 8 272 ++ leBytes 8 0x1000 ++
  leBytes 4 PT_DYNAMIC ++ leBytes 4 6 ++ leBytes 8 176 ++ leBytes 8 176 ++ leBytes 8 0 ++
  leBytes 8 64 ++ leBytes 8 64 ++ leBytes 8 8 ++
  leBytes 8 DT_RELA ++ leBytes 8 240 ++ leBytes 8 DT_RELASZ ++ leBytes 8 24 ++
  leBytes 8 9 ++ leBytes 8 24 ++ leBytes 8 DT_NULL ++ leBytes 8 0 ++
  leBytes 8 264 ++ leBytes 8 R_X86_64_RELATIVE ++ leBytes 8 264 ++ leBytes 8 0

def oneRelocationCtx : ElfCtx := ⟨true, true, true, 0⟩

theorem oneRelocation_acceptable :
    Acceptable oneRelocation oneRelocationCtx (phdrs oneRelocation) := by
  refine ⟨?_, ?_, ?_, (fun hno => nomatch hno), (fun hno => nomatch hno)⟩
  · unfold Checked
    decide +kernel
  · unfold Reaches
    decide +kernel
  · unfold ElfPhdr.Enters
    decide +kernel

-- The word is to be `0x1000 + 264`, and it is 0.
theorem oneRelocation_fails : ¬ RelocatesKernel (greedy 0x1000) oneRelocation fun _ => 0 := by
  intro h
  have hmake : elfMakeCtx oneRelocation = .ok (some oneRelocationCtx) := by decide +kernel
  obtain ⟨image, u, hload, hbase, hmem⟩ :=
    greedy_accepts rfl le_rfl oneRelocation_acceptable (by decide) fun _ => 0
  obtain ⟨k, hrun, hk⟩ := tryLoadElf_eq rfl hmake rfl hload
  obtain ⟨kernel, rfl, hkernel⟩ := Option.map_eq_some_iff.mp hk
  have hrel : RelativeOnly oneRelocation (phdrs oneRelocation) := by
    unfold RelativeOnly
    decide +kernel
  have hone : ⟨264, R_X86_64_RELATIVE, 264⟩ ∈ relocations oneRelocation (phdrs oneRelocation) := by
    decide +kernel
  have hword := (h kernel u hrun _ hmake rfl rfl hrel).word _ hone
  rw [hkernel, hbase, hmem, placed_word oneRelocation_acceptable _ (hrel _ hone).2] at hword
  revert hword
  decide +kernel

end AosKernel.Elf
