import AosKernel.Elf.Load

namespace AosKernel.Elf

open Verif

namespace ElfPhdr

def Covers (ph : ElfPhdr) (x : Nat) : Prop := ph.vaddr ≤ x ∧ x < ph.vaddr + ph.memsz

instance (ph : ElfPhdr) (x : Nat) : Decidable (ph.Covers x) := by
  unfold Covers
  infer_instance

-- Byte `k` of a segment in memory.
def byte (data : List UInt8) (ph : ElfPhdr) (k : Nat) : UInt8 :=
  if k < ph.filesz then data.getD (ph.offset + k) 0 else 0

-- What the loader relies on once it has checked a segment.
structure Sound (size : Nat) (ph : ElfPhdr) : Prop where
  filesz_le : ph.filesz ≤ ph.memsz
  inFile : ph.offset + ph.filesz ≤ size
  inSpace : ph.vaddr + ph.memsz ≤ UINT64_MAX

def Disjoint (a b : ElfPhdr) : Prop :=
  a.vaddr + a.memsz ≤ b.vaddr ∨ b.vaddr + b.memsz ≤ a.vaddr

theorem loadable_iff {ph : ElfPhdr} : ph.loadable = true ↔ ph.type = PT_LOAD ∧ ph.memsz ≠ 0 := by
  simp [loadable]

theorem sound_of_check {size : Nat} {ph : ElfPhdr} (h : ph.sound size = true)
    (hload : ph.loadable = true) : ph.Sound size := by
  have hpos := (loadable_iff.mp hload).2
  simp only [sound, Bool.and_eq_true, decide_eq_true_eq] at h
  obtain ⟨⟨⟨⟨⟨-, hfilesz⟩, hoffset⟩, hfile⟩, -⟩, hspace⟩ := h
  refine ⟨hfilesz, by omega, ?_⟩
  omega

theorem Sound.end_lt {size : Nat} {ph : ElfPhdr} (h : ph.Sound size) :
    ph.vaddr + ph.memsz < 2 ^ 64 := Nat.lt_of_le_of_lt h.inSpace (by decide)

theorem disjoint_of_check {size : Nat} {a b : ElfPhdr} (ha : a.Sound size) (hb : b.Sound size)
    (h : a.overlaps 64 b = false) : a.Disjoint b := by
  have hamax := ha.end_lt
  have hbmax := hb.end_lt
  rw [overlaps, Nat.mod_eq_of_lt (by omega), Nat.mod_eq_of_lt (by omega)] at h
  simp only [Bool.and_eq_false_iff, decide_eq_false_iff_not, Nat.not_lt] at h
  exact h.symm

end ElfPhdr

def loads (phs : List ElfPhdr) : List ElfPhdr := phs.filter ElfPhdr.loadable

theorem mem_loads {phs : List ElfPhdr} {ph : ElfPhdr} :
    ph ∈ loads phs ↔ ph ∈ phs ∧ ph.loadable = true := List.mem_filter

-- Every segment to load passes the checks of the first loop.
def Checked (bits size : Nat) (phs : List ElfPhdr) : Prop :=
  ∀ p ∈ phs.zipIdx, p.1.loadable = true →
    p.1.sound size = true ∧ p.1.apartFrom bits size phs p.2 = true

section Checked

variable {bits size : Nat} {phs : List ElfPhdr} {ph : ElfPhdr}

theorem Checked.sound (h : Checked bits size phs) (hph : ph ∈ loads phs) : ph.Sound size := by
  obtain ⟨hmem, hload⟩ := mem_loads.mp hph
  obtain ⟨i, hi, rfl⟩ := List.mem_iff_getElem.mp hmem
  have hzip : (phs[i], i) ∈ phs.zipIdx := by
    rw [List.mem_zipIdx_iff_getElem?]
    exact List.getElem?_eq_getElem hi
  exact ElfPhdr.sound_of_check (h _ hzip hload).1 hload

theorem apartFrom_overlaps {i j : Nat} (h : ph.apartFrom bits size phs i = true)
    (hj : j < phs.length) (hne : j ≠ i) (hload : phs[j].loadable = true) :
    ph.overlaps bits phs[j] = false := by
  have hzip : (phs[j], j) ∈ phs.zipIdx := by
    rw [List.mem_zipIdx_iff_getElem?]
    exact List.getElem?_eq_getElem hj
  have hall := List.all_eq_true.mp h _ hzip
  simp only [Bool.or_eq_true, beq_iff_eq, hne, hload, Bool.not_true, Bool.false_eq_true, false_or,
    Bool.and_eq_true, Bool.not_eq_true'] at hall
  exact hall.2

theorem Checked.disjoint (h : Checked 64 size phs) :
    (loads phs).Pairwise ElfPhdr.Disjoint := by
  refine List.pairwise_filter.mpr (List.pairwise_iff_getElem.mpr fun i j hi hj hlt hli hlj => ?_)
  have hzip : (phs[i], i) ∈ phs.zipIdx := by
    rw [List.mem_zipIdx_iff_getElem?]
    exact List.getElem?_eq_getElem hi
  have hsi : phs[i] ∈ loads phs := mem_loads.mpr ⟨List.getElem_mem hi, hli⟩
  have hsj : phs[j] ∈ loads phs := mem_loads.mpr ⟨List.getElem_mem hj, hlj⟩
  exact ElfPhdr.disjoint_of_check (h.sound hsi) (h.sound hsj)
    (apartFrom_overlaps (h _ hzip hli).2 hj (Nat.ne_of_gt hlt) hlj)

end Checked

-- The byte at a virtual address of the image, as the file gives it.
def imageByte (data : List UInt8) : List ElfPhdr → Nat → Option UInt8
  | [], _ => none
  | ph :: rest, x =>
      if ph.Covers x then some (ph.byte data (x - ph.vaddr)) else imageByte data rest x

-- Where an image at `imageBase` has its virtual address `x`, if `v0` is the lowest one.
def cell (imageBase v0 x : Nat) : Nat := (imageBase + (x + 2 ^ 64 - v0)) % 2 ^ 64

-- The memory once the segments have been written.
def placed (data : List UInt8) (imageBase v0 : Nat) (m : Nat → UInt8) (phs : List ElfPhdr) :
    Nat → UInt8 :=
  phs.foldl (fun m ph => blit m (cell imageBase v0 ph.vaddr) ph.memsz (ph.byte data)) m

section Placed

variable {data : List UInt8} {imageBase v0 : Nat} {m : Nat → UInt8} {phs : List ElfPhdr}
  {ph : ElfPhdr} {x size : Nat}

theorem cell_lt (imageBase v0 x : Nat) : cell imageBase v0 x < 2 ^ 64 :=
  Nat.mod_lt _ (Nat.two_pow_pos 64)

theorem cell_mod (hv0 : v0 ≤ 2 ^ 64) (x : Nat) :
    cell imageBase v0 (x % 2 ^ 64) = cell imageBase v0 x := by
  unfold cell
  omega

theorem cell_self (hx : x < 2 ^ 64) (hv0 : v0 ≤ 2 ^ 64) : cell v0 v0 x = x := by
  unfold cell
  omega

-- Moving the image keeps how far apart its addresses are.
theorem behind_cell (imageBase : Nat) (hv0 : v0 ≤ 2 ^ 64) {v : Nat} (hv : v ≤ x)
    (hx : x < 2 ^ 64) : behind (cell imageBase v0 v) (cell imageBase v0 x) = x - v := by
  unfold behind cell
  omega

theorem behind_cell_of_lt (imageBase : Nat) (hv0 : v0 ≤ 2 ^ 64) {v : Nat} (hv : v < 2 ^ 64)
    (hx : x < v) : behind (cell imageBase v0 v) (cell imageBase v0 x) = x + 2 ^ 64 - v := by
  unfold behind cell
  omega

-- One segment shows where it is, and nowhere else.
theorem blit_cell (hv0 : v0 ≤ 2 ^ 64) (hs : ph.vaddr + ph.memsz ≤ UINT64_MAX) (hx : x < 2 ^ 64) :
    blit m (cell imageBase v0 ph.vaddr) ph.memsz (ph.byte data) (cell imageBase v0 x) =
      if ph.Covers x then ph.byte data (x - ph.vaddr) else m (cell imageBase v0 x) := by
  simp only [UINT64_MAX] at hs
  by_cases hle : ph.vaddr ≤ x
  · have hbehind := behind_cell imageBase hv0 hle hx
    by_cases hcover : ph.Covers x
    · have hlt := hcover.2
      rw [if_pos hcover, blit_in (by omega), hbehind]
    · have hlt : ¬ x < ph.vaddr + ph.memsz := fun hlt => hcover ⟨hle, hlt⟩
      rw [if_neg hcover, blit_out (by omega)]
  · have hbehind := behind_cell_of_lt imageBase hv0 (show ph.vaddr < 2 ^ 64 by omega)
      (Nat.not_le.mp hle)
    rw [if_neg fun hcover => hle hcover.1, blit_out (by omega)]

theorem placed_append (m : Nat → UInt8) (l r : List ElfPhdr) :
    placed data imageBase v0 m (l ++ r) =
      placed data imageBase v0 (placed data imageBase v0 m l) r :=
  List.foldl_append

theorem placed_singleton (m : Nat → UInt8) (ph : ElfPhdr) :
    placed data imageBase v0 m [ph] =
      blit m (cell imageBase v0 ph.vaddr) ph.memsz (ph.byte data) := rfl

theorem imageByte_eq_none (h : ∀ ph ∈ phs, ¬ ph.Covers x) : imageByte data phs x = none := by
  induction phs with
  | nil => rfl
  | cons ph rest ih =>
      obtain ⟨hph, hrest⟩ := List.forall_mem_cons.mp h
      rw [imageByte, if_neg hph, ih hrest]

-- Segments that do not overlap all show, and nothing else changes.
theorem placed_cell (hv0 : v0 ≤ 2 ^ 64) (hs : ∀ ph ∈ phs, ph.vaddr + ph.memsz ≤ UINT64_MAX)
    (hd : phs.Pairwise ElfPhdr.Disjoint) (hx : x < 2 ^ 64) :
    placed data imageBase v0 m phs (cell imageBase v0 x) =
      (imageByte data phs x).getD (m (cell imageBase v0 x)) := by
  induction phs generalizing m with
  | nil => rfl
  | cons ph rest ih =>
      obtain ⟨hph, hrest⟩ := List.forall_mem_cons.mp hs
      obtain ⟨hdis, hdrest⟩ := List.pairwise_cons.mp hd
      rw [placed, List.foldl_cons, ← placed, ih hrest hdrest, blit_cell hv0 hph hx, imageByte]
      by_cases hcover : ph.Covers x
      · have hnone : imageByte data rest x = none := by
          refine imageByte_eq_none fun ph' hph' hcover' => ?_
          have := hdis ph' hph'
          unfold ElfPhdr.Covers at hcover hcover'
          unfold ElfPhdr.Disjoint at this
          omega
        rw [if_pos hcover, if_pos hcover, hnone]
        rfl
      · rw [if_neg hcover, if_neg hcover]

theorem imageByte_of_covers (hd : phs.Pairwise ElfPhdr.Disjoint) (hph : ph ∈ phs)
    (hcover : ph.Covers x) : imageByte data phs x = some (ph.byte data (x - ph.vaddr)) := by
  induction phs with
  | nil => cases hph
  | cons ph' rest ih =>
      obtain ⟨hdis, hdrest⟩ := List.pairwise_cons.mp hd
      rw [imageByte]
      obtain rfl | hph := List.mem_cons.mp hph
      · rw [if_pos hcover]
      · have hnot : ¬ ph'.Covers x := fun hcover' => by
          have := hdis ph hph
          unfold ElfPhdr.Covers at hcover hcover'
          unfold ElfPhdr.Disjoint at this
          omega
        rw [if_neg hnot, ih hdrest hph]

end Placed

end AosKernel.Elf
