import AosKernel.Boot.HandOff
import Mathlib.Algebra.BigOperators.Intervals

namespace AosKernel.Boot

open Verif Mm

namespace SmmapEntry

def span (e : SmmapEntry) : Span := ⟨e.physStart, e.size⟩

-- The entry gives `x` the type.
def Types (e : SmmapEntry) (type : SmmapType) (x : Nat) : Prop :=
  e.type = type ∧ Span.Mem x e.span

instance (e : SmmapEntry) (type : SmmapType) (x : Nat) : Decidable (e.Types type x) := by
  unfold Types
  infer_instance

end SmmapEntry

-- What the loop knows of the last entry: where it ends, and its type.
abbrev LastEntry := Option (Nat × SmmapType)

namespace Conversion

variable {c k : Conversion} {e : SmmapEntry} {d : EfiDescriptor} {prev : LastEntry}
  {type : SmmapType} {x : Nat}

-- How many of the counted entries give `x` the type.
def hits (c : Conversion) (type : SmmapType) (x : Nat) : Nat :=
  (Finset.range c.mcount).sum fun i => if (c.mmap i).Types type x then 1 else 0

theorem hits_congr (hcount : k.mcount = c.mcount) (hmap : ∀ i < c.mcount, k.mmap i = c.mmap i) :
    k.hits type x = c.hits type x := by
  unfold hits
  rw [hcount]
  exact Finset.sum_congr rfl fun i hi => by rw [hmap i (Finset.mem_range.mp hi)]

theorem hits_write_uncounted : (c.write c.mcount e).hits type x = c.hits type x :=
  hits_congr rfl fun _ hi => write_mmap_of_ne (Nat.ne_of_lt hi)

theorem hits_setLast {idx1 : Nat} : (c.setLast idx1).hits type x = c.hits type x := by
  unfold setLast
  split <;> rfl

theorem hits_count (hcount : k.mcount = c.mcount + 1) (hmap : k.mmap = c.mmap) :
    k.hits type x = c.hits type x + if (c.mmap c.mcount).Types type x then 1 else 0 := by
  unfold hits
  rw [hcount, hmap, Finset.sum_range_succ]

theorem hits_push :
    (c.push e).hits type x = c.hits type x + if e.Types type x then 1 else 0 := by
  rw [hits_count (c := c.write c.mcount e) (k := c.push e) rfl rfl, hits_write_uncounted]
  simp only [write_mcount, write_mmap_self]

-- An entry that grows gives its type to the bytes that follow it.
theorem hits_grow {i size : Nat} (hi : i < c.mcount)
    (hfits : (c.mmap i).physStart + (c.mmap i).size + size < 2 ^ 64) :
    (c.grow i size).hits type x = c.hits type x +
      if (c.mmap i).type = type ∧
        Span.Mem x ⟨(c.mmap i).physStart + (c.mmap i).size, size⟩ then 1 else 0 := by
  have hentry (j : Nat) : (if ((c.grow i size).mmap j).Types type x then 1 else 0) =
      (if (c.mmap j).Types type x then 1 else 0) + if j = i then
        (if (c.mmap i).type = type ∧
          Span.Mem x ⟨(c.mmap i).physStart + (c.mmap i).size, size⟩ then 1 else 0) else 0 := by
    by_cases hji : j = i
    · subst hji
      have hself : (c.grow j size).mmap j =
          { c.mmap j with size := (c.mmap j).size + size } := by
        simp only [grow, write_mmap_self]
        rw [add64_eq (by omega)]
      rw [hself, if_pos rfl]
      simp only [SmmapEntry.Types, SmmapEntry.span, Span.Mem]
      by_cases htype : (c.mmap j).type = type
      · simp only [htype, true_and]
        split_ifs <;> omega
      · simp only [htype, false_and, if_false]
    · rw [grow_mmap_of_ne hji, if_neg hji, Nat.add_zero]
  unfold hits
  rw [grow_mcount, Finset.sum_congr rfl fun j _ => hentry j, Finset.sum_add_distrib,
    Finset.sum_ite_eq' (Finset.range c.mcount) i, if_pos (Finset.mem_range.mpr hi)]

-- last_entry has no virtual address, and ends as `prev` says.
def Ends (c : Conversion) (prev : LastEntry) : Prop :=
  match c.last with
  | none => prev = none
  | some i => i < c.mcount ∧ (c.mmap i).virtStart = 0 ∧
      (c.mmap i).physStart + (c.mmap i).size < 2 ^ 64 ∧
      prev = some ((c.mmap i).physStart + (c.mmap i).size, (c.mmap i).type)

theorem Ends.write (h : c.Ends prev) : (c.write c.mcount e).Ends prev := by
  unfold Ends at *
  rw [write_last]
  cases hlast : c.last with
  | none => simpa only [hlast] using h
  | some i =>
      simp only [hlast] at h
      simp only [write_mcount, write_mmap_of_ne (Nat.ne_of_lt h.1)]
      exact h

theorem Ends.push (h : c.Ends prev) : (c.push e).Ends prev := by
  have hwrite := h.write (e := e)
  unfold Ends at *
  rw [push_last]
  rw [write_last] at hwrite
  cases hlast : c.last with
  | none => simpa only [hlast] using hwrite
  | some i =>
      simp only [hlast] at hwrite
      exact ⟨Nat.lt_succ_of_lt hwrite.1, hwrite.2⟩

-- last_entry when the slot just counted becomes it.
theorem ends_pushed (hlast : c.last = some k.mcount) (hcount : c.mcount = k.mcount + 1)
    (hslot : c.mmap k.mcount = e) (hvirt : e.virtStart = 0)
    (hfits : e.physStart + e.size < 2 ^ 64) : c.Ends (some (e.physStart + e.size, e.type)) := by
  unfold Ends
  rw [hlast]
  simp only [hslot]
  exact ⟨by omega, hvirt, hfits, trivial⟩

theorem ends_grow {i : Nat} (size : Nat) (hlast : c.last = some i) (hi : i < c.mcount)
    (hvirt : (c.mmap i).virtStart = 0)
    (hfits : (c.mmap i).physStart + (c.mmap i).size + size < 2 ^ 64) :
    (c.grow i size).Ends
      (some ((c.mmap i).physStart + (c.mmap i).size + size, (c.mmap i).type)) := by
  have hself : (c.grow i size).mmap i = { c.mmap i with size := (c.mmap i).size + size } := by
    simp only [grow, write_mmap_self]
    rw [add64_eq (by omega)]
  unfold Ends
  rw [grow_last, hlast]
  simp only [hself, grow_mcount]
  exact ⟨hi, hvirt, by omega, by rw [Nat.add_assoc]⟩

-- A piece that has no virtual address continues whatever ends where it starts
-- and has its type.
theorem continues_iff {last : SmmapEntry} {start : Nat} (hvirt : last.virtStart = 0)
    (hfits : last.physStart + last.size < 2 ^ 64) :
    Continues last start 0 0 type ↔
      some (last.physStart + last.size, last.type) = some (start, type) := by
  unfold Continues
  rw [limit_eq hfits]
  simp only [hvirt, and_self, or_true, true_and, Option.some.injEq, Prod.mk.injEq]
  exact and_congr eq_comm eq_comm

-- A round that cuts nothing out.
theorem Ends.append (h : c.Ends prev) (hslot : c.mmap c.mcount = e) (hvirt : e.virtStart = 0)
    (hfits : e.physStart + e.size < 2 ^ 64) :
    c.append.Ends (some (e.physStart + e.size, e.type)) ∧ ∀ type x,
      c.append.hits type x = c.hits type x + if e.Types type x then 1 else 0 := by
  have hpush : ({ c with last := some c.mcount, mcount := c.mcount + 1 } : Conversion).Ends
      (some (e.physStart + e.size, e.type)) ∧ ∀ type x,
      ({ c with last := some c.mcount, mcount := c.mcount + 1 } : Conversion).hits type x =
        c.hits type x + if e.Types type x then 1 else 0 :=
    ⟨ends_pushed (k := c) rfl rfl hslot hvirt hfits, fun type x => by
      rw [hits_count (c := c) (k := ⟨c.mmap, c.mcount + 1, some c.mcount⟩) rfl rfl, hslot]⟩
  unfold Ends at h
  cases hlast : c.last with
  | none => simpa only [Conversion.append, hlast] using hpush
  | some i =>
      simp only [hlast] at h
      obtain ⟨hi, hlastVirt, hlastFits, rfl⟩ := h
      simp only [Conversion.append, hlast, hslot]
      split
      · rename_i hcont
        rw [hvirt, continues_iff hlastVirt hlastFits] at hcont
        obtain ⟨hend, htype⟩ : (c.mmap i).physStart + (c.mmap i).size = e.physStart ∧
          (c.mmap i).type = e.type := by simpa using hcont
        have hgrow := ends_grow e.size hlast hi hlastVirt (by omega)
        rw [hend, htype] at hgrow
        refine ⟨hgrow, fun type x => ?_⟩
        rw [hits_grow hi (by omega), hend, htype]
        rfl
      · exact hpush

-- What writing the structure's piece does. It joins last_entry when that is a
-- structure that ends where it starts.
structure CutsOut (c : Conversion) (prev : LastEntry) (ubStart ubEnd : Nat)
    (second : Conversion) (idx1 : Nat) : Prop where
  ends : (second.setLast idx1).Ends (some (ubEnd, .unibootStructs))
  hits : ∀ type x, second.hits type x = c.hits type x +
    if .unibootStructs = type ∧ ubStart ≤ x ∧ x < ubEnd then 1 else 0
  kept : ∀ j < c.mcount, (second.mmap j).type = (c.mmap j).type
  slot : (second.mmap c.mcount).type =
    if prev = some (ubStart, .unibootStructs) then (c.mmap c.mcount).type else .unibootStructs

theorem Ends.secondFragment {ubStart ubEnd : Nat} (h : c.Ends prev) (hlt : ubStart < ubEnd)
    (hfits : ubEnd < 2 ^ 64) :
    CutsOut c prev ubStart ubEnd (c.secondFragment ubStart ubEnd).1
      (c.secondFragment ubStart ubEnd).2 := by
  have hsize : sub64 ubEnd ubStart = ubEnd - ubStart := sub64_eq (Nat.le_of_lt hlt) hfits
  have hend : ubStart + (ubEnd - ubStart) = ubEnd := by omega
  have hpush : ((c.push ⟨.unibootStructs, ubStart, 0, ubEnd - ubStart⟩).setLast
        (c.mcount + 1)).Ends (some (ubEnd, .unibootStructs)) ∧
      ∀ type x, (c.push ⟨.unibootStructs, ubStart, 0, ubEnd - ubStart⟩).hits type x =
        c.hits type x + if .unibootStructs = type ∧ ubStart ≤ x ∧ x < ubEnd then 1 else 0 := by
    refine ⟨?_, fun type x => ?_⟩
    · have hpushed := ends_pushed (k := c)
        (c := { c.push ⟨.unibootStructs, ubStart, 0, ubEnd - ubStart⟩ with last := some c.mcount })
        rfl rfl push_mmap_mcount rfl (by dsimp only; omega)
      rwa [hend] at hpushed
    · rw [hits_push]
      simp only [SmmapEntry.Types, SmmapEntry.span, Span.Mem, hend]
  have hkept (e : SmmapEntry) (j : Nat) (hj : j < c.mcount) :
      ((c.push e).mmap j).type = (c.mmap j).type :=
    congrArg _ (write_mmap_of_ne (Nat.ne_of_lt hj))
  unfold Ends at h
  cases hlast : c.last with
  | none =>
      simp only [hlast] at h
      subst h
      simp only [Conversion.secondFragment, hlast, hsize]
      exact ⟨hpush.1, hpush.2, hkept _, by simp⟩
  | some i =>
      simp only [hlast] at h
      obtain ⟨hi, hvirt, hlastFits, rfl⟩ := h
      simp only [Conversion.secondFragment, hlast, hsize, limit_eq hlastFits]
      split
      · rename_i hjoin
        obtain ⟨hstart, htype⟩ := hjoin
        have hgrow := ends_grow (ubEnd - ubStart) hlast hi hvirt (by omega)
        rw [← hstart, ← htype, hend] at hgrow
        refine ⟨hgrow, fun type x => ?_, fun j _ => grow_type, ?_⟩
        · rw [hits_grow hi (by omega), ← hstart, ← htype]
          simp only [Span.Mem, hend]
        · rw [grow_type, ← hstart, ← htype, if_pos rfl]
      · rename_i hapart
        have hne : some ((c.mmap i).physStart + (c.mmap i).size, (c.mmap i).type) ≠
            some (ubStart, .unibootStructs) := by
          rw [Ne, Option.some.injEq, Prod.mk.injEq]
          exact fun heq => hapart ⟨heq.1.symm, heq.2.symm⟩
        exact ⟨hpush.1, hpush.2, hkept _, by simp [hne]⟩

-- The piece behind the structure has the type found in slot `e`.
theorem thirdFragment_spec {slot ubEnd idx1 : Nat}
    (h : (c.setLast idx1).Ends (some (ubEnd, .unibootStructs))) (hle : ubEnd ≤ d.limit) :
    ((c.thirdFragment slot d ubEnd idx1).1.setLast (c.thirdFragment slot d ubEnd idx1).2).Ends
        (some (d.limit, if ubEnd < d.limit then (c.mmap slot).type else .unibootStructs)) ∧
      ∀ type x, (c.thirdFragment slot d ubEnd idx1).1.hits type x = c.hits type x +
        if (c.mmap slot).type = type ∧ ubEnd ≤ x ∧ x < d.limit then 1 else 0 := by
  have hlt := d.limit_lt
  by_cases hcut : ubEnd < d.limit
  · have hsize : sub64 d.limit ubEnd = d.limit - ubEnd := sub64_eq hle hlt
    have hend : ubEnd + (d.limit - ubEnd) = d.limit := by omega
    simp only [Conversion.thirdFragment, hcut, if_true, hsize]
    refine ⟨?_, fun type x => ?_⟩
    · have hpushed := ends_pushed (k := c)
        (c := { c.push ⟨(c.mmap slot).type, ubEnd, 0, d.limit - ubEnd⟩ with last := some c.mcount })
        rfl rfl push_mmap_mcount rfl (by dsimp only; omega)
      rwa [hend] at hpushed
    · rw [hits_push]
      simp only [SmmapEntry.Types, SmmapEntry.span, Span.Mem, hend]
  · have heq : ubEnd = d.limit := by omega
    simp only [Conversion.thirdFragment, hcut, if_false]
    refine ⟨heq ▸ h, fun type x => ?_⟩
    rw [if_neg (by omega), Nat.add_zero]

end Conversion

-- Slot `e` is overwritten by the structure's piece before the piece behind it
-- takes its type from there: the piece in front of the structure is empty or
-- went into last_entry, and the structure's own did not.
def SlotLost (prev : LastEntry) (d : EfiDescriptor) (ubStart : Nat) : Prop :=
  if d.physicalStart < ubStart then prev = some (d.physicalStart, d.entry.type)
  else prev ≠ some (d.physicalStart, .unibootStructs)

instance (prev : LastEntry) (d : EfiDescriptor) (ubStart : Nat) :
    Decidable (SlotLost prev d ubStart) := by
  unfold SlotLost
  infer_instance

-- The type that the piece behind the structure gets.
def typeBehind (prev : LastEntry) (d : EfiDescriptor) (ubStart : Nat) : SmmapType :=
  if SlotLost prev d ubStart then .unibootStructs else d.entry.type

theorem slotLost_cut {prev : LastEntry} {d : EfiDescriptor} {ubStart : Nat}
    (h : d.physicalStart < ubStart) :
    SlotLost prev d ubStart ↔ prev = some (d.physicalStart, d.entry.type) := by
  rw [SlotLost, if_pos h]

theorem slotLost_start {prev : LastEntry} {d : EfiDescriptor} :
    SlotLost prev d d.physicalStart ↔ prev ≠ some (d.physicalStart, .unibootStructs) := by
  rw [SlotLost, if_neg (Nat.lt_irrefl _)]

-- The type that a round writes for a byte of the descriptor.
def cutType (prev : LastEntry) (d : EfiDescriptor) (ubStart ubEnd x : Nat) : SmmapType :=
  if x < ubStart then d.entry.type
  else if x < ubEnd then .unibootStructs
  else typeBehind prev d ubStart

namespace Conversion

variable {c k : Conversion} {e : SmmapEntry} {d : EfiDescriptor} {prev : LastEntry}
  {type : SmmapType} {x : Nat}

-- The piece in front of the structure, and the type that slot `e` has when
-- the piece behind it is written.
theorem Ends.firstFragment {ubStart ubEnd : Nat} (h : c.Ends prev)
    (hslot : c.mmap c.mcount = d.entry) (hvirt : d.virtualStart = 0)
    (hle : d.physicalStart ≤ ubStart) (hlt : ubStart < ubEnd) (hfits : ubEnd < 2 ^ 64) :
    (∃ next, (c.firstFragment d ubStart).Ends next) ∧
      (∀ type x, (c.firstFragment d ubStart).hits type x = c.hits type x +
        if d.entry.type = type ∧ d.physicalStart ≤ x ∧ x < ubStart then 1 else 0) ∧
      (((c.firstFragment d ubStart).secondFragment ubStart ubEnd).1.mmap c.mcount).type =
        typeBehind prev d ubStart := by
  have htype := entry_type_ne (d := d)
  have hentryVirt : d.entry.virtStart = 0 := hvirt
  by_cases hcut : d.physicalStart < ubStart
  · have hsize := sub64_eq hle (hlt.trans hfits)
    have hend : d.physicalStart + (ubStart - d.physicalStart) = ubStart := by omega
    let first := c.push ⟨d.entry.type, d.physicalStart, 0, ubStart - d.physicalStart⟩
    have hpush (hkept : prev ≠ some (d.physicalStart, d.entry.type)) :
        (∃ next, first.Ends next) ∧ (∀ type x, first.hits type x = c.hits type x +
          if d.entry.type = type ∧ d.physicalStart ≤ x ∧ x < ubStart then 1 else 0) ∧
        ((first.secondFragment ubStart ubEnd).1.mmap c.mcount).type =
          typeBehind prev d ubStart := by
      have hsecond := (h.push (e := ⟨d.entry.type, d.physicalStart, 0,
        ubStart - d.physicalStart⟩)).secondFragment hlt hfits
      refine ⟨⟨prev, h.push⟩, fun type x => ?_, ?_⟩
      · rw [hits_push]
        simp only [SmmapEntry.Types, SmmapEntry.span, Span.Mem, hend]
      · rw [hsecond.kept c.mcount (Nat.lt_succ_self _), push_mmap_mcount, typeBehind,
          if_neg (mt (slotLost_cut hcut).mp hkept)]
    have hstart := h
    unfold Ends at h
    cases hlast : c.last with
    | none =>
        simp only [hlast] at h
        simp only [Conversion.firstFragment, hcut, if_true, hlast, hslot, hsize, hvirt]
        exact hpush (by simp [h])
    | some i =>
        simp only [hlast] at h
        obtain ⟨hi, hlastVirt, hlastFits, hprev⟩ := h
        simp only [Conversion.firstFragment, hcut, if_true, hlast, hslot, hsize, hvirt, hentryVirt,
          continues_iff hlastVirt hlastFits, ← hprev]
        split
        · rename_i hcont
          obtain ⟨hlastEnd, hlastType⟩ : (c.mmap i).physStart + (c.mmap i).size = d.physicalStart ∧
            (c.mmap i).type = d.entry.type := by simpa using hprev.symm.trans hcont
          have hgrow := ends_grow (ubStart - d.physicalStart) hlast hi hlastVirt (by omega)
          have hsecond := hgrow.secondFragment hlt hfits
          refine ⟨⟨_, hgrow⟩, fun type x => ?_, ?_⟩
          · rw [hits_grow hi (by omega), hlastEnd, hlastType]
            simp only [Span.Mem, hend]
          · rw [show c.mcount = (c.grow i (ubStart - d.physicalStart)).mcount from rfl,
              hsecond.slot, hlastType, if_neg (by simp [htype]), typeBehind,
              if_pos ((slotLost_cut hcut).mpr hcont)]
        · rename_i hapart
          exact hpush hapart
  · obtain rfl : d.physicalStart = ubStart := by omega
    have hfirst : c.firstFragment d d.physicalStart = c := by simp [Conversion.firstFragment]
    have hsecond := h.secondFragment hlt hfits
    rw [hfirst]
    refine ⟨⟨prev, h⟩, fun type x => ?_, ?_⟩
    · rw [if_neg (by omega), Nat.add_zero]
    · rw [hsecond.slot, hslot, typeBehind]
      by_cases hjoin : prev = some (d.physicalStart, .unibootStructs)
      · rw [if_pos hjoin, if_neg (slotLost_start.not.mpr (not_not.mpr hjoin))]
      · rw [if_neg hjoin, if_pos (slotLost_start.mpr hjoin)]

-- A round that cuts a structure out gives each byte of the descriptor one type.
theorem Ends.fragmentEntry {ubStart ubEnd : Nat} (h : c.Ends prev)
    (hslot : c.mmap c.mcount = d.entry) (hvirt : d.virtualStart = 0)
    (hle : d.physicalStart ≤ ubStart) (hlt : ubStart < ubEnd) (hend : ubEnd ≤ d.limit) :
    (c.fragmentEntry d ubStart ubEnd).Ends (some (d.limit,
        if ubEnd < d.limit then typeBehind prev d ubStart else .unibootStructs)) ∧
      ∀ type x, (c.fragmentEntry d ubStart ubEnd).hits type x = c.hits type x +
        if Span.Mem x ⟨d.physicalStart, d.size⟩ ∧ cutType prev d ubStart ubEnd x = type
          then 1 else 0 := by
  have hfits : ubEnd < 2 ^ 64 := Nat.lt_of_le_of_lt hend d.limit_lt
  obtain ⟨⟨next, hnext⟩, hfirst, hbehind⟩ := h.firstFragment hslot hvirt hle hlt hfits
  have hsecond := hnext.secondFragment hlt hfits
  obtain ⟨hthird, hthirdHits⟩ := thirdFragment_spec hsecond.ends hend
  have hmax : max d.physicalStart ubStart = ubStart := by omega
  have hmin : min d.limit ubEnd = ubEnd := by omega
  simp only [Conversion.fragmentEntry, hmax, hmin]
  refine ⟨hbehind ▸ hthird, fun type x => ?_⟩
  rw [hits_setLast, hthirdHits, hbehind, hsecond.hits, hfirst]
  have hmem : Span.Mem x ⟨d.physicalStart, d.size⟩ ↔ d.physicalStart ≤ x ∧ x < d.limit := Iff.rfl
  simp only [hmem]
  unfold cutType
  by_cases hlow : x < ubStart
  · simp only [hlow, if_true]
    grind
  · by_cases hhigh : x < ubEnd
    · simp only [hlow, hhigh, if_true, if_false]
      grind
    · simp only [hlow, hhigh, if_false]
      grind

end Conversion

end AosKernel.Boot
