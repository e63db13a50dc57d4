import AosKernel.Boot.MemoryMap

namespace AosKernel.Boot

open Verif Mm

def SmmapEntry.Free (e : SmmapEntry) (x : Nat) : Prop :=
  e.type = .free ∧ Span.Mem x ⟨e.physStart, e.size⟩

namespace Conversion

variable {c c' c'' : Conversion} {e : SmmapEntry} {d : EfiDescriptor} {i x : Nat}

-- A counted entry of type FREE holds `x`.
def FreeAt (c : Conversion) (x : Nat) : Prop := ∃ i < c.mcount, (c.mmap i).Free x

structure Inv (c : Conversion) : Prop where
  last_lt : ∀ i, c.last = some i → i < c.mcount
  fits : ∀ i < c.mcount, (c.mmap i).type = .free →
    (c.mmap i).physStart + (c.mmap i).size < 2 ^ 64

-- A piece of the loop types the bytes of `P` as FREE, and no other.
structure Adds (c c' : Conversion) (P : Nat → Prop) : Prop where
  inv : c'.Inv
  free_iff : ∀ x, c'.FreeAt x ↔ c.FreeAt x ∨ P x

theorem Adds.trans {P Q : Nat → Prop} (h : Adds c c' P) (h' : Adds c' c'' Q) :
    Adds c c'' fun x => P x ∨ Q x :=
  ⟨h'.inv, fun x => by rw [h'.free_iff, h.free_iff, or_assoc]⟩

theorem Adds.congr {P Q : Nat → Prop} (h : Adds c c' P) (heq : ∀ x, P x ↔ Q x) : Adds c c' Q :=
  ⟨h.inv, fun x => by rw [h.free_iff, heq]⟩

theorem Inv.adds_nothing (h : c.Inv) : Adds c c fun _ => False := ⟨h, fun _ => by simp⟩

@[simp] theorem write_mcount : (c.write i e).mcount = c.mcount := rfl
@[simp] theorem write_last : (c.write i e).last = c.last := rfl
@[simp] theorem write_mmap_self : (c.write i e).mmap i = e := by simp [write]
@[simp] theorem push_mcount : (c.push e).mcount = c.mcount + 1 := rfl
@[simp] theorem push_last : (c.push e).last = c.last := rfl
@[simp] theorem push_mmap_mcount : (c.push e).mmap c.mcount = e := by simp [push]
@[simp] theorem grow_mcount {size : Nat} : (c.grow i size).mcount = c.mcount := rfl
@[simp] theorem grow_last {size : Nat} : (c.grow i size).last = c.last := rfl

theorem write_mmap_of_ne {j : Nat} (h : j ≠ i) : (c.write i e).mmap j = c.mmap j := by
  simp [write, h]

theorem grow_mmap_of_ne {j size : Nat} (h : j ≠ i) : (c.grow i size).mmap j = c.mmap j :=
  write_mmap_of_ne h

theorem limit_eq (h : e.physStart + e.size < 2 ^ 64) : e.limit = e.physStart + e.size :=
  add64_eq h

-- Slot `e` is not part of the map before it is counted.
theorem Inv.write_uncounted (h : c.Inv) : Adds c (c.write c.mcount e) fun _ => False := by
  have hkept (i : Nat) (hi : i < c.mcount) : (c.write c.mcount e).mmap i = c.mmap i :=
    write_mmap_of_ne (Nat.ne_of_lt hi)
  refine ⟨⟨h.last_lt, fun i hi => by rw [hkept i hi]; exact h.fits i hi⟩, fun x => ?_⟩
  rw [or_false]
  exact exists_congr fun i => and_congr_right fun hi => by rw [hkept i hi]

theorem Inv.count (h : c.Inv) (hm : c'.mcount = c.mcount + 1) (hmap : c'.mmap = c.mmap)
    (hlast : c'.last = c.last ∨ c'.last = some c.mcount)
    (hfits : (c.mmap c.mcount).type = .free →
      (c.mmap c.mcount).physStart + (c.mmap c.mcount).size < 2 ^ 64) :
    Adds c c' (c.mmap c.mcount).Free := by
  refine ⟨⟨fun i hi => ?_, fun i hi hfree => ?_⟩, fun x => ?_⟩
  · rw [hm]
    rcases hlast with hlast | hlast
    · have := h.last_lt i (hlast ▸ hi)
      omega
    · cases hlast.symm.trans hi
      exact Nat.lt_succ_self _
  · rw [hmap] at hfree ⊢
    rw [hm] at hi
    rcases Nat.lt_succ_iff_lt_or_eq.mp hi with hlt | rfl
    · exact h.fits i hlt hfree
    · exact hfits hfree
  · unfold FreeAt
    rw [hm, hmap]
    constructor
    · rintro ⟨i, hi, hfree⟩
      rcases Nat.lt_succ_iff_lt_or_eq.mp hi with hlt | rfl
      · exact .inl ⟨i, hlt, hfree⟩
      · exact .inr hfree
    · rintro (⟨i, hi, hfree⟩ | hfree)
      · exact ⟨i, by omega, hfree⟩
      · exact ⟨_, Nat.lt_succ_self _, hfree⟩

theorem Inv.push (h : c.Inv) (hfits : e.type = .free → e.physStart + e.size < 2 ^ 64) :
    Adds c (c.push e) e.Free := by
  have hwrite := h.write_uncounted (e := e)
  have hcount : Adds _ (c.push e) _ := hwrite.inv.count rfl rfl (.inl rfl) (by
    simpa only [Conversion.write_mcount, write_mmap_self] using hfits)
  refine (hwrite.trans hcount).congr fun x => ?_
  rw [Conversion.write_mcount, write_mmap_self, false_or]

-- A FREE entry grows by the bytes that follow it.
theorem Inv.grow_free {size : Nat} (h : c.Inv) (hi : i < c.mcount)
    (hfree : (c.mmap i).type = .free) (hfits : (c.mmap i).limit + size < 2 ^ 64) :
    Adds c (c.grow i size) fun x => Span.Mem x ⟨(c.mmap i).limit, size⟩ := by
  have hlimit := limit_eq (h.fits i hi hfree)
  have hsize : add64 (c.mmap i).size size = (c.mmap i).size + size := add64_eq (by omega)
  have hself : (c.grow i size).mmap i = { c.mmap i with size := (c.mmap i).size + size } := by
    simp [grow, hsize]
  refine ⟨⟨h.last_lt, fun j hj hj' => ?_⟩, fun x => ?_⟩
  · by_cases hji : j = i
    · subst hji
      rw [hself]
      simp only
      omega
    · rw [grow_mmap_of_ne hji] at hj' ⊢
      exact h.fits j hj hj'
  · constructor
    · rintro ⟨j, hj, hx⟩
      by_cases hji : j = i
      · subst hji
        rw [hself] at hx
        obtain ⟨-, hlow, hhigh⟩ := hx
        by_cases hold : x < (c.mmap j).limit
        · exact .inl ⟨j, hj, hfree, hlow, by simp only; omega⟩
        · exact .inr ⟨by simp only; omega, by simp only at hhigh ⊢; omega⟩
      · rw [grow_mmap_of_ne hji] at hx
        exact .inl ⟨j, hj, hx⟩
    · rintro (⟨j, hj, hx⟩ | ⟨hlow, hhigh⟩)
      · refine ⟨j, hj, ?_⟩
        by_cases hji : j = i
        · subst hji
          rw [hself]
          obtain ⟨-, hlow, hhigh⟩ := hx
          exact ⟨hfree, hlow, by simp only at hhigh ⊢; omega⟩
        · rwa [grow_mmap_of_ne hji]
      · refine ⟨i, hi, ?_⟩
        rw [hself]
        exact ⟨hfree, by simp only at hlow ⊢; omega, by simp only at hhigh ⊢; omega⟩

theorem Inv.grow_other {size : Nat} (h : c.Inv) (hfree : (c.mmap i).type ≠ .free) :
    Adds c (c.grow i size) fun _ => False := by
  have hkept (j : Nat) (hj : j ≠ i) : (c.grow i size).mmap j = c.mmap j := grow_mmap_of_ne hj
  have htype : ((c.grow i size).mmap i).type ≠ .free := by simpa [grow] using hfree
  refine ⟨⟨h.last_lt, fun j hj hj' => ?_⟩, fun x => ?_⟩
  · have hji : j ≠ i := fun hji => htype (hji ▸ hj')
    rw [hkept j hji] at hj' ⊢
    exact h.fits j hj hj'
  · rw [or_false]
    refine exists_congr fun j => and_congr_right fun hj => ?_
    by_cases hji : j = i
    · subst hji
      exact ⟨fun hx => absurd hx.1 htype, fun hx => absurd hx.1 hfree⟩
    · rw [hkept j hji]

theorem Inv.append (h : c.Inv) (hfits : (c.mmap c.mcount).type = .free →
      (c.mmap c.mcount).physStart + (c.mmap c.mcount).size < 2 ^ 64) :
    Adds c c.append (c.mmap c.mcount).Free := by
  cases hlast : c.last with
  | none =>
      simp only [Conversion.append, hlast]
      exact h.count rfl rfl (.inr rfl) hfits
  | some i =>
      simp only [Conversion.append, hlast]
      split
      · rename_i hcont
        obtain ⟨hstart, -, htype⟩ := hcont
        by_cases hfree : (c.mmap c.mcount).type = .free
        · refine (h.grow_free (h.last_lt i hlast) (htype ▸ hfree) ?_).congr fun x => ?_
          · exact hstart ▸ hfits hfree
          · simp only [SmmapEntry.Free, hfree, true_and, hstart]
        · refine (h.grow_other (htype ▸ hfree)).congr fun x => ?_
          simp only [SmmapEntry.Free, hfree, false_and]
      · exact h.count rfl rfl (.inr rfl) hfits

theorem Inv.firstFragment {overlapStart : Nat} (h : c.Inv) (hslot : c.mmap c.mcount = d.entry)
    (hlt : overlapStart < 2 ^ 64) :
    Adds c (c.firstFragment d overlapStart) fun x =>
      d.entry.type = .free ∧ d.physicalStart ≤ x ∧ x < overlapStart := by
  by_cases hcut : d.physicalStart < overlapStart
  · have hsize := sub64_eq (Nat.le_of_lt hcut) hlt
    have hpush : Adds c (c.push ⟨d.entry.type, d.physicalStart, d.virtualStart,
        overlapStart - d.physicalStart⟩) fun x =>
        d.entry.type = .free ∧ d.physicalStart ≤ x ∧ x < overlapStart := by
      refine (h.push fun _ => by simp only; omega).congr fun x => and_congr_right fun _ => ?_
      simp only [Span.Mem]
      omega
    simp only [Conversion.firstFragment, hcut, if_true, hslot, hsize]
    cases hlast : c.last with
    | none => exact hpush
    | some i =>
        simp only
        split
        · rename_i hcont
          obtain ⟨hstart, -, htype⟩ := hcont
          by_cases hfree : d.entry.type = .free
          · refine (h.grow_free (h.last_lt i hlast) (htype ▸ hfree) (by omega)).congr fun x => ?_
            simp only [Span.Mem, hfree, true_and]
            omega
          · refine (h.grow_other (htype ▸ hfree)).congr fun x => ?_
            simp only [hfree, false_and]
        · exact hpush
  · simp only [Conversion.firstFragment, hcut, if_false]
    refine h.adds_nothing.congr fun x => ?_
    rw [false_iff]
    rintro ⟨-, hlow, hhigh⟩
    omega

theorem Inv.secondFragment (h : c.Inv) (overlapStart overlapEnd : Nat) :
    Adds c (c.secondFragment overlapStart overlapEnd).1 (fun _ => False) ∧
      (c.secondFragment overlapStart overlapEnd).2 ≤
        (c.secondFragment overlapStart overlapEnd).1.mcount := by
  have hpush : Adds c (c.push ⟨.unibootStructs, overlapStart, 0, sub64 overlapEnd overlapStart⟩)
      fun _ => False := by
    refine (h.push fun hfree => by cases hfree).congr fun x => ?_
    simp [SmmapEntry.Free]
  cases hlast : c.last with
  | none =>
      simp only [Conversion.secondFragment, hlast]
      exact ⟨hpush, Nat.le_refl _⟩
  | some i =>
      simp only [Conversion.secondFragment, hlast]
      split
      · rename_i hcont
        exact ⟨h.grow_other fun hfree => by simp [← hcont.2] at hfree, Nat.zero_le _⟩
      · exact ⟨hpush, Nat.le_refl _⟩

theorem Inv.thirdFragment (h : c.Inv) (d : EfiDescriptor) (slot overlapEnd : Nat) {idx1 : Nat}
    (hidx : idx1 ≤ c.mcount) :
    Adds c (c.thirdFragment slot d overlapEnd idx1).1 (fun x =>
        (c.mmap slot).type = .free ∧ overlapEnd ≤ x ∧ x < d.limit) ∧
      (c.thirdFragment slot d overlapEnd idx1).2 ≤
        (c.thirdFragment slot d overlapEnd idx1).1.mcount := by
  have hlt := d.limit_lt
  unfold Conversion.thirdFragment
  split
  · rename_i hcut
    have hsize := sub64_eq (Nat.le_of_lt hcut) hlt
    refine ⟨?_, Nat.le_refl _⟩
    rw [hsize]
    refine (h.push fun _ => by simp only; omega).congr fun x => and_congr_right fun _ => ?_
    simp only [Span.Mem]
    omega
  · refine ⟨h.adds_nothing.congr fun x => ?_, hidx⟩
    rw [false_iff]
    rintro ⟨-, hlow, hhigh⟩
    omega

theorem Inv.setLast {idx1 : Nat} (h : c.Inv) (hidx : idx1 ≤ c.mcount) :
    Adds c (c.setLast idx1) fun _ => False := by
  unfold Conversion.setLast
  split
  · refine ⟨⟨fun i hi => ?_, h.fits⟩, fun x => by rw [or_false]; rfl⟩
    cases hi
    simp only
    omega
  · exact h.adds_nothing

-- The piece for the structure is written over slot `e`: the piece in front of
-- it is empty or has gone into last_entry, and the structure's has not.
def SlotReused (c : Conversion) (d : EfiDescriptor) (ubStart : Nat) : Prop :=
  match c.last with
  | none => ubStart ≤ d.physicalStart
  | some i =>
      if d.physicalStart < ubStart then
        Continues (c.mmap i) d.physicalStart d.virtualStart d.virtualStart d.entry.type
      else ¬ (d.physicalStart = (c.mmap i).limit ∧ .unibootStructs = (c.mmap i).type)

theorem grow_type {size j : Nat} : ((c.grow i size).mmap j).type = (c.mmap j).type := by
  by_cases hji : j = i
  · subst hji
    simp [grow]
  · rw [grow_mmap_of_ne hji]

theorem secondFragment_counted {overlapStart overlapEnd : Nat} (hi : i < c.mcount) :
    ((c.secondFragment overlapStart overlapEnd).1.mmap i).type = (c.mmap i).type := by
  have hpush (e : SmmapEntry) : ((c.push e).mmap i).type = (c.mmap i).type :=
    congrArg _ (write_mmap_of_ne (Nat.ne_of_lt hi))
  unfold Conversion.secondFragment
  split
  · split
    · exact grow_type
    · exact hpush _
  · exact hpush _

theorem secondFragment_slot {overlapStart overlapEnd : Nat} :
    ((c.secondFragment overlapStart overlapEnd).1.mmap c.mcount).type = .free ↔
      (c.mmap c.mcount).type = .free ∧ ∃ i, c.last = some i ∧
        overlapStart = (c.mmap i).limit ∧ .unibootStructs = (c.mmap i).type := by
  unfold Conversion.secondFragment
  cases hlast : c.last with
  | none => simp
  | some i =>
      simp only [Option.some.injEq, exists_eq_left']
      split
      · rename_i hcont
        rw [grow_type]
        exact ⟨fun hfree => ⟨hfree, hcont⟩, And.left⟩
      · rename_i hcont
        simp [hcont]

theorem entry_type_ne : d.entry.type ≠ .unibootStructs := by
  obtain ⟨type, _, _, _, _⟩ := d
  cases type <;> simp [EfiDescriptor.entry, smmapType]

-- What is behind the structure keeps the descriptor's type unless the slot is
-- reused.
theorem slot_free_iff {ubStart overlapEnd : Nat} (hslot : c.mmap c.mcount = d.entry) :
    ((((c.firstFragment d (max d.physicalStart ubStart)).secondFragment
        (max d.physicalStart ubStart) overlapEnd).1.mmap c.mcount).type = .free) ↔
      d.entry.type = .free ∧ ¬ c.SlotReused d ubStart := by
  have hpush (e : SmmapEntry) (os oe : Nat) :
      (((c.push e).secondFragment os oe).1.mmap c.mcount).type = e.type := by
    rw [secondFragment_counted (Nat.lt_succ_self _), push_mmap_mcount]
  by_cases hcut : d.physicalStart < ubStart
  · have hmax : max d.physicalStart ubStart = ubStart := by omega
    cases hlast : c.last with
    | none =>
        have hreused : ¬ c.SlotReused d ubStart := by simp [SlotReused, hlast, hcut]
        simp [Conversion.firstFragment, hmax, hcut, hlast, hpush, hreused, hslot]
    | some i =>
        by_cases hcont : Continues (c.mmap i) d.physicalStart d.virtualStart d.virtualStart
            d.entry.type
        · -- last_entry now has the descriptor's type, so the structure is pushed.
          have hreused : c.SlotReused d ubStart := by simp [SlotReused, hlast, hcut, hcont]
          have hfirst (size : Nat) (oe : Nat) :
              ¬ (((c.grow i size).secondFragment ubStart oe).1.mmap c.mcount).type = .free := by
            rw [show c.mcount = (c.grow i size).mcount from rfl, secondFragment_slot]
            rintro ⟨-, j, hj, -, htype⟩
            rw [grow_last, hlast] at hj
            cases hj
            rw [grow_type, ← hcont.2.2] at htype
            exact entry_type_ne htype.symm
          have hcont' : Continues (c.mmap i) d.physicalStart d.virtualStart d.entry.virtStart
              d.entry.type := hcont
          simp [Conversion.firstFragment, hmax, hcut, hlast, hreused, hslot, hcont', hfirst]
        · have hreused : ¬ c.SlotReused d ubStart := by simp [SlotReused, hlast, hcut, hcont]
          have hcont' : ¬ Continues (c.mmap i) d.physicalStart d.virtualStart d.entry.virtStart
              d.entry.type := hcont
          simp [Conversion.firstFragment, hmax, hcut, hlast, hreused, hslot, hcont', hpush]
  · have hmax : max d.physicalStart ubStart = d.physicalStart := by omega
    have hfirst : c.firstFragment d d.physicalStart = c := by simp [Conversion.firstFragment]
    rw [hmax, hfirst, secondFragment_slot, hslot]
    refine and_congr_right fun _ => ?_
    cases hlast : c.last with
    | none => simp [SlotReused, hlast, Nat.not_lt.mp hcut]
    | some i => simp [SlotReused, hlast, hcut]

-- What fragmentEntry types as FREE when it cuts out `[ubStart, ubEnd)`.
def AroundCut (c : Conversion) (d : EfiDescriptor) (ubStart ubEnd x : Nat) : Prop :=
  (d.physicalStart ≤ x ∧ x < ubStart) ∨
    (min d.limit ubEnd ≤ x ∧ x < d.limit ∧ ¬ c.SlotReused d ubStart)

theorem Inv.fragmentEntry {ubStart : Nat} (h : c.Inv) (ubEnd : Nat)
    (hslot : c.mmap c.mcount = d.entry) (hlt : ubStart < 2 ^ 64) :
    Adds c (c.fragmentEntry d ubStart ubEnd) fun x =>
      d.entry.type = .free ∧ c.AroundCut d ubStart ubEnd x := by
  have hstart : max d.physicalStart ubStart < 2 ^ 64 := by
    have := d.limit_lt
    simp only [EfiDescriptor.limit] at this
    omega
  have hfirst := h.firstFragment hslot hstart
  obtain ⟨hsecond, hidx⟩ := hfirst.inv.secondFragment (max d.physicalStart ubStart)
    (min d.limit ubEnd)
  obtain ⟨hthird, hidx'⟩ := hsecond.inv.thirdFragment d c.mcount (min d.limit ubEnd) hidx
  have hlast := hthird.inv.setLast hidx'
  refine (((hfirst.trans hsecond).trans hthird).trans hlast).congr fun x => ?_
  simp only [slot_free_iff hslot, AroundCut, or_false]
  constructor
  · rintro (⟨hfree, hlow, hhigh⟩ | ⟨⟨hfree, hkept⟩, hlow, hhigh⟩)
    · exact ⟨hfree, .inl ⟨hlow, by omega⟩⟩
    · exact ⟨hfree, .inr ⟨hlow, hhigh, hkept⟩⟩
  · rintro ⟨hfree, ⟨hlow, hhigh⟩ | ⟨hlow, hhigh, hkept⟩⟩
    · exact .inl ⟨hfree, hlow, by omega⟩
    · exact .inr ⟨⟨hfree, hkept⟩, hlow, hhigh⟩

end Conversion

-- The pages that a round cuts out of a descriptor. One structure is cut out at
-- most, and UniBootCore before SMMAP.
def cutOut (core smmap : Span) (d : EfiDescriptor) : Option (Nat × Nat) :=
  if Holds core d.entry then some (alignDown core.base, alignUpPage core.limit)
  else if Holds smmap d.entry then some (alignDown smmap.base, alignUpPage smmap.limit)
  else none

-- What the round for `d` leaves as FREE memory: all of a descriptor of such a
-- type, without the pages cut out and without what is behind them if the slot
-- is reused. `c` is the state before the round.
def LeavesFree (core smmap : Span) (c : Conversion) (d : EfiDescriptor) (x : Nat) : Prop :=
  d.entry.type = .free ∧ ¬ (PerfectFit core d.entry ∨ PerfectFit smmap d.entry) ∧
    match cutOut core smmap d with
    | none => d.physicalStart ≤ x ∧ x < d.limit
    | some (ubStart, ubEnd) => c.AroundCut d ubStart ubEnd x

namespace Conversion

variable {core smmap : Span} {c : Conversion} {d : EfiDescriptor} {x : Nat}

theorem slotReused_write {ubStart : Nat} {e : SmmapEntry} (h : c.Inv) :
    (c.write c.mcount e).SlotReused d ubStart ↔ c.SlotReused d ubStart := by
  cases hlast : c.last with
  | none => simp only [SlotReused, write_last, hlast]
  | some i =>
      simp only [SlotReused, write_last, hlast,
        write_mmap_of_ne (Nat.ne_of_lt (h.last_lt i hlast))]

theorem Inv.round (h : c.Inv) (hcore : core.base < 2 ^ 64) (hsmmap : smmap.base < 2 ^ 64) :
    Adds c (convertDescriptor core smmap c d) (LeavesFree core smmap c d) := by
  have hstarted := h.write_uncounted (e := d.entry)
  have hslot : (c.write c.mcount d.entry).mmap (c.write c.mcount d.entry).mcount = d.entry :=
    write_mmap_self
  have hcut (s : Span) (hs : s.base < 2 ^ 64) : Adds c
      ((c.write c.mcount d.entry).fragmentEntry d (alignDown s.base) (alignUpPage s.limit))
      fun x => d.entry.type = .free ∧
        c.AroundCut d (alignDown s.base) (alignUpPage s.limit) x := by
    have hpieces := hstarted.inv.fragmentEntry (alignUpPage s.limit) hslot
      (Nat.lt_of_le_of_lt (alignDown_le s.base) hs)
    refine (hstarted.trans hpieces).congr fun x => ?_
    simp only [AroundCut, slotReused_write h, false_or]
  unfold convertDescriptor
  simp only
  split
  · rename_i hfit
    have hfitted := hstarted.inv.write_uncounted
      (e := ⟨.unibootStructs, d.physicalStart, d.virtualStart, d.size⟩)
    have hslot' (c : Conversion) (e : SmmapEntry) :
        (c.write c.mcount e).mmap (c.write c.mcount e).mcount = e := write_mmap_self
    have happend := hfitted.inv.append fun hfree => by
      rw [hslot'] at hfree
      cases hfree
    refine ((hstarted.trans hfitted).trans happend).congr fun x => ?_
    rw [hslot']
    simp [SmmapEntry.Free, LeavesFree, hfit]
  · rename_i hfit
    split
    · rename_i hholds
      refine (hcut core hcore).congr fun x => ?_
      simp only [LeavesFree, cutOut, hfit, hholds, not_false_eq_true, true_and, if_true]
    · rename_i hcoreHolds
      split
      · rename_i hholds
        refine (hcut smmap hsmmap).congr fun x => ?_
        simp only [LeavesFree, cutOut, hfit, hcoreHolds, hholds, not_false_eq_true, true_and,
          if_true, if_false]
      · rename_i hholds
        have happend := hstarted.inv.append fun _ => by rw [hslot]; exact d.limit_lt
        refine (hstarted.trans happend).congr fun x => ?_
        rw [hslot, false_or]
        simp only [LeavesFree, cutOut, hfit, hcoreHolds, hholds, not_false_eq_true, true_and,
          if_false]
        rfl

-- By induction on the map: what one round adds is never taken back.
theorem Inv.run (hcore : core.base < 2 ^ 64) (hsmmap : smmap.base < 2 ^ 64)
    (ds : List EfiDescriptor) (c : Conversion) (h : c.Inv) :
    Adds c (convertFrom core smmap c ds) fun x => ∃ before d after, ds = before ++ d :: after ∧
      LeavesFree core smmap (convertFrom core smmap c before) d x := by
  induction ds generalizing c with
  | nil => exact h.adds_nothing.congr fun x => by simp
  | cons d ds ih =>
      have hround := h.round hcore hsmmap (d := d)
      refine (hround.trans (ih _ hround.inv)).congr fun x => ?_
      constructor
      · rintro (hx | ⟨before, d', after, rfl, hx⟩)
        · exact ⟨[], d, ds, rfl, hx⟩
        · exact ⟨d :: before, d', after, rfl, hx⟩
      · rintro ⟨before, d', after, heq, hx⟩
        cases before with
        | nil =>
            cases heq
            exact .inl hx
        | cons d₀ before =>
            cases heq
            exact .inr ⟨before, d', after, rfl, hx⟩

end Conversion

-- The loop of pager_init keeps of the FREE memory what is not privilaged.
theorem initEntry_mem {privilaged x : Nat} {ranges ranges' : List PhysRange} {e : SmmapEntry}
    (hfits : e.type = .free → e.physStart + e.size < 2 ^ 64)
    (h : initEntry privilaged ranges e = some ranges') :
    (∃ r ∈ ranges', r.Mem x) ↔ (∃ r ∈ ranges, r.Mem x) ∨ (privilaged ≤ x ∧ e.Free x) := by
  have hadd {start : Nat} (hfree : e.type = .free)
      (hadded : (if ranges.length < 256 then some (ranges ++ [⟨start, e.limit⟩]) else none) =
        some ranges') (hmem : start ≤ x ↔ privilaged ≤ x ∧ e.physStart ≤ x) :
      (∃ r ∈ ranges', r.Mem x) ↔ (∃ r ∈ ranges, r.Mem x) ∨ (privilaged ≤ x ∧ e.Free x) := by
    split at hadded
    · cases hadded
      simp only [List.mem_append, List.mem_singleton, or_and_right, exists_or, exists_eq_left,
        PhysRange.Mem, SmmapEntry.Free, Span.Mem, hmem, hfree, true_and,
        Conversion.limit_eq (hfits hfree), and_assoc]
    · cases hadded
  have hnone (hempty : ¬ (privilaged ≤ x ∧ e.Free x)) (hkept : some ranges = some ranges') :
      (∃ r ∈ ranges', r.Mem x) ↔ (∃ r ∈ ranges, r.Mem x) ∨ (privilaged ≤ x ∧ e.Free x) := by
    cases hkept
    rw [or_iff_left hempty]
  unfold initEntry at h
  simp only at h
  split at h
  · refine hnone ?_ h
    rintro ⟨-, -, hlow, hhigh⟩
    simp only at hlow hhigh
    omega
  · split at h
    · rename_i hfree
      split at h
      · split at h
        · refine hnone ?_ h
          rintro ⟨hpriv, -, hlow, hhigh⟩
          simp only at hlow hhigh
          omega
        · exact hadd hfree h (by omega)
      · exact hadd hfree h (by omega)
    · exact hnone (fun hx => by simp_all [SmmapEntry.Free]) h

theorem pagerRanges_mem {privilaged x : Nat} {entries : List SmmapEntry} {ranges : List PhysRange}
    (hfits : ∀ e ∈ entries, e.type = .free → e.physStart + e.size < 2 ^ 64)
    (h : pagerRanges privilaged entries = some ranges) :
    (∃ r ∈ ranges, r.Mem x) ↔ privilaged ≤ x ∧ ∃ e ∈ entries, e.Free x := by
  have hloop (entries : List SmmapEntry) (ranges₀ : List PhysRange)
      (hfits : ∀ e ∈ entries, e.type = .free → e.physStart + e.size < 2 ^ 64)
      (h : entries.foldlM (initEntry privilaged) ranges₀ = some ranges) :
      (∃ r ∈ ranges, r.Mem x) ↔
        (∃ r ∈ ranges₀, r.Mem x) ∨ (privilaged ≤ x ∧ ∃ e ∈ entries, e.Free x) := by
    induction entries generalizing ranges₀ with
    | nil =>
        cases h
        simp
    | cons e entries ih =>
        rw [List.foldlM_cons] at h
        obtain ⟨ranges₁, hround, hrest⟩ := Option.bind_eq_some_iff.mp h
        rw [ih ranges₁ (fun e he => hfits e (List.mem_cons_of_mem _ he)) hrest,
          initEntry_mem (hfits e List.mem_cons_self) hround]
        simp only [List.mem_cons, exists_eq_or_imp, and_or_left, or_assoc]
  simpa using hloop entries [] hfits h

namespace BootLayout

-- The kernel image, [kernel_space, kernel_space_end), UniBootCore and SMMAP.
def Live (b : BootLayout) (x : Nat) : Prop :=
  Span.Mem x b.kernelImage ∨ Span.Mem x b.kernelSpaceSpan ∨ Span.Mem x b.coreSpan ∨
    Span.Mem x b.smmapSpan

instance (b : BootLayout) (x : Nat) : Decidable (b.Live x) := by unfold Live; infer_instance

-- The state in which the loop finds a descriptor.
def conversionBefore (b : BootLayout) (before : List EfiDescriptor) : Conversion :=
  convertFrom b.coreSpan b.smmapSpan emptySmmap before

-- No round leaves live memory as FREE, but below the end of what the kernel
-- keeps anyway.
def KeepsLive (b : BootLayout) : Prop :=
  ∀ before d after, b.descriptors = before ++ d :: after → ∀ x, b.Live x → b.privilaged ≤ x →
    ¬ LeavesFree b.coreSpan b.smmapSpan (b.conversionBefore before) d x

-- No range given to the allocator holds live memory.
def LeftAlone (b : BootLayout) (ranges : List PhysRange) : Prop :=
  ∀ r ∈ ranges, ∀ x, b.Live x → ¬ r.Mem x

theorem emptySmmap_inv : emptySmmap.Inv :=
  ⟨fun i hi => (by cases hi), fun i hi => absurd hi (Nat.not_lt_zero i)⟩

theorem core_lt (b : BootLayout) : b.coreSpan.base < 2 ^ 64 := by
  have hfits := b.core_fits
  have hle := le_alignUpPage (b.uniBootCore + sizeofBootInfo)
  simp only [coreSpan]
  omega

theorem smmap_lt (b : BootLayout) : b.smmapSpan.base < 2 ^ 64 := by
  have hfits := b.smmap_fits
  have hle := le_alignUpPage
    (b.smmap + (sizeofSmmap + sizeofSmmapEntry * 5 * b.descriptors.length))
  simp only [smmapSpan]
  omega

theorem convert_run (b : BootLayout) :
    Conversion.Adds emptySmmap (b.conversionBefore b.descriptors) fun x =>
      ∃ before d after, b.descriptors = before ++ d :: after ∧
        LeavesFree b.coreSpan b.smmapSpan (b.conversionBefore before) d x :=
  Conversion.Inv.run b.core_lt b.smmap_lt b.descriptors emptySmmap emptySmmap_inv

theorem mem_convert {b : BootLayout} {e : SmmapEntry} :
    e ∈ b.convert ↔ ∃ i < (b.conversionBefore b.descriptors).mcount,
      (b.conversionBefore b.descriptors).mmap i = e := by
  simp [convert, conversionBefore]

-- The ranges are the memory that the rounds leave FREE, without what the
-- kernel keeps.
theorem ranges_mem (b : BootLayout) {ranges : List PhysRange} {x : Nat}
    (h : pagerRanges b.privilaged b.convert = some ranges) :
    (∃ r ∈ ranges, r.Mem x) ↔ b.privilaged ≤ x ∧
      ∃ before d after, b.descriptors = before ++ d :: after ∧
        LeavesFree b.coreSpan b.smmapSpan (b.conversionBefore before) d x := by
  have hrun := b.convert_run
  have hfits (e : SmmapEntry) (he : e ∈ b.convert) (hfree : e.type = .free) :
      e.physStart + e.size < 2 ^ 64 := by
    obtain ⟨i, hi, rfl⟩ := mem_convert.mp he
    exact hrun.inv.fits i hi hfree
  have hfree : (∃ e ∈ b.convert, e.Free x) ↔ (b.conversionBefore b.descriptors).FreeAt x := by
    simp only [mem_convert, Conversion.FreeAt]
    constructor
    · rintro ⟨_, ⟨i, hi, rfl⟩, hx⟩
      exact ⟨i, hi, hx⟩
    · rintro ⟨i, hi, hx⟩
      exact ⟨_, ⟨i, hi, rfl⟩, hx⟩
  have hempty : ¬ emptySmmap.FreeAt x := fun ⟨i, hi, _⟩ => absurd hi (Nat.not_lt_zero i)
  rw [pagerRanges_mem hfits h, hfree, hrun.free_iff, or_iff_right hempty]

theorem leftAlone_iff (b : BootLayout) {ranges : List PhysRange}
    (h : pagerRanges b.privilaged b.convert = some ranges) :
    b.LeftAlone ranges ↔ b.KeepsLive := by
  constructor
  · intro halone before d after hmap x hlive hpriv hfree
    obtain ⟨r, hr, hx⟩ := (b.ranges_mem h).mpr ⟨hpriv, before, d, after, hmap, hfree⟩
    exact halone r hr x hlive hx
  · intro hkeeps r hr x hlive hx
    obtain ⟨hpriv, before, d, after, hmap, hfree⟩ := (b.ranges_mem h).mp ⟨r, hr, hx⟩
    exact hkeeps before d after hmap x hlive hpriv hfree

-- A boot with the kernel space right behind the kernel.
def kernelSpaceLow : BootLayout where
  descriptors := [
    ⟨.conventionalMemory, 0, 0, 0xA0, by decide⟩,
    ⟨.loaderCode, 0x100000, 0, 0x400, by decide⟩,
    ⟨.loaderData, 0x500000, 0, 0x800, by decide⟩,
    ⟨.conventionalMemory, 0xD00000, 0, 0x7C300, by decide⟩,
    ⟨.loaderData, 0x7D000000, 0, 0x10, by decide⟩]
  kernelImage := ⟨0x100000, 0x400000⟩
  kernelSpace := 0x500000
  uniBootCore := 0x7D000000
  smmap := 0x7CFFF000
  bssEnd := 0x500000
  core_fits := by decide
  smmap_fits := by decide
  bss_fits := by decide

theorem leftAlone_iff_low : ∃ ranges, pagerRanges kernelSpaceLow.privilaged kernelSpaceLow.convert =
    some ranges ∧ kernelSpaceLow.LeftAlone ranges ∧ kernelSpaceLow.KeepsLive := by
  have hranges : pagerRanges kernelSpaceLow.privilaged kernelSpaceLow.convert =
      some [⟨0x1500000, 0x7CFFF000⟩, ⟨0x7D001000, 0x7D010000⟩] := by decide +kernel
  have halone : kernelSpaceLow.LeftAlone [⟨0x1500000, 0x7CFFF000⟩, ⟨0x7D001000, 0x7D010000⟩] := by
    intro r hr x hlive hx
    simp only [List.mem_cons, List.not_mem_nil, or_false] at hr
    simp only [Live, Span.Mem, kernelSpaceSpan, coreSpan, smmapSpan, smmapSize, kernelSpaceLow,
      UNIBOOT_MINIMUM_REQUIRED_KERNEL_SPACE_PAGES, sizeofBootInfo, sizeofSmmap, sizeofSmmapEntry,
      List.length_cons, List.length_nil] at hlive
    rcases hr with rfl | rfl <;> simp only [PhysRange.Mem] at hx <;> omega
  exact ⟨_, hranges, halone, (leftAlone_iff kernelSpaceLow hranges).mp halone⟩

-- A map and allocations as the firmware makes them. SMMAP is allocated when
-- the map has been read already.
structure Placed (b : BootLayout) : Prop where
  descriptors_apart : b.descriptors.Pairwise fun d e =>
    d.limit ≤ e.physicalStart ∨ e.limit ≤ d.physicalStart
  image : ∃ d ∈ b.descriptors, d.type = .loaderCode ∧ d.Contains b.kernelImage
  space : ∃ d ∈ b.descriptors, d.type = .loaderData ∧ d.Contains b.kernelSpaceSpan
  core : ∃ d ∈ b.descriptors, d.type = .loaderData ∧ d.Contains b.coreSpan
  smmap : ∃ d ∈ b.descriptors, d.type = .conventionalMemory ∧ d.Contains b.smmapSpan
  apart : [b.kernelImage, b.kernelSpaceSpan, b.coreSpan, b.smmapSpan].Pairwise fun s t =>
    s.limit ≤ t.base ∨ t.limit ≤ s.base

-- The firmware allocates downwards from 0x7D801000, UniBootCore first and the
-- kernel space below it, and reports both in one descriptor.
def kernelSpaceHigh : BootLayout where
  descriptors := [
    ⟨.conventionalMemory, 0, 0, 0xA0, by decide⟩,
    ⟨.loaderCode, 0x100000, 0, 0x400, by decide⟩,
    ⟨.conventionalMemory, 0x500000, 0, 0x7CB00, by decide⟩,
    ⟨.loaderData, 0x7D000000, 0, 0x801, by decide⟩,
    ⟨.runtimeServicesData, 0x7D801000, 0, 0x100, by decide⟩]
  kernelImage := ⟨0x100000, 0x400000⟩
  kernelSpace := 0x7D000000
  uniBootCore := 0x7D800000
  smmap := 0x7CFFF000
  bssEnd := 0x500000
  core_fits := by decide
  smmap_fits := by decide
  bss_fits := by decide

theorem kernelSpaceHigh_placed : kernelSpaceHigh.Placed where
  descriptors_apart := by decide
  image := ⟨kernelSpaceHigh.descriptors[1], by decide, by decide, by decide⟩
  space := ⟨kernelSpaceHigh.descriptors[3], by decide, by decide, by decide⟩
  core := ⟨kernelSpaceHigh.descriptors[3], by decide, by decide, by decide⟩
  smmap := ⟨kernelSpaceHigh.descriptors[2], by decide, by decide, by decide⟩
  apart := by decide

-- The tables that the CPU is walking are handed out as free memory.
theorem leftAlone_fails : ∃ (b : BootLayout) (ranges : List PhysRange),
    b.Placed ∧ pagerRanges b.privilaged b.convert = some ranges ∧
      ⟨b.kernelSpaceSpan.base, b.kernelSpaceSpan.limit⟩ ∈ ranges ∧ ¬ b.LeftAlone ranges := by
  refine ⟨kernelSpaceHigh, [⟨0x1500000, 0x7CFFF000⟩, ⟨0x7D000000, 0x7D800000⟩],
    kernelSpaceHigh_placed, by decide +kernel, by decide, fun halone => ?_⟩
  exact halone ⟨0x7D000000, 0x7D800000⟩ (by decide) 0x7D000000 (by decide) ⟨by decide, by decide⟩

end BootLayout

end AosKernel.Boot
