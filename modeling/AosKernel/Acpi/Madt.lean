import AosKernel.Lib.Blit

namespace AosKernel.Acpi

open Verif

def sizeofMadt : Nat := 44
def sizeofLapicEntry : Nat := 8
def MADT_TYPE_LAPIC : UInt8 := 0
def maxApicIds : Nat := 256

-- apic_ids as far as it is filled, apic_id_count of them.
structure ApicIds where
  ids : List UInt8
  fits : ids.length ≤ maxApicIds

-- Why parsing breaks off: a read outside the table, or a write outside apic_ids.
inductive MadtFault
  | outside
  | full
  deriving DecidableEq

def ApicIds.push (apics : ApicIds) (id : UInt8) : Except MadtFault ApicIds :=
  if h : apics.ids.length < maxApicIds then
    .ok ⟨apics.ids ++ [id], by rw [List.length_append]; exact h⟩
  else .error .full

section Table

-- The memory from the table on.
variable (mem : Nat → UInt8)

-- madt->header.length
def madtLength : Nat := leNat [mem 4, mem 5, mem 6, mem 7]

def entryType (p : Nat) : UInt8 := mem p
def entryLength (p : Nat) : Nat := (mem (p + 1)).toNat
def lapicId (p : Nat) : UInt8 := mem (p + 3)
def lapicFlags (p : Nat) : Nat := leNat [mem (p + 4), mem (p + 5), mem (p + 6), mem (p + 7)]
def lapicEnabled (p : Nat) : Bool := lapicFlags mem p % 2 == 1

-- The loop from offset `p` on, for `fuel` iterations at most.
def madtLoop : Nat → Nat → ApicIds → Option (Except MadtFault ApicIds)
  | 0, _, _ => none
  | fuel + 1, p, apics =>
      if p < madtLength mem then
        if madtLength mem < p + 2 then some (.error .outside)
        else if entryType mem p = MADT_TYPE_LAPIC then
          if madtLength mem < p + sizeofLapicEntry then some (.error .outside)
          else if lapicEnabled mem p then
            match apics.push (lapicId mem p) with
            | .error fault => some (.error fault)
            | .ok apics => madtLoop fuel (p + entryLength mem p) apics
          else madtLoop fuel (p + entryLength mem p) apics
        else madtLoop fuel (p + entryLength mem p) apics
      else some (.ok apics)

-- Before the loop the address of the local APIC is read, which ends at offset 40, and the
-- length.
def acpiParseMadt (apics : ApicIds) (fuel : Nat) : Option (Except MadtFault ApicIds) :=
  if madtLength mem < 40 then some (.error .outside) else madtLoop mem fuel sizeofMadt apics

-- The offsets of the entries, each as far behind the one before as its length says.
def entriesFrom : Nat → Nat → List Nat
  | 0, _ => []
  | n + 1, p =>
      if p < madtLength mem then
        p :: if entryLength mem p = 0 then [] else entriesFrom n (p + entryLength mem p)
      else []

def madtEntries : List Nat := entriesFrom mem (madtLength mem) sizeofMadt

-- The entry lies completely inside the table, with what it says to be its length.
def EntryInside (p : Nat) : Prop :=
  p + sizeofLapicEntry ≤ madtLength mem ∧ p + entryLength mem p ≤ madtLength mem

instance (p : Nat) : Decidable (EntryInside mem p) := inferInstanceAs (Decidable (_ ∧ _))

-- An enabled LAPIC entry that lies completely inside.
def Counts (p : Nat) : Prop :=
  entryType mem p = MADT_TYPE_LAPIC ∧ lapicEnabled mem p = true ∧ EntryInside mem p

instance (p : Nat) : Decidable (Counts mem p) := inferInstanceAs (Decidable (_ ∧ _))

def countedIds (entries : List Nat) : List UInt8 :=
  (entries.filter fun p => Counts mem p).map (lapicId mem)

-- Parsing ends, without a fault, and appends what it has to.
def ParsesRight (apics : ApicIds) : Prop :=
  ∃ fuel result, acpiParseMadt mem apics fuel = some (.ok result) ∧
    result.ids = apics.ids ++ countedIds mem (madtEntries mem)

-- The first two bytes of an entry lie inside, the second is not 0, and a LAPIC entry has
-- all its fields inside, an enabled one also what it says to be its length.
structure EntryFormed (p : Nat) : Prop where
  header : p + 2 ≤ madtLength mem
  advances : entryLength mem p ≠ 0
  fields : entryType mem p = MADT_TYPE_LAPIC → p + sizeofLapicEntry ≤ madtLength mem
  whole : entryType mem p = MADT_TYPE_LAPIC → lapicEnabled mem p = true →
    p + entryLength mem p ≤ madtLength mem

structure MadtFormed (apics : ApicIds) : Prop where
  header : 40 ≤ madtLength mem
  entries : ∀ p ∈ madtEntries mem, EntryFormed mem p
  room : apics.ids.length + (countedIds mem (madtEntries mem)).length ≤ maxApicIds

end Table

section Parsing

variable {mem : Nat → UInt8}

theorem ApicIds.push_ids {apics result : ApicIds} {id : UInt8} (h : apics.push id = .ok result) :
    result.ids = apics.ids ++ [id] := by
  unfold ApicIds.push at h
  split at h
  · cases h
    rfl
  · cases h

theorem ApicIds.push_ok {apics : ApicIds} (id : UInt8) (h : apics.ids.length < maxApicIds) :
    ∃ result, apics.push id = .ok result ∧ result.ids = apics.ids ++ [id] :=
  ⟨_, dif_pos h, rfl⟩

-- From the end of the table on there are no entries, and the fuel does not matter as soon
-- as it covers the rest of the table.
theorem entriesFrom_stable (n : Nat) :
    ∀ p, madtLength mem ≤ p + n → ∀ n', n ≤ n' → entriesFrom mem n' p = entriesFrom mem n p := by
  induction n with
  | zero =>
      intro p hp n' _
      cases n' with
      | zero => rfl
      | succ n' => exact if_neg (by omega)
  | succ n ih =>
      intro p hp n' hn
      obtain ⟨k, rfl⟩ : ∃ k, n' = k + 1 := ⟨n' - 1, by omega⟩
      rw [entriesFrom, entriesFrom]
      by_cases hzero : entryLength mem p = 0
      · rw [if_pos hzero, if_pos hzero]
      · rw [if_neg hzero, if_neg hzero, ih _ (by omega) k (by omega)]

-- The entries from an offset inside the table on.
theorem entriesFrom_cons {n p : Nat} (hp : p < madtLength mem) (hn : madtLength mem ≤ p + n)
    (hadvances : entryLength mem p ≠ 0) :
    entriesFrom mem n p = p :: entriesFrom mem n (p + entryLength mem p) := by
  obtain ⟨k, rfl⟩ : ∃ k, n = k + 1 := ⟨n - 1, by omega⟩
  rw [entriesFrom, if_pos hp, if_neg hadvances,
    entriesFrom_stable k (p + entryLength mem p) (by omega) (k + 1) (Nat.le_succ k)]

theorem entriesFrom_nil {n p : Nat} (hp : madtLength mem ≤ p) : entriesFrom mem n p = [] := by
  cases n with
  | zero => rfl
  | succ n => exact if_neg (by omega)

theorem mem_entriesFrom_self {n p : Nat} (hp : p < madtLength mem)
    (hn : madtLength mem ≤ p + n) : p ∈ entriesFrom mem n p := by
  obtain ⟨k, rfl⟩ : ∃ k, n = k + 1 := ⟨n - 1, by omega⟩
  rw [entriesFrom, if_pos hp]
  exact List.mem_cons_self

theorem countedIds_cons (p : Nat) (entries : List Nat) :
    countedIds mem (p :: entries) =
      if Counts mem p then lapicId mem p :: countedIds mem entries else countedIds mem entries := by
  unfold countedIds
  by_cases hcounts : Counts mem p
  · rw [List.filter_cons_of_pos (by simpa using hcounts), List.map_cons, if_pos hcounts]
  · rw [List.filter_cons_of_neg (by simpa using hcounts), if_neg hcounts]

-- The ids that an iteration of the loop appends.
def appended (mem : Nat → UInt8) (p : Nat) : List UInt8 :=
  if entryType mem p = MADT_TYPE_LAPIC ∧ lapicEnabled mem p = true then [lapicId mem p] else []

theorem appended_lapic {p : Nat} (htype : entryType mem p = MADT_TYPE_LAPIC)
    (henabled : lapicEnabled mem p = true) : appended mem p = [lapicId mem p] :=
  if_pos ⟨htype, henabled⟩

theorem appended_other {p : Nat}
    (h : ¬ (entryType mem p = MADT_TYPE_LAPIC ∧ lapicEnabled mem p = true)) :
    appended mem p = [] :=
  if_neg h

-- What one iteration that does not fault does.
theorem madtLoop_next (fuel : Nat) {p : Nat} (apics : ApicIds) (hp : p < madtLength mem)
    (hheader : p + 2 ≤ madtLength mem)
    (hfields : entryType mem p = MADT_TYPE_LAPIC → p + sizeofLapicEntry ≤ madtLength mem)
    (hroom : apics.ids.length + (appended mem p).length ≤ maxApicIds) :
    ∃ next : ApicIds, next.ids = apics.ids ++ appended mem p ∧
      madtLoop mem (fuel + 1) p apics = madtLoop mem fuel (p + entryLength mem p) next := by
  rw [madtLoop, if_pos hp, if_neg (Nat.not_lt.mpr hheader)]
  by_cases htype : entryType mem p = MADT_TYPE_LAPIC
  · rw [if_pos htype, if_neg (Nat.not_lt.mpr (hfields htype))]
    by_cases henabled : lapicEnabled mem p = true
    · rw [appended_lapic htype henabled] at hroom ⊢
      obtain ⟨next, hpush, hids⟩ := ApicIds.push_ok (lapicId mem p) hroom
      refine ⟨next, hids, ?_⟩
      rw [if_pos henabled, hpush]
    · rw [appended_other fun h => henabled h.2, List.append_nil]
      exact ⟨apics, rfl, if_neg henabled⟩
  · rw [appended_other fun h => htype h.1, List.append_nil]
    exact ⟨apics, rfl, if_neg htype⟩

-- An iteration of a loop that ends well.
theorem madtLoop_ok {fuel p : Nat} {apics result : ApicIds} (hp : p < madtLength mem)
    (h : madtLoop mem (fuel + 1) p apics = some (.ok result)) :
    p + 2 ≤ madtLength mem ∧
      (entryType mem p = MADT_TYPE_LAPIC → p + sizeofLapicEntry ≤ madtLength mem) ∧
      ∃ next : ApicIds, next.ids = apics.ids ++ appended mem p ∧
        madtLoop mem fuel (p + entryLength mem p) next = some (.ok result) := by
  rw [madtLoop, if_pos hp] at h
  by_cases hheader : madtLength mem < p + 2
  · rw [if_pos hheader] at h
    cases h
  · rw [if_neg hheader] at h
    refine ⟨by omega, ?_⟩
    by_cases htype : entryType mem p = MADT_TYPE_LAPIC
    · rw [if_pos htype] at h
      by_cases hfields : madtLength mem < p + sizeofLapicEntry
      · rw [if_pos hfields] at h
        cases h
      · rw [if_neg hfields] at h
        refine ⟨fun _ => by omega, ?_⟩
        by_cases henabled : lapicEnabled mem p = true
        · rw [if_pos henabled] at h
          rw [appended_lapic htype henabled]
          cases hpush : apics.push (lapicId mem p) with
          | error fault =>
              rw [hpush] at h
              cases h
          | ok next =>
              rw [hpush] at h
              exact ⟨next, ApicIds.push_ids hpush, h⟩
        · rw [if_neg henabled] at h
          rw [appended_other fun h => henabled h.2, List.append_nil]
          exact ⟨apics, rfl, h⟩
    · rw [if_neg htype] at h
      rw [appended_other fun h => htype h.1, List.append_nil]
      exact ⟨fun h => absurd h htype, apics, rfl, h⟩

-- A length of 0 keeps the loop where it is.
theorem madtLoop_stuck {p : Nat} (hp : p < madtLength mem) (hzero : entryLength mem p = 0)
    (fuel : Nat) : ∀ apics result, madtLoop mem fuel p apics ≠ some (.ok result) := by
  induction fuel with
  | zero => exact fun _ _ h => Option.some_ne_none _ h.symm
  | succ fuel ih =>
      intro apics result h
      obtain ⟨-, -, next, -, hrest⟩ := madtLoop_ok hp h
      rw [hzero, Nat.add_zero] at hrest
      exact ih next result hrest

-- A loop that ends well has met formed entries only, up to their ends.
theorem madtLoop_sound (fuel : Nat) :
    ∀ n p apics result, madtLength mem ≤ p + n → madtLoop mem fuel p apics = some (.ok result) →
      (∀ q ∈ entriesFrom mem n p, q + 2 ≤ madtLength mem ∧ entryLength mem q ≠ 0 ∧
        (entryType mem q = MADT_TYPE_LAPIC → q + sizeofLapicEntry ≤ madtLength mem)) ∧
      result.ids = apics.ids ++ (entriesFrom mem n p).flatMap (appended mem) := by
  induction fuel with
  | zero => exact fun _ _ _ _ _ h => absurd h.symm (Option.some_ne_none _)
  | succ fuel ih =>
      intro n p apics result hn h
      by_cases hp : p < madtLength mem
      · have hadvances : entryLength mem p ≠ 0 := fun hzero =>
          madtLoop_stuck hp hzero (fuel + 1) apics result h
        obtain ⟨hheader, hfields, next, hids, hrest⟩ := madtLoop_ok hp h
        obtain ⟨hformed, hresult⟩ := ih n (p + entryLength mem p) next result (by omega) hrest
        rw [entriesFrom_cons hp hn hadvances, List.flatMap_cons, ← List.append_assoc, ← hids]
        refine ⟨?_, hresult⟩
        intro q hq
        rcases List.mem_cons.mp hq with rfl | hq
        · exact ⟨hheader, hadvances, hfields⟩
        · exact hformed q hq
      · rw [madtLoop, if_neg hp] at h
        cases h
        rw [entriesFrom_nil (Nat.le_of_not_lt hp), List.flatMap_nil, List.append_nil]
        exact ⟨fun q hq => absurd hq List.not_mem_nil, rfl⟩

-- Over formed entries the loop ends well if there is room for what it appends.
theorem madtLoop_complete (n : Nat) :
    ∀ p (apics : ApicIds), madtLength mem ≤ p + n →
      (∀ q ∈ entriesFrom mem n p, EntryFormed mem q) →
      apics.ids.length + ((entriesFrom mem n p).flatMap (appended mem)).length ≤ maxApicIds →
      ∃ fuel result, madtLoop mem fuel p apics = some (.ok result) := by
  induction n with
  | zero =>
      intro p apics hn _ _
      exact ⟨1, apics, if_neg (by omega)⟩
  | succ n ih =>
      intro p apics hn hformed hroom
      by_cases hp : p < madtLength mem
      · obtain ⟨hheader, hadvances, hfields, -⟩ := hformed p (mem_entriesFrom_self hp hn)
        have hcons : entriesFrom mem (n + 1) p =
            p :: entriesFrom mem n (p + entryLength mem p) := by
          rw [entriesFrom, if_pos hp, if_neg hadvances]
        rw [hcons] at hformed
        rw [hcons, List.flatMap_cons, List.length_append] at hroom
        have hstep (fuel : Nat) := madtLoop_next fuel apics hp hheader hfields (by omega)
        obtain ⟨next, hids, -⟩ := hstep 0
        have hnext : next.ids.length = apics.ids.length + (appended mem p).length := by
          rw [hids, List.length_append]
        obtain ⟨fuel, result, hrest⟩ := ih (p + entryLength mem p) next (by omega)
          (fun q hq => hformed q (List.mem_cons_of_mem p hq)) (by omega)
        obtain ⟨next', hids', hloop⟩ := hstep fuel
        have hsame : next' = next := by
          cases next
          cases next'
          cases hids.trans hids'.symm
          rfl
        exact ⟨fuel + 1, result, by rw [hloop, hsame, hrest]⟩
      · exact ⟨1, apics, if_neg hp⟩

variable (mem) in
theorem countedIds_length_le (entries : List Nat) :
    (countedIds mem entries).length ≤ (entries.flatMap (appended mem)).length := by
  induction entries with
  | nil => exact Nat.le_refl _
  | cons p entries ih =>
      rw [countedIds_cons, List.flatMap_cons, List.length_append]
      by_cases hcounts : Counts mem p
      · rw [if_pos hcounts, appended_lapic hcounts.1 hcounts.2.1, List.length_cons,
          List.length_singleton, Nat.add_comm 1]
        exact Nat.succ_le_succ ih
      · rw [if_neg hcounts]
        exact Nat.le_add_left_of_le ih

-- The loop appends what it has to exactly when no enabled LAPIC entry sticks out.
theorem appended_eq_counted (entries : List Nat) :
    entries.flatMap (appended mem) = countedIds mem entries ↔
      ∀ p ∈ entries, entryType mem p = MADT_TYPE_LAPIC → lapicEnabled mem p = true →
        EntryInside mem p := by
  induction entries with
  | nil => exact ⟨fun _ p hp => absurd hp List.not_mem_nil, fun _ => rfl⟩
  | cons p entries ih =>
      rw [countedIds_cons, List.flatMap_cons, List.forall_mem_cons, ← ih]
      by_cases hlapic : entryType mem p = MADT_TYPE_LAPIC ∧ lapicEnabled mem p = true
      · rw [appended_lapic hlapic.1 hlapic.2, List.singleton_append]
        by_cases hinside : EntryInside mem p
        · rw [if_pos ⟨hlapic.1, hlapic.2, hinside⟩]
          constructor
          · intro h
            exact ⟨fun _ _ => hinside, List.tail_eq_of_cons_eq h⟩
          · rintro ⟨-, h⟩
            rw [h]
        · rw [if_neg (fun h => hinside h.2.2)]
          constructor
          · intro h
            have hlength := congrArg List.length h
            have hle := countedIds_length_le mem entries
            rw [List.length_cons] at hlength
            omega
          · rintro ⟨h, -⟩
            exact absurd (h hlapic.1 hlapic.2) hinside
      · rw [appended_other hlapic, List.nil_append, if_neg (fun h => hlapic ⟨h.1, h.2.1⟩)]
        constructor
        · intro h
          exact ⟨fun htype henabled => absurd ⟨htype, henabled⟩ hlapic, h⟩
        · exact And.right

end Parsing

-- For every table and whatever apic_ids holds before.
theorem acpiParseMadt_iff (mem : Nat → UInt8) (apics : ApicIds) :
    ParsesRight mem apics ↔ MadtFormed mem apics := by
  have hcover : madtLength mem ≤ sizeofMadt + madtLength mem := Nat.le_add_left _ _
  constructor
  · rintro ⟨fuel, result, hparse, hids⟩
    unfold acpiParseMadt at hparse
    by_cases hshort : madtLength mem < 40
    · rw [if_pos hshort] at hparse
      cases hparse
    · rw [if_neg hshort] at hparse
      obtain ⟨hformed, hresult⟩ :=
        madtLoop_sound fuel (madtLength mem) sizeofMadt apics result hcover hparse
      have hcounted := (appended_eq_counted (madtEntries mem)).mp
        (List.append_cancel_left (hresult.symm.trans hids))
      refine ⟨Nat.le_of_not_lt hshort, fun p hp => ?_, ?_⟩
      · obtain ⟨hheader, hadvances, hfields⟩ := hformed p hp
        exact ⟨hheader, hadvances, hfields, fun htype henabled => (hcounted p hp htype henabled).2⟩
      · rw [← List.length_append, ← hids]
        exact result.fits
  · rintro ⟨hheader, hformed, hroom⟩
    have hcounted := (appended_eq_counted (madtEntries mem)).mpr fun p hp htype henabled =>
      ⟨(hformed p hp).fields htype, (hformed p hp).whole htype henabled⟩
    rw [← hcounted] at hroom
    obtain ⟨fuel, result, hloop⟩ :=
      madtLoop_complete (madtLength mem) sizeofMadt apics hcover hformed hroom
    refine ⟨fuel, result, (if_neg (Nat.not_lt.mpr hheader)).trans hloop, ?_⟩
    rw [← hcounted]
    exact (madtLoop_sound fuel (madtLength mem) sizeofMadt apics result hcover hloop).2

-- A table of 45 bytes, whose only entry has no second byte.
theorem madt_header_outside : ¬ ParsesRight (fun k => if k = 4 then 45 else 0) ⟨[], by decide⟩ := by
  rintro ⟨fuel, result, hparse, -⟩
  cases fuel with
  | zero => exact Option.some_ne_none _ hparse.symm
  | succ fuel => cases hparse

end AosKernel.Acpi
