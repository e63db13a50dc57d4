import AosKernel.Mm.PageEntry

namespace AosKernel.Mm

open Verif Verif.Radix

-- The table that an entry leads the processor to. A page directory entry with
-- PAGE_HUGE maps a page; the code sets no such bit in a higher table.
def pageLink (depth : Nat) (e : PageEntry) : Option PhysAddr :=
  if present e ∧ depth < 3 ∧ ¬ (depth = 2 ∧ huge e) then some (frameAddr e) else none

-- The walk takes nothing from the bits of an address above the PML4 index.
def walkPath (virt : BitVec 64) : List Index := [idxPml4 virt, idxPdpt virt, idxPd virt, idxPt virt]

-- The entries of a walk of kernel_pml4 that ends at a mapped page.
def Pager.walk (p : Pager) (virt : BitVec 64) : Option (List PageEntry) :=
  p.table.bind fun pml4 =>
    let met := trail pageLink p.entries 0 pml4 (walkPath virt)
    if (met.getLast?).any present then some met else none

-- The physical address a walk gives: it ends in a page directory at a 2 MiB
-- page and in a page table at a 4 KiB one.
def physOf (virt : BitVec 64) : List PageEntry → Option PhysAddr
  | [_, _, e] => some (hugeFrameAddr e ||| (virt &&& 0x1FFFFF))
  | [_, _, _, e] => some (frameAddr e ||| (virt &&& 0xFFF))
  | _ => none

def Pager.translate (p : Pager) (virt : BitVec 64) : Option PhysAddr :=
  (p.walk virt).bind (physOf virt)

-- The entry at the end of a path, 0 where the path leads to no table.
def Pager.slot (p : Pager) (path : List Index) (i : Index) : PageEntry :=
  match p.table.bind fun pml4 => follow pageLink p.entries 0 pml4 path with
  | some a => p.entries a i
  | none => 0

def EntryOk (depth : Nat) (e : PageEntry) : Prop :=
  present e = true → BitsWithin e 0 52 ∧ ∀ b, pageLink depth e = some b → IsPage b ∧ e = linkEntry b

-- The tables form a tree of pages alloc_page_table has given out.
structure Pager.Tree (p : Pager) (pml4 : PhysAddr) : Prop where
  table : p.table = some pml4
  separated : Separated pageLink p.entries pml4
  known : ∀ a, Reached pageLink p.entries pml4 a → a ∈ p.tables
  sound : ∀ path a i, follow pageLink p.entries 0 pml4 path = some a →
    EntryOk path.length (p.entries a i)

theorem pageLink_none_of_not_present {d : Nat} {e : PageEntry} (h : present e = false) :
    pageLink d e = none := by
  simp [pageLink, h]

theorem pageLink_linkEntry {d : Nat} {b : PhysAddr} (hd : d < 3) (hb : IsPage b) :
    pageLink d (linkEntry b) = some b := by
  simp [pageLink, hd, hb.not_huge, hb.frameAddr_linkEntry]

theorem entryOk_of_not_present {d : Nat} {e : PageEntry} (h : present e = false) :
    EntryOk d e := by
  intro hp
  simp [h] at hp

theorem entryOk_linkEntry {d : Nat} {b : PhysAddr} (hd : d < 3) (hb : IsPage b) :
    EntryOk d (linkEntry b) := by
  refine fun _ => ⟨hb.bitsWithin_linkEntry, fun c hc => ?_⟩
  rw [pageLink_linkEntry hd hb] at hc
  cases hc
  exact ⟨hb, rfl⟩

-- A zeroed page is handed out for a table.
def Pager.newTable (p : Pager) (b : PhysAddr) : Pager :=
  { p.zero b with tables := b :: p.tables }

-- A new table is linked below the entry `i` of the table at `a`.
def Pager.linkTable (p : Pager) (a : PhysAddr) (i : Index) (b : PhysAddr) : Pager :=
  (p.newTable b).writeLink a i b

@[simp] theorem linkTable_entries (p : Pager) (a : PhysAddr) (i : Index) (b : PhysAddr) :
    (p.linkTable a i b).entries = put (fill p.entries b 0) a i (linkEntry b) := rfl

@[simp] theorem write_entries (p : Pager) (a : PhysAddr) (i : Index) (e : PageEntry) :
    (p.write a i e).entries = put p.entries a i e := rfl

namespace Pager.Tree

variable {p : Pager} {pml4 a b : PhysAddr} {i : Index} {path : List Index} {e : PageEntry}

theorem slot_eq (h : p.Tree pml4) (hpath : follow pageLink p.entries 0 pml4 path = some a)
    (i : Index) : p.slot path i = p.entries a i := by
  simp [Pager.slot, h.table, hpath]

theorem walk_eq (h : p.Tree pml4) (virt : BitVec 64) :
    p.walk virt =
      if ((trail pageLink p.entries 0 pml4 (walkPath virt)).getLast?).any present then
        some (trail pageLink p.entries 0 pml4 (walkPath virt)) else none := by
  simp [Pager.walk, h.table]

theorem slot_none (h : p.Tree pml4) (hpath : follow pageLink p.entries 0 pml4 path = none)
    (i : Index) : p.slot path i = 0 := by
  simp [Pager.slot, h.table, hpath]

-- The entries on the way to a table lead to tables.
theorem trail_links (h : p.Tree pml4)
    (hpath : follow pageLink p.entries 0 pml4 path = some a) :
    (trail pageLink p.entries 0 pml4 path).length = path.length ∧
      ∀ e ∈ trail pageLink p.entries 0 pml4 path, ∃ b, IsPage b ∧ e = linkEntry b := by
  induction path using List.reverseRecOn generalizing a with
  | nil => simp
  | append_singleton path i ih =>
      rw [follow_snoc, Option.bind_eq_some_iff] at hpath
      obtain ⟨c, hc, hlink⟩ := hpath
      obtain ⟨hlen, hlinks⟩ := ih hc
      rw [Nat.zero_add] at hlink
      have hpresent : present (p.entries c i) = true := by
        by_contra hne
        rw [pageLink_none_of_not_present (by simpa using hne)] at hlink
        cases hlink
      rw [trail_append hc]
      simp only [trail, Nat.zero_add, hlink, List.length_append, List.length_singleton, hlen,
        List.mem_append, List.mem_singleton, true_and]
      rintro e (he | rfl)
      · exact hlinks e he
      · exact ⟨a, (h.sound path c i hc hpresent).2 a hlink⟩

-- What the code takes for the next table is the one the walk goes to.
theorem follow_next (h : p.Tree pml4) (hpath : follow pageLink p.entries 0 pml4 path = some a)
    (hlen : path.length < 3) (hpresent : present (p.entries a i) = true)
    (hsmall : path.length = 2 → huge (p.entries a i) = false) :
    follow pageLink p.entries 0 pml4 (path ++ [i]) = some (pageAddr (p.entries a i)) := by
  have hbits := (h.sound path a i hpath hpresent).1
  rw [follow_snoc, hpath, Option.bind_some, Nat.zero_add, pageAddr_eq_frameAddr hbits]
  have hnot : ¬ (path.length = 2 ∧ huge (p.entries a i) = true) := by
    rintro ⟨h2, hhuge⟩
    simp [hsmall h2] at hhuge
  simp [pageLink, hpresent, hlen, hnot]

-- A walk through an entry that leads nowhere ends there.
theorem walk_end (h : p.Tree pml4) (hpath : follow pageLink p.entries 0 pml4 path = some a)
    (hend : pageLink path.length (p.entries a i) = none) {virt : BitVec 64}
    (hvirt : path ++ [i] <+: walkPath virt) :
    p.walk virt = if present (p.entries a i) then
      some (trail pageLink p.entries 0 pml4 path ++ [p.entries a i]) else none := by
  obtain ⟨rest, hrest⟩ := hvirt
  rw [List.append_assoc, List.singleton_append] at hrest
  rw [h.walk_eq, ← hrest, trail_append hpath]
  simp [trail, hend]

-- The same through the entry at a slot.
theorem walk_slot (h : p.Tree pml4) (hslot : p.slot path i ≠ 0)
    (hend : pageLink path.length (p.slot path i) = none) {virt : BitVec 64}
    (hvirt : path ++ [i] <+: walkPath virt) :
    ∃ links, links.length = path.length ∧ (∀ l ∈ links, ∃ b, IsPage b ∧ l = linkEntry b) ∧
      p.walk virt = if present (p.slot path i) then some (links ++ [p.slot path i]) else none := by
  cases hpath : follow pageLink p.entries 0 pml4 path with
  | none => exact absurd (h.slot_none hpath i) hslot
  | some a =>
      rw [h.slot_eq hpath] at hend ⊢
      obtain ⟨hlen, hlinks⟩ := h.trail_links hpath
      exact ⟨_, hlen, hlinks, h.walk_end hpath hend hvirt⟩

end Pager.Tree

-- The table at `a`, at the end of `path`, can have a new table at `b` linked
-- below its entry `i`.
structure Pager.CanLink (p : Pager) (pml4 : PhysAddr) (path : List Index) (a : PhysAddr)
    (i : Index) (b : PhysAddr) : Prop where
  tree : p.Tree pml4
  reached : follow pageLink p.entries 0 pml4 path = some a
  short : path.length < 3
  vacant : present (p.entries a i) = false
  page : IsPage b
  fresh : b ∉ p.tables

namespace Pager.CanLink

variable {p : Pager} {pml4 a b : PhysAddr} {i : Index} {path : List Index}
  (h : p.CanLink pml4 path a i b)

include h

theorem unreached : ¬ Reached pageLink p.entries pml4 b := fun hr => h.fresh (h.tree.known b hr)

theorem ne : a ≠ b := by
  rintro rfl
  exact h.unreached ⟨path, h.reached⟩

-- Zeroing the new table changes no path.
theorem fill_eq (q : List Index) :
    trail pageLink (fill p.entries b 0) 0 pml4 q = trail pageLink p.entries 0 pml4 q ∧
      follow pageLink (fill p.entries b 0) 0 pml4 q = follow pageLink p.entries 0 pml4 q :=
  fill_unreached h.unreached

theorem fill_reached : follow pageLink (fill p.entries b 0) 0 pml4 path = some a :=
  (h.fill_eq path).2.trans h.reached

theorem fill_separated : Separated pageLink (fill p.entries b 0) pml4 := by
  intro q r c hq hr
  rw [(h.fill_eq q).2] at hq
  rw [(h.fill_eq r).2] at hr
  exact h.tree.separated q r c hq hr

theorem fill_unreached : ¬ Reached pageLink (fill p.entries b 0) pml4 b := by
  rintro ⟨q, hq⟩
  rw [(h.fill_eq q).2] at hq
  exact h.unreached ⟨q, hq⟩

theorem fill_vacant : pageLink path.length (fill p.entries b 0 a i) = none := by
  rw [fill_other _ _ _ h.ne]
  exact pageLink_none_of_not_present h.vacant

omit h in
theorem fill_empty (p : Pager) (b : PhysAddr) (d : Nat) (j : Index) :
    pageLink d (fill p.entries b 0 b j) = none := by
  rw [fill_same]
  exact pageLink_none_of_not_present present_zero

theorem follow_iff (q : List Index) (c : PhysAddr) :
    follow pageLink (p.linkTable a i b).entries 0 pml4 q = some c ↔
      (q = path ++ [i] ∧ c = b) ∨ follow pageLink p.entries 0 pml4 q = some c := by
  rw [← (h.fill_eq q).2]
  exact h.fill_separated.put_link h.fill_reached h.fill_vacant
    (pageLink_linkEntry h.short h.page) h.fill_unreached (fill_empty p b _)

-- The entries of a table that is not new.
theorem entries_eq {c : PhysAddr} (hc : Reached pageLink p.entries pml4 c) (j : Index)
    (hne : ¬ (c = a ∧ j = i)) : (p.linkTable a i b).entries c j = p.entries c j := by
  have hcb : c ≠ b := by
    rintro rfl
    exact h.unreached hc
  rw [linkTable_entries, put_other _ _ _ _ hne, fill_other _ _ _ hcb]

theorem entries_new (j : Index) : (p.linkTable a i b).entries b j = 0 := by
  rw [linkTable_entries, put_other _ _ _ _ fun hb => h.ne hb.1.symm, fill_same]

theorem linked : follow pageLink (p.linkTable a i b).entries 0 pml4 (path ++ [i]) = some b :=
  (h.follow_iff _ _).mpr (.inl ⟨rfl, rfl⟩)

theorem linkTable : (p.linkTable a i b).Tree pml4 := by
  refine ⟨h.tree.table, ?_, ?_, ?_⟩
  · exact h.fill_separated.put_link_separated h.fill_reached h.fill_vacant
      (pageLink_linkEntry h.short h.page) h.fill_unreached (fill_empty p b _)
  · rintro c ⟨q, hq⟩
    rcases (h.follow_iff q c).mp hq with ⟨-, rfl⟩ | hq
    · exact List.mem_cons_self
    · exact List.mem_cons_of_mem _ (h.tree.known c ⟨q, hq⟩)
  · intro q c j hq
    rcases (h.follow_iff q c).mp hq with ⟨-, rfl⟩ | hq'
    · rw [h.entries_new]
      exact entryOk_of_not_present present_zero
    · by_cases hne : c = a ∧ j = i
      · obtain ⟨rfl, rfl⟩ := hne
        rw [h.tree.separated q path c hq' h.reached, linkTable_entries, put_same]
        exact entryOk_linkEntry h.short h.page
      · rw [h.entries_eq ⟨q, hq'⟩ j hne]
        exact h.tree.sound q c j hq'

-- No walk changes: where the new table is met nothing was mapped before, and
-- nothing is mapped in it.
theorem walk_eq (virt : BitVec 64) : (p.linkTable a i b).walk virt = p.walk virt := by
  by_cases hvirt : path ++ [i] <+: walkPath virt
  · rw [h.tree.walk_end h.reached (pageLink_none_of_not_present h.vacant) hvirt, h.vacant]
    obtain ⟨rest, hrest⟩ := hvirt
    obtain ⟨j, rest, rfl⟩ : ∃ j rest', rest = j :: rest' := by
      have hlength := congrArg List.length hrest
      have hshort := h.short
      cases rest with
      | nil =>
          simp [walkPath] at hlength
          omega
      | cons j rest' => exact ⟨j, rest', rfl⟩
    rw [List.append_assoc, List.singleton_append] at hrest
    rw [h.linkTable.walk_eq, ← hrest, linkTable_entries, h.fill_separated.put_link_trail
      h.fill_reached (pageLink_linkEntry h.short h.page) h.fill_unreached (fill_empty p b _) j,
      fill_same]
    have hzero (met : List PageEntry) :
        ((met ++ [linkEntry b, 0]).getLast?).any present = false := by
      rw [List.getLast?_append, List.getLast?_cons_cons, List.getLast?_singleton]
      exact present_zero
    rw [hzero]
    rfl
  · rw [h.tree.walk_eq, h.linkTable.walk_eq, linkTable_entries,
      (h.fill_separated.put_other h.fill_reached hvirt).1, (h.fill_eq _).1]

-- The entry that got the link is the only one that differs.
theorem slot_eq (q : List Index) (j : Index) (hne : ¬ (q = path ∧ j = i)) :
    (p.linkTable a i b).slot q j = p.slot q j := by
  cases hq : follow pageLink p.entries 0 pml4 q with
  | some c =>
      rw [h.tree.slot_eq hq, h.linkTable.slot_eq ((h.follow_iff q c).mpr (.inr hq))]
      refine h.entries_eq ⟨q, hq⟩ j ?_
      rintro ⟨rfl, rfl⟩
      exact hne ⟨h.tree.separated q path c hq h.reached, rfl⟩
  | none =>
      rw [h.tree.slot_none hq]
      cases hq' : follow pageLink (p.linkTable a i b).entries 0 pml4 q with
      | none => exact h.linkTable.slot_none hq' j
      | some c =>
          rcases (h.follow_iff q c).mp hq' with ⟨-, rfl⟩ | hsome
          · rw [h.linkTable.slot_eq hq', h.entries_new]
          · rw [hq] at hsome
            cases hsome

theorem slot_self : (p.linkTable a i b).slot path i = linkEntry b := by
  have hpath := (h.follow_iff path a).mpr (.inr h.reached)
  rw [h.linkTable.slot_eq hpath, linkTable_entries, put_same]

end Pager.CanLink

-- The entry `i` of the table at `a`, at the end of `path`, can become `e`,
-- which leads to no table.
structure Pager.CanWrite (p : Pager) (pml4 : PhysAddr) (path : List Index) (a : PhysAddr)
    (e : PageEntry) : Prop where
  tree : p.Tree pml4
  reached : follow pageLink p.entries 0 pml4 path = some a
  ends : pageLink path.length e = none
  bits : present e = true → BitsWithin e 0 52

namespace Pager.CanWrite

variable {p : Pager} {pml4 a : PhysAddr} {path : List Index} {e : PageEntry}
  (h : p.CanWrite pml4 path a e)

include h

theorem follow_old {i : Index} {q : List Index} {c : PhysAddr}
    (hq : follow pageLink (p.write a i e).entries 0 pml4 q = some c) :
    follow pageLink p.entries 0 pml4 q = some c := by
  by_cases hpre : path ++ [i] <+: q
  · obtain ⟨rest, rfl⟩ := hpre
    rw [write_entries, List.append_assoc, List.singleton_append,
      (h.tree.separated.put_end h.reached h.ends).1] at hq
    cases hq
  · rw [write_entries, (h.tree.separated.put_other h.reached hpre).2] at hq
    exact hq

theorem write (i : Index) : (p.write a i e).Tree pml4 := by
  refine ⟨h.tree.table, h.tree.separated.put_end_separated h.reached h.ends, ?_, ?_⟩
  · rintro c ⟨q, hq⟩
    exact h.tree.known c ⟨q, h.follow_old hq⟩
  · intro q c j hq
    by_cases hne : c = a ∧ j = i
    · obtain ⟨rfl, rfl⟩ := hne
      rw [h.tree.separated q path c (h.follow_old hq) h.reached, write_entries, put_same]
      refine fun hp => ⟨h.bits hp, fun b hb => ?_⟩
      rw [h.ends] at hb
      cases hb
    · rw [write_entries, put_other _ _ _ _ hne]
      exact h.tree.sound q c j (h.follow_old hq)

theorem walk_other {i : Index} {virt : BitVec 64} (hvirt : ¬ path ++ [i] <+: walkPath virt) :
    (p.write a i e).walk virt = p.walk virt := by
  rw [(h.write i).walk_eq, h.tree.walk_eq, write_entries,
    (h.tree.separated.put_other h.reached hvirt).1]

theorem walk_through {i : Index} {virt : BitVec 64} (hvirt : path ++ [i] <+: walkPath virt) :
    (p.write a i e).walk virt = if present e then
      some (trail pageLink p.entries 0 pml4 path ++ [e]) else none := by
  have hsame := h.tree.separated.put_other (e := e) h.reached (not_prefix_of_snoc path i)
  have hentry : (p.write a i e).entries a i = e := put_same _ _ _ _
  have hend : pageLink path.length ((p.write a i e).entries a i) = none := by
    rw [hentry]
    exact h.ends
  rw [(h.write i).walk_end (hsame.2.trans h.reached) hend hvirt, hentry]
  exact congrArg (fun met => if present e then some (met ++ [e]) else none) hsame.1

-- Over an entry that led to no table no path is lost either.
theorem follow_eq {i : Index} (hold : pageLink path.length (p.entries a i) = none)
    (q : List Index) : follow pageLink (p.write a i e).entries 0 pml4 q =
      follow pageLink p.entries 0 pml4 q := by
  by_cases hpre : path ++ [i] <+: q
  · obtain ⟨rest, rfl⟩ := hpre
    have hnone : follow pageLink p.entries 0 pml4 (path ++ [i]) = none := by
      rw [follow_snoc, h.reached, Option.bind_some, Nat.zero_add, hold]
    have hold' : follow pageLink p.entries 0 pml4 (path ++ [i] ++ rest) = none := by
      rw [follow_append, hnone]
      rfl
    rw [hold', write_entries, List.append_assoc, List.singleton_append,
      (h.tree.separated.put_end h.reached h.ends).1]
  · rw [write_entries, (h.tree.separated.put_other h.reached hpre).2]

theorem slot_other {i : Index} (hold : pageLink path.length (p.entries a i) = none)
    (q : List Index) (j : Index) (hne : ¬ (q = path ∧ j = i)) :
    (p.write a i e).slot q j = p.slot q j := by
  have hfollow := h.follow_eq hold q
  cases hq : follow pageLink p.entries 0 pml4 q with
  | none => rw [h.tree.slot_none hq, (h.write i).slot_none (hfollow.trans hq)]
  | some c =>
      rw [h.tree.slot_eq hq, (h.write i).slot_eq (hfollow.trans hq), write_entries]
      refine put_other _ _ _ _ ?_
      rintro ⟨rfl, rfl⟩
      exact hne ⟨h.tree.separated q path c hq h.reached, rfl⟩

end Pager.CanWrite

end AosKernel.Mm
