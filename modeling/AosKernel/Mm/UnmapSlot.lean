import AosKernel.Mm.PagerFailure

namespace AosKernel.Mm

open Verif Verif.Radix Exec

-- An entry of a page table: the table and the index.
abbrev Slot := PhysAddr × Index

def TableWrite.changes (w : TableWrite) (slot : Slot) : Bool :=
  match w with
  | .zero table => table == slot.1
  | .link table i _ | .leaf table i _ => table == slot.1 && i == slot.2

-- How often an entry has been written.
def Pager.version (p : Pager) (slot : Slot) : Nat := p.writes.countP (TableWrite.changes · slot)

def Pager.unmapSlotFrom (p : Pager) (virt : BitVec 64) (pml4 : PhysAddr) : Option Slot :=
  let e := p.entries pml4 (idxPml4 virt)
  if present e then
    let pdpt := pageAddr e
    let e := p.entries pdpt (idxPdpt virt)
    if present e then
      let pd := pageAddr e
      let e := p.entries pd (idxPd virt)
      if huge e then some (pd, idxPd virt)
      else if present e then some (pageAddr e, idxPt virt)
      else none
    else none
  else none

-- The entry that pager_unmap takes PAGE_PRESENT from.
def Pager.unmapSlot (p : Pager) (virt : BitVec 64) : Option Slot :=
  if p.loaded then p.table.bind (p.unmapSlotFrom virt) else none

def Pager.clear (p : Pager) (slot : Slot) : Pager :=
  p.write slot.1 slot.2 (p.entries slot.1 slot.2 &&& ~~~ PAGE_PRESENT)

-- The entry where the walk of the processor ends, and whether it maps 2 MiB.
def Pager.walkEnd (p : Pager) (virt : BitVec 64) : Option (Slot × Bool) := do
  let pml4 ← p.table
  let met ← p.walk virt
  let a ← follow pageLink p.entries 0 pml4 ((walkPath virt).take (met.length - 1))
  let i ← (walkPath virt)[met.length - 1]?
  return ((a, i), met.length == 3)

theorem unmapFrom_unmapSlot (s : KernelState) (pml4 : PhysAddr) (virt : BitVec 64) :
    Sat (unmapFrom pml4 virt) s
      (fun _ t => t.rest = (s.rest.unmapSlotFrom virt pml4).elim s.rest s.rest.clear)
      fun _ => True := by
  unfold unmapFrom Pager.unmapSlotFrom
  rw [sat_bind, sat_readEntry]
  refine Sat.ite (fun h4 => ?_) fun h4 => ?_
  · rw [if_pos h4, sat_bind, sat_readEntry]
    refine Sat.ite (fun h3 => ?_) fun h3 => ?_
    · rw [if_pos h3, sat_bind, sat_readEntry]
      refine Sat.ite (fun hhuge => ?_) fun hsmall => ?_
      · rw [if_pos hhuge]
        rfl
      · rw [if_neg hsmall]
        refine Sat.ite (fun h2 => ?_) fun h2 => ?_
        · rw [if_pos h2, sat_bind, sat_readEntry]
          rfl
        · rw [if_neg h2]
          rfl
    · rw [if_neg h3]
      rfl
  · rw [if_neg h4]
    rfl

theorem pagerUnmap_unmapSlot {virt : BitVec 64} {s t : KernelState}
    (h : Returns (pagerUnmap virt) s () t) :
    t.rest = (s.rest.unmapSlot virt).elim s.rest s.rest.clear := by
  have hsat : Sat (pagerUnmap virt) s
      (fun _ t => t.rest = (s.rest.unmapSlot virt).elim s.rest s.rest.clear) fun _ => True := by
    unfold pagerUnmap Pager.unmapSlot
    rw [sat_bind, sat_get]
    refine Sat.ite (fun hloaded => ?_) fun hloaded => ?_
    · rw [if_pos hloaded, sat_bind, sat_spinLock]
      refine ⟨fun _ => trivial, fun _ => ?_⟩
      cases hpml4 : s.rest.table with
      | none => exact trivial
      | some pml4 =>
          rw [sat_bind]
          exact (unmapFrom_unmapSlot { s with held := .pml4 :: s.held } pml4 virt).imp
            fun _ t ht => ht
    · rw [if_neg hloaded]
      rfl
  exact hsat.of_returns h

theorem Pager.version_clear (p : Pager) (slot slot' : Slot) :
    (p.clear slot).version slot' = p.version slot' + if slot = slot' then 1 else 0 := by
  obtain ⟨a, i⟩ := slot
  obtain ⟨b, j⟩ := slot'
  simp [Pager.clear, Pager.write, Pager.version, List.countP_cons, TableWrite.changes]

theorem History.version_le {p q : Pager} (h : History p q) (slot : Slot) :
    p.version slot ≤ q.version slot :=
  h.writes.sublist.countP_le

end AosKernel.Mm
