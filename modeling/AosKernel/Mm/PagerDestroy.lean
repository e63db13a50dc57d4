import AosKernel.Lib.Below
import AosKernel.Mm.PhysRegions

namespace AosKernel.Mm

open Verif Verif.Exec Verif.Span Verif.Radix

-- The pages of the tables, given back one after the other.
def Avmf.giveBackAll (a : Avmf) (tables : List PhysAddr) : Avmf :=
  tables.foldl (fun a table => a.giveBack (table.toNat / PAGE_SIZE)) a

theorem giveBackAll_append (a : Avmf) (l l' : List PhysAddr) :
    a.giveBackAll (l ++ l') = (a.giveBackAll l).giveBackAll l' :=
  List.foldl_append

theorem giveBackAll_valid {a : Avmf} (h : PhysRegionsValid a) (tables : List PhysAddr) :
    PhysRegionsValid (a.giveBackAll tables) := by
  induction tables generalizing a with
  | nil => exact h
  | cons table rest ih => exact ih (giveBack_valid h _)

-- From `s` to `t` the pages of `tables` have been given back, and entries have
-- changed in the tables of `changed` at most.
structure Destroyed (tables : List PhysAddr) (changed : PhysAddr → Prop) (s t : KernelState) :
    Prop where
  avmf : t.avmf = s.avmf.giveBackAll tables
  held : t.held = s.held
  rest : t.rest = { s.rest with entries := t.rest.entries, writes := t.rest.writes }
  entries : ∀ a, ¬ changed a → t.rest.entries a = s.rest.entries a

namespace Destroyed

variable {l l' : List PhysAddr} {changed changed' : PhysAddr → Prop} {s t u : KernelState}

theorem refl (s : KernelState) : Destroyed [] changed s s :=
  ⟨rfl, rfl, rfl, fun _ _ => rfl⟩

theorem trans (h : Destroyed l changed s t) (h' : Destroyed l' changed t u) :
    Destroyed (l ++ l') changed s u where
  avmf := by rw [h'.avmf, h.avmf, giveBackAll_append]
  held := h'.held.trans h.held
  rest := by
    rw [h'.rest, h.rest]
  entries a ha := (h'.entries a ha).trans (h.entries a ha)

theorem mono (h : Destroyed l changed s t) (hle : ∀ a, changed a → changed' a) :
    Destroyed l changed' s t :=
  ⟨h.avmf, h.held, h.rest, fun a ha => h.entries a (mt (hle a) ha)⟩

end Destroyed

-- No lock is held, and pages can be given back.
structure Quiet (s : KernelState) : Prop where
  valid : PhysRegionsValid s.avmf
  held : s.held = []
  ready : s.rest.ready = true

theorem Quiet.destroyed {l : List PhysAddr} {changed : PhysAddr → Prop} {s t : KernelState}
    (hs : Quiet s) (h : Destroyed l changed s t) : Quiet t where
  valid := h.avmf ▸ giveBackAll_valid hs.valid l
  held := h.held.trans hs.held
  ready := by
    rw [h.rest]
    exact hs.ready

-- Below the table at `a` the tables form a tree, and the code goes down it.
structure Subtree (m : Store PhysAddr Index PageEntry) (d : Nat) (a : PhysAddr) : Prop where
  separated : SeparatedFrom pageLink m d a
  addr : ∀ path b i c, follow pageLink m d a path = some b →
    pageLink (d + path.length) (m b i) = some c → pageAddr (m b i) = c

theorem Subtree.child {m : Store PhysAddr Index PageEntry} {d : Nat} {a b : PhysAddr} {i : Index}
    (h : Subtree m d a) (hb : pageLink d (m a i) = some b) : Subtree m (d + 1) b := by
  refine ⟨h.separated.child hb, fun path c j e hc he => h.addr (i :: path) c j e ?_ ?_⟩
  · rw [follow, hb, Option.bind_some, hc]
  · rwa [List.length_cons, Nat.add_comm path.length, ← Nat.add_assoc]

section Run

-- The tables as they were when the run began, which is where it looks at them.
variable {m : Store PhysAddr Index PageEntry} {d n : Nat} {a : PhysAddr} {s : KernelState}

end Run

end AosKernel.Mm
