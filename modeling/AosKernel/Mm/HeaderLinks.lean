import AosKernel.Lib.DoublyLinked
import AosKernel.Lib.Trace
import AosKernel.Mm.RegionHeader

namespace AosKernel.Mm

open Verif

namespace HeaderRegion

def modify (r : HeaderRegion) (a : Nat) (f : Header → Header) : HeaderRegion :=
  { r with headers := Function.update r.headers a (f (r.headers a)) }

def setList (r : HeaderRegion) (k : ListKind) (l : HeaderList) : HeaderRegion :=
  { r with lists := Function.update r.lists k l }

section Stores

variable {r : HeaderRegion} {a b : Nat}

@[simp] theorem modify_lists (f : Header → Header) : (r.modify a f).lists = r.lists := rfl

@[simp] theorem setList_headers (k : ListKind) (x : HeaderList) :
    (r.setList k x).headers = r.headers := rfl

theorem headers_modify_of_ne (f : Header → Header) (hb : b ≠ a) :
    (r.modify a f).headers b = r.headers b := by
  simp only [modify, Function.update_of_ne hb]

theorem headers_modify_self (f : Header → Header) :
    (r.modify a f).headers a = f (r.headers a) := by
  simp only [modify, Function.update_self]

end Stores

def Poisoned (r : HeaderRegion) (a : Option Nat) : Prop := ∃ b ∈ a, ¬ (r.headers b).Intact

instance (r : HeaderRegion) (a : Option Nat) : Decidable (r.Poisoned a) := by
  unfold Poisoned; infer_instance

-- `if (n)`: the child gets the parent of the header, or is given up.
def unlinkChild (r : HeaderRegion) (n p : Option Nat) : HeaderRegion :=
  match n with
  | none => r
  | some a =>
      if r.Poisoned n then r.modify a fun x => { x with type := .corrupt }
      else r.modify a fun x => { x with parent := p }

-- `if (p)`: the parent gets the child `n`, which is NULL where it was given up.
def unlinkParent (r : HeaderRegion) (n p : Option Nat) : HeaderRegion :=
  match p with
  | none => r
  | some a =>
      if ¬ r.Poisoned p then r.modify a fun x => { x with next := n }
      else match n with
        | none => r
        | some b =>
            (r.modify b fun x => { x with parent := none }).modify a
              fun x => { x with type := .corrupt }

-- The end is taken back, else the head moved on; a list of one header keeps
-- its head.
def dropEnd (r : HeaderRegion) (k : ListKind) (h : Nat) : HeaderRegion :=
  let l := r.lists k
  let l' :=
    if l.listEnd = some h then { l with listEnd := (r.headers h).parent }
    else if l.list = some h then { l with list := (r.headers h).next }
    else l
  (r.setList k { l' with count := l.count - 1 }).modify h
    fun x => { x with next := none, parent := none }

def avmfUnlinkHeader (r : HeaderRegion) (h : Nat) : HeaderRegion :=
  if r.Rejected then r
  else match (r.headers h).type.kind with
    | none => r
    | some k =>
        if (r.lists k).count = 0 then r.modify h fun x => { x with type := .corrupt }
        else
          let n := (r.headers h).next
          let p := (r.headers h).parent
          let r' := r.unlinkChild n p
          let r'' := r'.unlinkParent (if r.Poisoned n then none else n) p
          if r.Poisoned n ∨ r'.Poisoned p then r''.modify h fun x => { x with type := .corrupt }
          else r''.dropEnd k h

-- `reset_list`
def resetList (r : HeaderRegion) (k : ListKind) (h : Nat) : HeaderRegion :=
  r.setList k ⟨some h, 1, some h⟩

-- `h` goes behind `c`, and the list gets the count.
def linkBehind (r : HeaderRegion) (k : ListKind) (c h count : Nat) : HeaderRegion :=
  let r' := (r.modify c fun x => { x with next := some h }).modify h
    fun x => { x with parent := some c }
  r'.setList k { r'.lists k with count := count }

-- `reset_list_from_this_point`: the list ends at `p` from now on.
def resetListFrom (r : HeaderRegion) (k : ListKind) (h i : Nat) (p : Option Nat) : HeaderRegion :=
  if i = 0 then r.resetList k h
  else match p with
    | none => r.resetList k h
    | some p => r.linkBehind k p h i

-- The loop at `no_proper_end` that looks for the last header of the list, `c`
-- being the i-th one. A corrupt header is passed by where the next one is of the
-- list.
def findProperEnd (k : ListKind) (h : Nat) :
    Nat → Nat → Option Nat → Nat → HeaderRegion → HeaderRegion
  | 0, _, _, _, r => r
  | m + 1, i, p, c, r =>
      let n := (r.headers c).next
      let passBy (r : HeaderRegion) : HeaderRegion :=
        match n with
        | none => r.resetListFrom k h i p
        | some n =>
            if (r.headers n).type ≠ k.type then r.resetListFrom k h i p
            else findProperEnd k h m (i + 1) p n r
      if ¬ (r.headers c).Intact then passBy (r.avmfUnlinkHeader c)
      else if (r.headers c).type = .corrupt then passBy r
      else match n with
        | none => r.linkBehind k c h ((r.lists k).count + 1)
        | some n => findProperEnd k h m (i + 1) (some c) n r

-- `no_proper_end`
def noProperEnd (r : HeaderRegion) (k : ListKind) (h : Nat) : HeaderRegion :=
  let l := r.lists k
  let r' := r.setList k { l with listEnd := some h }
  match l.list with
  | none => r'
  | some c => findProperEnd k h l.count 0 none c r'

def avmfLinkHeader (r : HeaderRegion) (h : Nat) : Bool × HeaderRegion :=
  if r.Rejected then (false, r)
  else
    let r := r.modify h fun x => { x with next := none, parent := none }
    match (r.headers h).type.kind with
    | none => (false, r)
    | some k =>
        let l := r.lists k
        if l.count < 1 ∨ l.list = none then (true, r.resetList k h)
        else match l.listEnd with
          | none => (true, r.noProperEnd k h)
          | some c =>
              if ¬ (r.headers c).Intact ∨ (r.headers c).type = .corrupt then
                (true, r.noProperEnd k h)
              -- The end of the list stays where it was.
              else (true, r.linkBehind k c h (l.count + 1))

end HeaderRegion

end AosKernel.Mm
