import Mathlib.Data.List.Nodup
import AosKernel.Lib.Links
import AosKernel.Mm.FreeListOrder
import AosKernel.Mm.RegionHeader

namespace AosKernel.Mm

open Verif

namespace FreeRegion

-- The loop of avmf_free_list_append: `prev` and `cur` where it ends, `none`
-- where it returns AOS_FALSE.
def findSlot (ranges : Nat → RangeNode) (x : RangeNode) :
    Nat → Option Nat → Option Nat → Option (Option Nat × Option Nat)
  | 0, prev, cur => some (prev, cur)
  | _ + 1, _, none => none
  | n + 1, prev, some c =>
      let node := ranges c
      if node.base > UINT64_MAX - node.size then none
      else if x.base < node.base + node.size ∧ node.base < x.base + x.size then none
      else if x.base < node.base then some (prev, some c)
      else findSlot ranges x n (some c) node.next

-- `if (prev) prev->next = range; else r->free_list = range;`
def linkAfter (r : FreeRegion) (prev : Option Nat) (range : Nat) : FreeRegion :=
  match prev with
  | some p => { r with ranges := Function.update r.ranges p { r.ranges p with next := some range } }
  | none => { r with freeList := some range }

def setRange (r : FreeRegion) (a : Nat) (node : RangeNode) : FreeRegion :=
  { r with ranges := Function.update r.ranges a node }

-- The end moves to `a` where `cur` was the last node.
def moveEnd (r : FreeRegion) (cur a : Nat) : FreeRegion :=
  if r.freeListEnd = some cur then { r with freeListEnd := some a } else r

-- What happens between `prev` and `cur`.
def spliceAt (r : FreeRegion) (range : Nat) (prev cur : Option Nat) : FreeRegion :=
  let x := r.ranges range
  let mergePrev := prev.filter fun p =>
    (r.ranges p).base + (r.ranges p).size = x.base
  let mergeNext := cur.filter fun c => x.base + x.size = (r.ranges c).base
  match mergePrev, mergeNext with
  | some p, some c =>
      let node := r.ranges p
      let size := (node.size + x.size) % 2 ^ 64
      let r' := r.setRange p
        { node with size := (size + (r.ranges c).size) % 2 ^ 64, next := (r.ranges c).next }
      { r'.moveEnd c p with freeCount := r.freeCount - 1 }
  | some p, none =>
      let node := r.ranges p
      r.setRange p { node with size := (node.size + x.size) % 2 ^ 64 }
  | none, some c =>
      let r' := r.setRange range
        { x with size := (x.size + (r.ranges c).size) % 2 ^ 64, next := (r.ranges c).next }
      -- `range` takes the place of `cur`, but the count goes down.
      { (r'.linkAfter prev range).moveEnd c range with freeCount := r.freeCount - 1 }
  | none, none =>
      let r' := (r.setRange range { x with next := cur }).linkAfter prev range
      { r' with
        freeListEnd := if cur = none then some range else r.freeListEnd
        freeCount := r.freeCount + 1 }

-- avmf_free_list_append for a range node in memory.
def avmfFreeListAppend (r : FreeRegion) (range : Nat) : Bool × FreeRegion :=
  let x := r.ranges range
  if x.size = 0 then (false, r)
  else if r.Rejected then (false, r)
  else if x.base > UINT64_MAX - x.size then (false, r)
  else if r.freeList = none ∨ r.freeCount = 0 then
    (true, { r.setRange range { x with next := none } with
      freeList := some range
      freeListEnd := some range
      freeCount := 1 })
  else match findSlot r.ranges x r.freeCount none r.freeList with
    | none => (false, r)
    | some (prev, cur) => (true, r.spliceAt range prev cur)

def next (r : FreeRegion) (a : Nat) : Option Nat := (r.ranges a).next

-- The nodes from `start` to `stop` hold `list`.
structure Nodes (r : FreeRegion) (start : Option Nat) (list : List Range) (stop : Option Nat) :
    Prop where
  links : Links r.next start (list.map Range.addr) stop
  stored : ∀ f ∈ list, (r.ranges f.addr).base = f.base ∧ (r.ranges f.addr).size = f.size

-- The free list holds `list`, and its last node is the end.
structure Holds (r : FreeRegion) (list : List Range) : Prop where
  nodes : r.Nodes r.freeList list none
  last : r.freeListEnd = (list.map Range.addr).getLast?

-- The same with the right count.
structure Counted (r : FreeRegion) (list : List Range) : Prop extends r.Holds list where
  count : r.freeCount = list.length

-- The range that is in a node.
def rangeAt (r : FreeRegion) (a : Nat) : Range := ⟨a, (r.ranges a).base, (r.ranges a).size⟩

section Append

variable {r : FreeRegion} {range : Nat} {list before l rest : List Range}

-- The loop over the nodes is the one over the list.
theorem findSlot_eq (range : Nat) (before : List Range) (n : Nat) {x : RangeNode}
    {cur : Option Nat} (h : r.Nodes cur list none) :
    findSlot r.ranges x n (before.getLast?.map Range.addr) cur =
      (findFreeSlot ⟨range, x.base, x.size⟩ n before list).map fun s =>
        (s.1.getLast?.map Range.addr, s.2.head?.map Range.addr) := by
  obtain ⟨hlinks, hstored⟩ := h
  induction n generalizing before cur list with
  | zero =>
      cases list with
      | nil => rw [show cur = none from hlinks]; rfl
      | cons f list => rw [show cur = some f.addr from hlinks.1]; rfl
  | succ n ih =>
      cases list with
      | nil =>
          obtain rfl := hlinks
          rfl
      | cons f list =>
          obtain ⟨rfl, hnext⟩ := hlinks
          obtain ⟨hbase, hsize⟩ := hstored f List.mem_cons_self
          have ih' := ih (before ++ [f]) hnext fun g hg => hstored g (List.mem_cons_of_mem _ hg)
          rw [List.getLast?_concat, Option.map_some] at ih'
          have hrest : findSlot r.ranges x n (some f.addr) (r.ranges f.addr).next = _ := ih'
          rw [findFreeSlot, findSlot]
          simp only [hbase, hsize, hrest, apply_ite (Option.map _), Option.map_none,
            Option.map_some, List.head?_cons]

theorem Nodes.append_iff {start stop : Option Nat} :
    r.Nodes start (l ++ rest) stop ↔ ∃ mid, r.Nodes start l mid ∧ r.Nodes mid rest stop := by
  constructor
  · rintro ⟨hlinks, hstored⟩
    rw [List.map_append, Links.append_iff] at hlinks
    obtain ⟨mid, hl, hr⟩ := hlinks
    exact ⟨mid, ⟨hl, fun f hf => hstored f (List.mem_append_left _ hf)⟩,
      ⟨hr, fun f hf => hstored f (List.mem_append_right _ hf)⟩⟩
  · rintro ⟨mid, hl, hr⟩
    refine ⟨?_, List.forall_mem_append.mpr ⟨hl.stored, hr.stored⟩⟩
    rw [List.map_append]
    exact hl.links.append hr.links

theorem Nodes.cons_iff {f : Range} {start stop : Option Nat} :
    r.Nodes start (f :: l) stop ↔ start = some f.addr ∧
      ((r.ranges f.addr).base = f.base ∧ (r.ranges f.addr).size = f.size) ∧
        r.Nodes (r.next f.addr) l stop := by
  constructor
  · rintro ⟨⟨hstart, hlinks⟩, hstored⟩
    obtain ⟨hf, hl⟩ := List.forall_mem_cons.mp hstored
    exact ⟨hstart, hf, hlinks, hl⟩
  · rintro ⟨hstart, hf, hlinks, hl⟩
    exact ⟨⟨hstart, hlinks⟩, List.forall_mem_cons.mpr ⟨hf, hl⟩⟩

-- A list is held whatever happens to other nodes.
theorem Nodes.congr {r' : FreeRegion} {start stop : Option Nat} (h : r.Nodes start l stop)
    (hsame : ∀ f ∈ l, r'.ranges f.addr = r.ranges f.addr) : r'.Nodes start l stop := by
  refine ⟨h.links.congr fun a ha => ?_, fun f hf => hsame f hf ▸ h.stored f hf⟩
  obtain ⟨f, hf, rfl⟩ := List.mem_map.mp ha
  rw [next, next, hsame f hf]

theorem ranges_setRange_self (a : Nat) (node : RangeNode) :
    (r.setRange a node).ranges a = node := by
  simp only [setRange, Function.update_self]

theorem ranges_setRange_of_ne {a b : Nat} (node : RangeNode) (h : b ≠ a) :
    (r.setRange a node).ranges b = r.ranges b := by
  simp only [setRange, Function.update_of_ne h]

-- A node that is written, with what it leads to.
theorem Nodes.write {start mid stop : Option Nat} (f : Range) (node : RangeNode)
    (hl : r.Nodes start l (some f.addr)) (hr : r.Nodes mid rest stop)
    (hbase : node.base = f.base) (hsize : node.size = f.size) (hmid : node.next = mid)
    (hfl : ∀ g ∈ l, g.addr ≠ f.addr) (hfr : ∀ g ∈ rest, g.addr ≠ f.addr) :
    (r.setRange f.addr node).Nodes start (l ++ f :: rest) stop := by
  have hself := ranges_setRange_self (r := r) f.addr node
  have hl' : (r.setRange f.addr node).Nodes start l (some f.addr) :=
    hl.congr fun g hg => ranges_setRange_of_ne node (hfl g hg)
  have hr' : (r.setRange f.addr node).Nodes mid rest stop :=
    hr.congr fun g hg => ranges_setRange_of_ne node (hfr g hg)
  refine Nodes.append_iff.mpr ⟨_, hl', Nodes.cons_iff.mpr ⟨rfl, ?_, ?_⟩⟩
  · rw [hself]
    exact ⟨hbase, hsize⟩
  · rwa [next, hself, hmid]

theorem Nodes.nodup {start : Option Nat} (h : r.Nodes start l none) :
    (l.map Range.addr).Nodup :=
  h.links.nodup

-- Behind `l` the node `a` leads on.
theorem Nodes.link_after {start stop : Option Nat} {a : Nat} (hl : r.Nodes r.freeList l stop)
    (hr : r.Nodes start rest none) (hstart : start = some a)
    (hnodup : ((l ++ rest).map Range.addr).Nodup) :
    ((r.linkAfter (l.getLast?.map Range.addr) a)).Nodes
      (r.linkAfter (l.getLast?.map Range.addr) a).freeList (l ++ rest) none := by
  subst hstart
  cases hlast : l.getLast? with
  | none =>
      obtain rfl := List.getLast?_eq_none_iff.mp hlast
      exact hr.congr fun _ _ => rfl
  | some p =>
      obtain ⟨l', rfl⟩ := List.getLast?_eq_some_iff.mp hlast
      obtain ⟨mid, hl', hp⟩ := Nodes.append_iff.mp hl
      obtain ⟨rfl, hstored, -⟩ := Nodes.cons_iff.mp hp
      rw [List.append_assoc, List.map_append, List.singleton_append, List.map_cons] at hnodup
      obtain ⟨-, hright, hdisj⟩ := List.nodup_append.mp hnodup
      have hpr := (List.nodup_cons.mp hright).1
      rw [List.append_assoc, List.singleton_append]
      refine Nodes.write (r := r) p _ hl' hr hstored.1 hstored.2 rfl (fun g hg => ?_)
        fun g hg heq => ?_
      · exact hdisj g.addr (List.mem_map_of_mem hg) p.addr List.mem_cons_self
      · exact hpr (heq ▸ List.mem_map_of_mem hg)

-- The end stays the last node when `a` takes the place of `c`.
theorem moveEnd_last {c a : Nat} (front : List Nat) {front' back : List Nat}
    (hlast : r.freeListEnd = (front ++ c :: back).getLast?) (hnodup : (front ++ c :: back).Nodup) :
    (r.moveEnd c a).freeListEnd = (front' ++ a :: back).getLast? := by
  rw [List.getLast?_append_of_ne_nil _ (List.cons_ne_nil c back)] at hlast
  rw [List.getLast?_append_of_ne_nil _ (List.cons_ne_nil a back), moveEnd]
  cases back with
  | nil =>
      rw [if_pos (show r.freeListEnd = some c from hlast)]
      rfl
  | cons b back =>
      have hc : c ∉ b :: back := (List.nodup_cons.mp (List.nodup_append.mp hnodup).2.1).1
      rw [List.getLast?_cons_cons] at hlast ⊢
      rw [if_neg fun heq => hc (List.mem_of_getLast? (hlast.symm.trans heq)), hlast]

theorem Nodes.move_end {stop : Option Nat} (h : r.Nodes r.freeList l stop) (c a : Nat) :
    (r.moveEnd c a).Nodes (r.moveEnd c a).freeList l stop := by
  unfold moveEnd
  split
  · exact h.congr fun _ _ => rfl
  · exact h

-- What the nodes are merged with is what the ranges are.
theorem mergePrev_addr {start stop : Option Nat} (h : r.Nodes start l stop) :
    (l.getLast?.map Range.addr).filter
        (fun p => (r.ranges p).base + (r.ranges p).size = (r.ranges range).base) =
      (mergePrev l (r.rangeAt range)).map Range.addr := by
  rw [mergePrev]
  cases hlast : l.getLast? with
  | none => rfl
  | some p =>
      obtain ⟨hbase, hsize⟩ := h.stored p (List.mem_of_getLast? hlast)
      have hsame : decide ((r.ranges p.addr).base + (r.ranges p.addr).size = (r.ranges range).base) =
          decide (p.base + p.size = (r.rangeAt range).base) := by
        rw [hbase, hsize]
        rfl
      rw [Option.filter_map, Option.filter_some, Option.filter_some, Function.comp_apply, hsame]

theorem mergeNext_addr {start stop : Option Nat} (h : r.Nodes start rest stop) :
    (rest.head?.map Range.addr).filter
        (fun c => (r.ranges range).base + (r.ranges range).size = (r.ranges c).base) =
      (mergeNext (r.rangeAt range) rest).map Range.addr := by
  rw [mergeNext]
  cases rest with
  | nil => rfl
  | cons c rest =>
      obtain ⟨hbase, -⟩ := h.stored c List.mem_cons_self
      have hsame : decide ((r.ranges range).base + (r.ranges range).size = (r.ranges c.addr).base) =
          decide ((r.rangeAt range).base + (r.rangeAt range).size = c.base) := by
        rw [hbase]
        rfl
      rw [List.head?_cons, Option.filter_map, Option.filter_some, Option.filter_some,
        Function.comp_apply, hsame]

theorem linkAfter_end (prev : Option Nat) (a : Nat) :
    (r.linkAfter prev a).freeListEnd = r.freeListEnd := by
  cases prev <;> rfl

-- A node that is put in between.
theorem Nodes.insert (f : Range) (node : RangeNode) {mid stop : Option Nat}
    (hl : r.Nodes r.freeList l stop) (hr : r.Nodes mid rest none) (hbase : node.base = f.base)
    (hsize : node.size = f.size) (hmid : node.next = mid)
    (hnodup : ((l ++ f :: rest).map Range.addr).Nodup) :
    ((r.setRange f.addr node).linkAfter (l.getLast?.map Range.addr) f.addr).Nodes
      ((r.setRange f.addr node).linkAfter (l.getLast?.map Range.addr) f.addr).freeList
      (l ++ f :: rest) none := by
  have hparts := hnodup
  rw [List.map_append, List.map_cons] at hparts
  obtain ⟨-, hright, hdisj⟩ := List.nodup_append.mp hparts
  have hl' : (r.setRange f.addr node).Nodes r.freeList l stop :=
    hl.congr fun g hg => ranges_setRange_of_ne node
      (hdisj g.addr (List.mem_map_of_mem hg) f.addr List.mem_cons_self)
  have hr' : (r.setRange f.addr node).Nodes (some f.addr) ([] ++ f :: rest) none := by
    refine Nodes.write f node ⟨rfl, by simp⟩ hr hbase hsize hmid (by simp) fun g hg heq => ?_
    exact (List.nodup_cons.mp hright).1 (heq ▸ List.mem_map_of_mem hg)
  exact Nodes.link_after hl' hr' rfl hnodup

-- `range` is put between the two.
theorem spliceAt_neither (h : r.Holds (l ++ rest)) (hnew : range ∉ (l ++ rest).map Range.addr)
    (hprev : mergePrev l (r.rangeAt range) = none)
    (hnext : mergeNext (r.rangeAt range) rest = none) :
    (r.spliceAt range (l.getLast?.map Range.addr) (rest.head?.map Range.addr)).Holds
        (l ++ r.rangeAt range :: rest) ∧
      (r.spliceAt range (l.getLast?.map Range.addr) (rest.head?.map Range.addr)).freeCount =
        r.freeCount + 1 := by
  obtain ⟨mid, hl, hr⟩ := Nodes.append_iff.mp h.nodes
  have hmid : rest.head?.map Range.addr = mid := by
    cases rest with
    | nil => exact hr.links.symm
    | cons c rest => exact hr.links.1.symm
  have hnodup : ((l ++ r.rangeAt range :: rest).map Range.addr).Nodup := by
    rw [List.map_append, List.map_cons, List.nodup_middle, ← List.map_append]
    exact List.nodup_cons.mpr ⟨hnew, h.nodes.nodup⟩
  have hinsert := Nodes.insert (r.rangeAt range)
    { r.ranges range with next := rest.head?.map Range.addr } hl hr rfl rfl hmid hnodup
  unfold spliceAt
  simp only [mergePrev_addr hl, mergeNext_addr hr, hprev, hnext, Option.map_none]
  refine ⟨⟨hinsert.congr fun _ _ => rfl, ?_⟩, trivial⟩
  cases rest with
  | nil => simp [rangeAt]
  | cons c rest =>
      have hlast := h.last
      simp only [List.map_append, List.map_cons, List.getLast?_append_cons] at hlast ⊢
      rw [List.getLast?_cons_cons, ← hlast]
      rfl

-- `range` takes in what is above, and its place.
theorem spliceAt_above {c : Range} (h : r.Holds (l ++ c :: rest))
    (hnew : range ∉ (l ++ c :: rest).map Range.addr)
    (hprev : mergePrev l (r.rangeAt range) = none)
    (hc : (r.ranges range).base + (r.ranges range).size = c.base)
    (hsum : (r.ranges range).size + c.size < 2 ^ 64) :
    (r.spliceAt range (l.getLast?.map Range.addr) (some c.addr)).Holds
        (l ++ { r.rangeAt range with size := (r.rangeAt range).size + c.size } :: rest) ∧
      (r.spliceAt range (l.getLast?.map Range.addr) (some c.addr)).freeCount =
        r.freeCount - 1 := by
  obtain ⟨mid, hl, hr⟩ := Nodes.append_iff.mp h.nodes
  obtain ⟨rfl, ⟨hbase, hsize⟩, hr'⟩ := Nodes.cons_iff.mp hr
  have hnext : (some c.addr).filter
      (fun a => (r.ranges range).base + (r.ranges range).size = (r.ranges a).base) =
        some c.addr :=
    Option.filter_some_pos (decide_eq_true (hc.trans hbase.symm))
  have hold := h.nodes.nodup
  rw [List.map_append, List.map_cons] at hold hnew
  have hnodup : ((l ++ { r.rangeAt range with
      size := (r.rangeAt range).size + c.size } :: rest).map Range.addr).Nodup := by
    rw [List.map_append, List.map_cons, List.nodup_middle]
    rw [List.nodup_middle] at hold
    refine List.nodup_cons.mpr ⟨fun hmem => hnew ?_, (List.nodup_cons.mp hold).2⟩
    exact List.mem_append.mpr ((List.mem_append.mp hmem).imp_right (List.mem_cons_of_mem _))
  have hinsert := Nodes.insert
    { r.rangeAt range with size := (r.rangeAt range).size + c.size }
    { r.ranges range with
      size := ((r.ranges range).size + (r.ranges c.addr).size) % 2 ^ 64
      next := (r.ranges c.addr).next } hl hr' rfl
    (by rw [hsize]; exact Nat.mod_eq_of_lt hsum) rfl hnodup
  unfold spliceAt
  simp only [mergePrev_addr hl, hprev, hnext, Option.map_none]
  refine ⟨⟨?_, ?_⟩, trivial⟩
  · exact (hinsert.move_end c.addr range).congr fun _ _ => rfl
  · have hlast := h.last
    rw [List.map_append, List.map_cons] at hlast ⊢
    refine moveEnd_last (l.map Range.addr) ?_ hold
    rw [linkAfter_end]
    exact hlast

-- What is below grows by `range`.
theorem spliceAt_below {p : Range} (h : r.Holds (l ++ p :: rest))
    (hp : p.limit = (r.ranges range).base)
    (hnext : mergeNext (r.rangeAt range) rest = none)
    (hsum : p.size + (r.ranges range).size < 2 ^ 64) :
    (r.spliceAt range (some p.addr) (rest.head?.map Range.addr)).Holds
        (l ++ { p with size := p.size + (r.ranges range).size } :: rest) ∧
      (r.spliceAt range (some p.addr) (rest.head?.map Range.addr)).freeCount = r.freeCount := by
  obtain ⟨mid, hl, hr⟩ := Nodes.append_iff.mp h.nodes
  obtain ⟨rfl, ⟨hbase, hsize⟩, hr'⟩ := Nodes.cons_iff.mp hr
  have hprev : (some p.addr).filter
      (fun a => (r.ranges a).base + (r.ranges a).size = (r.ranges range).base) = some p.addr :=
    Option.filter_some_pos (decide_eq_true (by rw [hbase, hsize]; exact hp))
  have hnodup := h.nodes.nodup
  rw [List.map_append, List.map_cons] at hnodup
  obtain ⟨-, hright, hdisj⟩ := List.nodup_append.mp hnodup
  have hwrite := Nodes.write { p with size := p.size + (r.ranges range).size }
    { r.ranges p.addr with
      size := ((r.ranges p.addr).size + (r.ranges range).size) % 2 ^ 64 } hl hr' hbase
    (by rw [hsize]; exact Nat.mod_eq_of_lt hsum) rfl
    (fun g hg => hdisj g.addr (List.mem_map_of_mem hg) p.addr List.mem_cons_self)
    (fun g hg heq => (List.nodup_cons.mp hright).1 (heq ▸ List.mem_map_of_mem hg))
  unfold spliceAt
  simp only [hprev, mergeNext_addr hr', hnext, Option.map_none]
  refine ⟨⟨hwrite, ?_⟩, rfl⟩
  have hlast := h.last
  rw [List.map_append, List.map_cons] at hlast ⊢
  exact hlast

-- What is below takes in `range` and what is above.
theorem spliceAt_both {p c : Range} (h : r.Holds (l ++ p :: c :: rest))
    (hp : p.limit = (r.ranges range).base)
    (hc : (r.ranges range).base + (r.ranges range).size = c.base)
    (hsum : p.size + (r.ranges range).size + c.size < 2 ^ 64) :
    (r.spliceAt range (some p.addr) (some c.addr)).Holds
        (l ++ { p with size := p.size + (r.ranges range).size + c.size } :: rest) ∧
      (r.spliceAt range (some p.addr) (some c.addr)).freeCount = r.freeCount - 1 := by
  obtain ⟨mid, hl, hr⟩ := Nodes.append_iff.mp h.nodes
  obtain ⟨rfl, ⟨hbase, hsize⟩, hr'⟩ := Nodes.cons_iff.mp hr
  obtain ⟨hnext, ⟨hcbase, hcsize⟩, hrest⟩ := Nodes.cons_iff.mp hr'
  have hprev : (some p.addr).filter
      (fun a => (r.ranges a).base + (r.ranges a).size = (r.ranges range).base) = some p.addr :=
    Option.filter_some_pos (decide_eq_true (by rw [hbase, hsize]; exact hp))
  have hmerge : (some c.addr).filter
      (fun a => (r.ranges range).base + (r.ranges range).size = (r.ranges a).base) =
        some c.addr :=
    Option.filter_some_pos (decide_eq_true (hc.trans hcbase.symm))
  have hnodup := h.nodes.nodup
  rw [List.map_append, List.map_cons, List.map_cons] at hnodup
  obtain ⟨-, hright, hdisj⟩ := List.nodup_append.mp hnodup
  have hwrite := Nodes.write { p with size := p.size + (r.ranges range).size + c.size }
    { r.ranges p.addr with
      size := (((r.ranges p.addr).size + (r.ranges range).size) % 2 ^ 64 +
        (r.ranges c.addr).size) % 2 ^ 64
      next := (r.ranges c.addr).next } hl hrest hbase
    (by rw [hsize, hcsize, Nat.mod_add_mod]; exact Nat.mod_eq_of_lt hsum) rfl
    (fun g hg => hdisj g.addr (List.mem_map_of_mem hg) p.addr List.mem_cons_self)
    (fun g hg heq => (List.nodup_cons.mp hright).1
      (heq ▸ List.mem_cons_of_mem _ (List.mem_map_of_mem hg)))
  unfold spliceAt
  simp only [hprev, hmerge]
  refine ⟨⟨?_, ?_⟩, trivial⟩
  · exact (hwrite.move_end c.addr p.addr).congr fun _ _ => rfl
  · have hlast := h.last
    rw [List.map_append, List.map_cons, List.map_cons, List.append_cons] at hlast
    rw [List.map_append, List.map_cons]
    refine moveEnd_last (l.map Range.addr ++ [p.addr]) hlast ?_
    rwa [← List.append_cons]

-- The splice over the nodes is the one over the list.
theorem spliceAt_holds (h : r.Holds (l ++ rest)) (hnew : range ∉ (l ++ rest).map Range.addr)
    (hrange : (r.rangeAt range).limit ≤ UINT64_MAX) (hbounded : ∀ f ∈ l ++ rest, f.limit ≤ UINT64_MAX) :
    (r.spliceAt range (l.getLast?.map Range.addr) (rest.head?.map Range.addr)).Holds
        (freeListSplice l (r.rangeAt range) rest) ∧
      (r.spliceAt range (l.getLast?.map Range.addr) (rest.head?.map Range.addr)).freeCount =
        freeCountSplice r.freeCount l (r.rangeAt range) rest := by
  unfold freeListSplice freeCountSplice
  simp only [Range.limit, rangeAt, UINT64_MAX] at hrange hbounded
  cases hprev : mergePrev l (r.rangeAt range) with
  | none =>
      cases hnext : mergeNext (r.rangeAt range) rest with
      | none => exact spliceAt_neither h hnew hprev hnext
      | some c =>
          obtain ⟨rest', rfl, hc⟩ := mergeNext_some hnext
          have hlimit := hbounded c (by simp)
          simp only [Range.limit, rangeAt] at hc
          exact spliceAt_above h hnew hprev hc (by omega)
  | some p =>
      obtain ⟨l', rfl, hp⟩ := mergePrev_some hprev
      have hlimit := hbounded p (by simp)
      simp only [Range.limit, rangeAt] at hp
      rw [List.getLast?_concat]
      simp only [List.dropLast_concat, Option.map_some]
      cases hnext : mergeNext (r.rangeAt range) rest with
      | none =>
          exact spliceAt_below (List.append_cons .. ▸ h) hp hnext (by omega)
      | some c =>
          obtain ⟨rest', rfl, hc⟩ := mergeNext_some hnext
          have hlimit' := hbounded c (by simp)
          simp only [Range.limit, rangeAt] at hc
          exact spliceAt_both (List.append_cons .. ▸ h) hp hc (by omega)

theorem linkAfter_header (prev : Option Nat) (a : Nat) :
    (r.linkAfter prev a).toRegionHeader = r.toRegionHeader := by
  cases prev <;> rfl

theorem moveEnd_header (c a : Nat) : (r.moveEnd c a).toRegionHeader = r.toRegionHeader := by
  unfold moveEnd
  split <;> rfl

theorem spliceAt_header (prev cur : Option Nat) :
    (r.spliceAt range prev cur).toRegionHeader = r.toRegionHeader := by
  unfold spliceAt
  dsimp only
  split
  · exact moveEnd_header _ _
  · rfl
  · exact (moveEnd_header _ _).trans (linkAfter_header _ _)
  · exact linkAfter_header _ _

-- The free list that a region has, as it is in memory.
structure Stores (r : FreeRegion) (q : Region) : Prop extends r.Holds q.freeList where
  header : r.toRegionHeader = q.toRegionHeader
  count : r.freeCount = q.freeCount

-- The list of a region that had no free range.
theorem holds_single (range : Nat) :
    FreeRegion.Holds { r.setRange range { r.ranges range with next := none } with
      freeList := some range
      freeListEnd := some range
      freeCount := 1 } [r.rangeAt range] := by
  have hsingle : (r.setRange range { r.ranges range with next := none }).Nodes (some range)
      ([] ++ [r.rangeAt range]) none :=
    Nodes.write (r.rangeAt range) _ ⟨rfl, by simp⟩ ⟨rfl, by simp⟩ rfl rfl rfl (by simp) (by simp)
  exact ⟨hsingle.congr fun _ _ => rfl, rfl⟩

theorem Holds.freeList_none (h : r.Holds list) : r.freeList = none ↔ list = [] := by
  cases list with
  | nil => exact iff_of_true h.nodes.links rfl
  | cons f list =>
      rw [h.nodes.links.1]
      simp

-- Appending a node to what is in memory is appending its range to the list,
-- whatever the list and its count.
theorem append_stores {q : Region} (h : r.Stores q) (hnew : range ∉ q.freeList.map Range.addr)
    (hword : (r.ranges range).size ≤ UINT64_MAX)
    (hbounded : ∀ f ∈ q.freeList, f.limit ≤ UINT64_MAX) :
    (r.avmfFreeListAppend range).1 = (Mm.avmfFreeListAppend q (r.rangeAt range)).isSome ∧
      (r.avmfFreeListAppend range).2.Stores
        ((Mm.avmfFreeListAppend q (r.rangeAt range)).getD q) := by
  have hrejected : r.Rejected ↔ q.Rejected := by rw [h.header]
  have hempty : r.freeList = none ∨ r.freeCount = 0 ↔ q.freeList = [] ∨ q.freeCount = 0 := by
    rw [h.freeList_none, h.count]
  unfold avmfFreeListAppend Mm.avmfFreeListAppend rangeAt
  dsimp only
  by_cases hsize : (r.ranges range).size = 0
  · rw [if_pos hsize, if_pos hsize]
    exact ⟨rfl, h⟩
  rw [if_neg hsize, if_neg hsize]
  by_cases hinvalid : r.Rejected
  · rw [if_pos hinvalid, if_pos (hrejected.mp hinvalid)]
    exact ⟨rfl, h⟩
  rw [if_neg hinvalid, if_neg (mt hrejected.mpr hinvalid)]
  by_cases hwrap : (r.ranges range).base > UINT64_MAX - (r.ranges range).size
  · rw [if_pos hwrap, if_pos hwrap]
    exact ⟨rfl, h⟩
  rw [if_neg hwrap, if_neg hwrap]
  by_cases hfirst : r.freeList = none ∨ r.freeCount = 0
  · rw [if_pos hfirst, if_pos (hempty.mp hfirst)]
    exact ⟨rfl, holds_single range, h.header, rfl⟩
  rw [if_neg hfirst, if_neg (mt hempty.mpr hfirst), ← h.count]
  have hslots := findSlot_eq range [] r.freeCount (x := r.ranges range) h.nodes
  rw [List.getLast?_nil, Option.map_none] at hslots
  rw [hslots]
  cases hslot : findFreeSlot (r.rangeAt range) r.freeCount [] q.freeList with
  | none =>
      rw [rangeAt] at hslot
      rw [hslot]
      exact ⟨rfl, h⟩
  | some slot =>
      obtain ⟨l, rest⟩ := slot
      have hparts : l ++ rest = q.freeList := findFreeSlot_append hslot
      have hholds := h.toHolds
      rw [← hparts] at hholds hnew hbounded
      have hlimit : (r.rangeAt range).limit ≤ UINT64_MAX := by
        simp only [Range.limit, rangeAt]
        omega
      obtain ⟨hspliced, hcount⟩ := spliceAt_holds hholds hnew hlimit hbounded
      rw [rangeAt] at hslot
      rw [hslot]
      exact ⟨rfl, hspliced, (spliceAt_header _ _).trans h.header, hcount⟩

-- A node of the list is in the way of itself.
theorem Nodes.fresh {start stop : Option Nat} (h : r.Nodes start list stop)
    (hpos : 0 < (r.ranges range).size) (hapart : ∀ f ∈ list, ¬ Overlaps (r.rangeAt range) f) :
    range ∉ list.map Range.addr := by
  intro hmem
  obtain ⟨f, hf, rfl⟩ := List.mem_map.mp hmem
  obtain ⟨hbase, hsize⟩ := h.stored f hf
  refine hapart f hf ?_
  simp only [Overlaps, Range.limit, rangeAt, hbase, hsize] at hpos ⊢
  omega

-- The outcome of a call whose range overlaps no listed one.
theorem append_apart (h : r.Counted list) (hco : Coalesced list) (hvalid : ¬ r.Rejected)
    (hpos : 0 < (r.ranges range).size) (hbound : (r.rangeAt range).limit ≤ UINT64_MAX)
    (hapart : ∀ f ∈ list, ¬ Overlaps (r.rangeAt range) f) :
    (r.avmfFreeListAppend range).1 = true ∧
      ∃ list', (r.avmfFreeListAppend range).2.Holds list' ∧ Coalesced list' ∧
        (∀ a, Covers list' a ↔
          Covers list a ∨ (r.rangeAt range).base ≤ a ∧ a < (r.rangeAt range).limit) ∧
        ((r.avmfFreeListAppend range).2.freeCount = list'.length ↔
          TouchesBelow list (r.rangeAt range) ∨ ¬ TouchesAbove list (r.rangeAt range)) := by
  have hwrap : ¬ (r.ranges range).base > UINT64_MAX - (r.ranges range).size := by
    simp only [Range.limit, rangeAt] at hbound
    omega
  unfold avmfFreeListAppend
  simp only [if_neg (Nat.ne_of_gt hpos), if_neg hvalid, if_neg hwrap]
  cases list with
  | nil =>
      have hnone : r.freeList = none := h.nodes.links
      rw [if_pos (.inl hnone)]
      refine ⟨rfl, [r.rangeAt range], holds_single range, ?_, fun a => ?_, iff_of_true rfl (.inr ?_)⟩
      · exact coalesced_single hbound
      · simp
      · simp [TouchesAbove]
  | cons f list =>
      have hlist : ¬ (r.freeList = none ∨ r.freeCount = 0) := by
        rw [h.nodes.links.1, h.count]
        simp
      have hslots := findSlot_eq range [] (f :: list).length (x := r.ranges range) h.nodes
      rcases findFreeSlot_cases (r.rangeAt range) [] hpos hco (by simp) with
        ⟨⟨g, hg, hover⟩, -⟩ | ⟨l, rest, heq, hslot, hfound⟩
      · exact absurd hover (hapart g hg)
      · rw [if_neg hlist, h.count]
        rw [rangeAt] at hfound
        rw [hfound] at hslots
        simp only [List.getLast?_nil, Option.map_none, Option.map_some, List.nil_append] at hslots
        simp only [hslots]
        rw [List.nil_append] at hslot
        rw [heq] at h hco hapart ⊢
        have hspliced := freeListSplice_spliced hslot hco
        obtain ⟨hholds, hcount⟩ := spliceAt_holds h.toHolds (h.nodes.fresh hpos hapart) hbound
          hco.bounded
        refine ⟨trivial, _, hholds, hspliced.coalesced hslot hco hbound, hspliced.covers, ?_⟩
        rw [hcount, h.count]
        exact freeCountSplice_eq_iff hslot hco hpos

-- A call whose range overlaps a listed one changes nothing.
theorem append_overlaps (h : r.Counted list) (hco : Coalesced list)
    (hpos : 0 < (r.ranges range).size)
    (hover : ∃ f ∈ list, Overlaps (r.rangeAt range) f) :
    r.avmfFreeListAppend range = (false, r) := by
  have hslots := findSlot_eq range [] list.length (x := r.ranges range) h.nodes
  have hlist : ¬ (r.freeList = none ∨ list.length = 0) := by
    obtain ⟨f, hf, -⟩ := hover
    cases list with
    | nil => cases hf
    | cons g list =>
        rw [h.nodes.links.1]
        simp
  unfold avmfFreeListAppend
  simp only [h.count, if_neg hlist]
  rcases findFreeSlot_cases (r.rangeAt range) [] hpos hco (by simp) with
    ⟨-, hfound⟩ | ⟨l, rest, rfl, hslot, -⟩
  · rw [rangeAt] at hfound
    rw [hfound] at hslots
    simp only [List.getLast?_nil, Option.map_none] at hslots
    simp only [hslots, ite_self]
  · obtain ⟨f, hf, hoverf⟩ := hover
    exact absurd hoverf (hslot.not_overlaps f hf)

-- The lists that the nodes hold have one length.
theorem Holds.length_eq {list' : List Range} (h : r.Holds list) (h' : r.Holds list') :
    list.length = list'.length := by
  have haddr := h.nodes.links.unique h'.nodes.links
  simpa using congrArg List.length haddr

-- The call answers whether the range is apart from the listed ones, and then
-- the list takes it in and stays coalesced with the right count and end.
structure AppendMeets (r : FreeRegion) (range : Nat) (list : List Range) : Prop where
  returned : (r.avmfFreeListAppend range).1 = true ↔ ∀ f ∈ list, ¬ Overlaps (r.rangeAt range) f
  appended : (r.avmfFreeListAppend range).1 = true →
    ∃ list', (r.avmfFreeListAppend range).2.Counted list' ∧ Coalesced list' ∧
      ∀ a, Covers list' a ↔
        Covers list a ∨ (r.rangeAt range).base ≤ a ∧ a < (r.rangeAt range).limit
  refused : (r.avmfFreeListAppend range).1 = false → (r.avmfFreeListAppend range).2 = r

theorem free_list_append_iff (h : r.Counted list) (hco : Coalesced list) (hvalid : ¬ r.Rejected)
    (hpos : 0 < (r.ranges range).size) (hbound : (r.rangeAt range).limit ≤ UINT64_MAX) :
    r.AppendMeets range list ↔
      (∃ f ∈ list, Overlaps (r.rangeAt range) f) ∨ TouchesBelow list (r.rangeAt range) ∨
        ¬ TouchesAbove list (r.rangeAt range) := by
  by_cases hover : ∃ f ∈ list, Overlaps (r.rangeAt range) f
  · have hrefused := append_overlaps h hco hpos hover
    refine iff_of_true ⟨?_, ?_, ?_⟩ (.inl hover)
    · rw [hrefused]
      simpa using hover
    · rw [hrefused]
      exact fun h => nomatch h
    · rw [hrefused]
      exact fun _ => rfl
  · have hapart : ∀ f ∈ list, ¬ Overlaps (r.rangeAt range) f := fun f hf hf' =>
      hover ⟨f, hf, hf'⟩
    obtain ⟨hreturned, list', hholds, hco', hcovers, hcount⟩ :=
      append_apart h hco hvalid hpos hbound hapart
    rw [or_iff_right hover, ← hcount]
    constructor
    · intro hmeets
      obtain ⟨list'', hcounted, -⟩ := hmeets.appended hreturned
      rw [hcounted.count, hcounted.toHolds.length_eq hholds]
    · intro hright
      refine ⟨iff_of_true hreturned hapart, fun _ => ⟨list', ⟨hholds, hright⟩, hco', hcovers⟩, ?_⟩
      rw [hreturned]
      exact fun h => nomatch h

end Append

-- A region with one free range, in node 1, and the range to append in node 2.
def oneFree (base : Nat) : FreeRegion where
  signature := AVMF_SIGNATURE
  version := AVMF_VERSION
  base := 0x1000
  limit := 0x10000
  freeList := some 1
  freeCount := 1
  freeListEnd := some 1
  ranges := fun a => if a = 1 then ⟨base, 0x1000, none⟩ else ⟨0x2000, 0x1000, none⟩

theorem oneFree_counted (base : Nat) : (oneFree base).Counted [⟨1, base, 0x1000⟩] :=
  ⟨⟨⟨⟨rfl, rfl⟩, by simp [oneFree]⟩, rfl⟩, rfl⟩

theorem free_list_append_iff_below : (oneFree 0x1000).AppendMeets 2 [⟨1, 0x1000, 0x1000⟩] :=
  (free_list_append_iff (oneFree_counted 0x1000) (coalesced_single (by decide)) (by decide)
    (by decide) (by decide)).mpr (.inr (.inl ⟨_, List.mem_cons_self, by decide⟩))

-- The range that touches the one above it only: the list keeps one range, and
-- the count says that it has none.
theorem free_list_append_fails :
    ((oneFree 0x3000).avmfFreeListAppend 2).2.freeList = some 2 ∧
      ((oneFree 0x3000).avmfFreeListAppend 2).2.freeCount = 0 ∧
        ¬ (oneFree 0x3000).AppendMeets 2 [⟨1, 0x3000, 0x1000⟩] := by
  refine ⟨by decide, by decide, fun hmeets => ?_⟩
  obtain ⟨list', hcounted, -⟩ := hmeets.appended (by decide)
  have hcount : 0 = list'.length := hcounted.count
  obtain rfl := List.eq_nil_of_length_eq_zero hcount.symm
  have hnone : some 2 = none := hcounted.nodes.links
  cases hnone

end FreeRegion

end AosKernel.Mm
