import AosKernel.Mm.Region

namespace AosKernel.Mm

open Verif Verif.Span

def Range.limit (f : Range) : Nat := f.base + f.size

-- The list is sorted, no two of its ranges overlap or touch and none of them
-- wraps.
structure Coalesced (list : List Range) : Prop where
  apart : list.Pairwise fun a b => a.limit < b.base
  bounded : ∀ f ∈ list, f.limit ≤ UINT64_MAX

def Overlaps (a b : Range) : Prop := a.base < b.limit ∧ b.base < a.limit

def TouchesBelow (list : List Range) (range : Range) : Prop := ∃ f ∈ list, f.limit = range.base

def TouchesAbove (list : List Range) (range : Range) : Prop := ∃ f ∈ list, range.limit = f.base

-- The addresses that the ranges cover.
def Covers (list : List Range) (x : Nat) : Prop := ∃ f ∈ list, f.base ≤ x ∧ x < f.limit

-- Where `range` goes into a list: behind `l` and before `r`.
structure RangeSlot (range : Range) (l r : List Range) : Prop where
  below : ∀ f ∈ l, f.limit ≤ range.base
  above : ∀ f ∈ r, range.limit ≤ f.base

section Order

variable {range x : Range} {before l r list : List Range}

theorem Coalesced.left (h : Coalesced (l ++ r)) : Coalesced l :=
  ⟨(List.pairwise_append.mp h.apart).1, fun f hf => h.bounded f (List.mem_append_left _ hf)⟩

theorem Coalesced.right (h : Coalesced (l ++ r)) : Coalesced r :=
  ⟨(List.pairwise_append.mp h.apart).2.1, fun f hf => h.bounded f (List.mem_append_right _ hf)⟩

theorem coalesced_single (h : x.limit ≤ UINT64_MAX) : Coalesced [x] :=
  ⟨List.pairwise_singleton _ _, by simpa using h⟩

theorem Coalesced.around (hl : Coalesced l) (hr : Coalesced r) (hx : x.limit ≤ UINT64_MAX)
    (hbelow : ∀ f ∈ l, f.limit < x.base) (habove : ∀ f ∈ r, x.limit < f.base) :
    Coalesced (l ++ x :: r) := by
  refine ⟨List.pairwise_append.mpr ⟨hl.apart, List.pairwise_cons.mpr ⟨habove, hr.apart⟩, ?_⟩, ?_⟩
  · intro a ha b hb
    have hax := hbelow a ha
    rcases List.mem_cons.mp hb with rfl | hb
    · exact hax
    · have hxb := habove b hb
      simp only [Range.limit] at hax hxb ⊢
      omega
  · intro f hf
    rcases List.mem_append.mp hf with hf | hf
    · exact hl.bounded f hf
    · rcases List.mem_cons.mp hf with rfl | hf
      · exact hx
      · exact hr.bounded f hf

theorem RangeSlot.not_overlaps (h : RangeSlot range l r) : ∀ f ∈ l ++ r, ¬ Overlaps range f := by
  rintro f hf ⟨hlow, hhigh⟩
  rcases List.mem_append.mp hf with hl | hr
  · exact absurd (h.below f hl) (Nat.not_le_of_gt hlow)
  · exact absurd (h.above f hr) (Nat.not_le_of_gt hhigh)

-- The loop only parts the list.
theorem findFreeSlot_append {n : Nat} (h : findFreeSlot range n before list = some (l, r)) :
    l ++ r = before ++ list := by
  induction n generalizing before list with
  | zero =>
      obtain ⟨rfl, rfl⟩ := Prod.mk.inj (Option.some.inj h)
      rfl
  | succ n ih =>
      cases list with
      | nil => cases h
      | cons cur rest =>
          rw [findFreeSlot] at h
          split at h
          · cases h
          split at h
          · cases h
          split at h
          · obtain ⟨rfl, rfl⟩ := Prod.mk.inj (Option.some.inj h)
            rfl
          · rw [ih h, List.append_assoc, List.singleton_append]

-- The loop over a whole list stops where the range belongs, unless a range of
-- the list overlaps.
theorem findFreeSlot_cases (range : Range) (before : List Range) (hpos : 0 < range.size)
    (hco : Coalesced list) (hbefore : ∀ f ∈ before, f.limit ≤ range.base) :
    (∃ f ∈ list, Overlaps range f) ∧ findFreeSlot range list.length before list = none ∨
      ∃ l r, list = l ++ r ∧ RangeSlot range (before ++ l) r ∧
        findFreeSlot range list.length before list = some (before ++ l, r) := by
  induction list generalizing before with
  | nil => exact .inr ⟨[], [], rfl, ⟨by simpa using hbefore, by simp⟩, by simp [findFreeSlot]⟩
  | cons cur rest ih =>
      obtain ⟨hcur, hrest⟩ := List.pairwise_cons.mp hco.apart
      have hbound : ¬ cur.base > UINT64_MAX - cur.size := by
        have hcur := hco.bounded cur List.mem_cons_self
        rw [Range.limit] at hcur
        omega
      rw [List.length_cons, findFreeSlot, if_neg hbound]
      by_cases hover : Overlaps range cur
      · exact .inl ⟨⟨cur, List.mem_cons_self, hover⟩, if_pos hover⟩
      · have hnone : ¬ (range.base < cur.base + cur.size ∧ cur.base < range.base + range.size) :=
          hover
        rw [if_neg hnone]
        by_cases hlow : range.base < cur.base
        · rw [if_pos hlow]
          refine .inr ⟨[], cur :: rest, rfl, ⟨by simpa using hbefore, fun f hf => ?_⟩, by simp⟩
          have hcur' : range.limit ≤ cur.base := by
            rw [Range.limit]
            omega
          rcases List.mem_cons.mp hf with rfl | hf
          · exact hcur'
          · have hlt := hcur f hf
            rw [Range.limit] at hlt
            omega
        · rw [if_neg hlow]
          have hcur' : cur.limit ≤ range.base := by
            rw [Range.limit]
            omega
          have hbefore' : ∀ f ∈ before ++ [cur], f.limit ≤ range.base := by
            intro f hf
            rcases List.mem_append.mp hf with hf | hf
            · exact hbefore f hf
            · rw [List.mem_singleton.mp hf]
              exact hcur'
          rcases ih _ ⟨hrest, fun f hf => hco.bounded f (List.mem_cons_of_mem _ hf)⟩ hbefore' with
            ⟨⟨f, hf, hoverf⟩, hnone⟩ | ⟨l, r, rfl, hslot, hsome⟩
          · exact .inl ⟨⟨f, List.mem_cons_of_mem _ hf, hoverf⟩, hnone⟩
          · refine .inr ⟨cur :: l, r, rfl, ?_, ?_⟩
            · simpa using hslot
            · simpa using hsome

theorem mergePrev_some (h : mergePrev l range = some x) :
    ∃ l', l = l' ++ [x] ∧ x.limit = range.base := by
  obtain ⟨hlast, htouch⟩ := Option.filter_eq_some_iff.mp h
  obtain ⟨l', rfl⟩ := List.getLast?_eq_some_iff.mp hlast
  exact ⟨l', rfl, of_decide_eq_true htouch⟩

theorem mergeNext_some (h : mergeNext range r = some x) :
    ∃ r', r = x :: r' ∧ range.limit = x.base := by
  obtain ⟨hhead, htouch⟩ := Option.filter_eq_some_iff.mp h
  obtain ⟨r', rfl⟩ := List.head?_eq_some_iff.mp hhead
  exact ⟨r', rfl, of_decide_eq_true htouch⟩

-- Whether the range below is merged.
theorem mergePrev_cases (hslot : RangeSlot range l r) (hco : Coalesced l) :
    (∃ l' p, l = l' ++ [p] ∧ p.limit = range.base ∧
        mergePrev l range = some p) ∨
      (∀ f ∈ l, f.limit < range.base) ∧
        mergePrev l range = none := by
  cases hlast : l.getLast? with
  | none =>
      obtain rfl := List.getLast?_eq_none_iff.mp hlast
      exact .inr ⟨by simp, rfl⟩
  | some p =>
      obtain ⟨l', rfl⟩ := List.getLast?_eq_some_iff.mp hlast
      have hpbelow : p.limit ≤ range.base := hslot.below p (by simp)
      rw [mergePrev, hlast]
      by_cases hp : p.limit = range.base
      · exact .inl ⟨l', p, rfl, hp, Option.filter_some_pos (decide_eq_true hp)⟩
      · refine .inr ⟨fun f hf => ?_, Option.filter_some_neg (decide_eq_false hp)⟩
        rcases List.mem_append.mp hf with hf | hf
        · have hlt := (List.pairwise_append.mp hco.apart).2.2 f hf p List.mem_cons_self
          simp only [Range.limit] at hpbelow hlt ⊢
          omega
        · rw [List.mem_singleton.mp hf]
          exact Nat.lt_of_le_of_ne hpbelow hp

-- Whether the range above is merged.
theorem mergeNext_cases (hslot : RangeSlot range l r) (hco : Coalesced r) :
    (∃ c r', r = c :: r' ∧ range.limit = c.base ∧
        mergeNext range r = some c) ∨
      (∀ f ∈ r, range.limit < f.base) ∧
        mergeNext range r = none := by
  cases r with
  | nil => exact .inr ⟨by simp, rfl⟩
  | cons c r' =>
      have hcabove : range.limit ≤ c.base := hslot.above c List.mem_cons_self
      by_cases hc : range.limit = c.base
      · exact .inl ⟨c, r', rfl, hc, Option.filter_some_pos (decide_eq_true hc)⟩
      · refine .inr ⟨fun f hf => ?_, Option.filter_some_neg (decide_eq_false hc)⟩
        rcases List.mem_cons.mp hf with rfl | hf
        · exact Nat.lt_of_le_of_ne hcabove hc
        · have hlt := (List.pairwise_cons.mp hco.apart).1 f hf
          simp only [Range.limit] at hcabove hlt ⊢
          omega

-- The four ways to put `range` into its slot. What touches it has gone into it.
inductive Spliced (range : Range) : List Range → List Range → List Range → Prop
  | both {l r : List Range} {p c : Range} : p.limit = range.base → range.limit = c.base →
      Spliced range (l ++ [p]) (c :: r)
        (l ++ { p with size := p.size + range.size + c.size } :: r)
  | below {l r : List Range} {p : Range} : p.limit = range.base →
      (∀ f ∈ r, range.limit < f.base) →
      Spliced range (l ++ [p]) r (l ++ { p with size := p.size + range.size } :: r)
  | above {l r : List Range} {c : Range} : (∀ f ∈ l, f.limit < range.base) →
      range.limit = c.base →
      Spliced range l (c :: r) (l ++ { range with size := range.size + c.size } :: r)
  | neither {l r : List Range} : (∀ f ∈ l, f.limit < range.base) →
      (∀ f ∈ r, range.limit < f.base) → Spliced range l r (l ++ range :: r)

theorem freeListSplice_spliced (hslot : RangeSlot range l r) (hco : Coalesced (l ++ r)) :
    Spliced range l r (freeListSplice l range r) := by
  unfold freeListSplice
  rcases mergePrev_cases hslot hco.left with ⟨l', p, rfl, hp, hprev⟩ | ⟨hl, hprev⟩
  · rcases mergeNext_cases hslot hco.right with ⟨c, r', rfl, hc, hnext⟩ | ⟨hr, hnext⟩
    · simp only [hprev, hnext, List.dropLast_concat, List.tail_cons]
      exact .both hp hc
    · simp only [hprev, hnext, List.dropLast_concat]
      exact .below hp hr
  · rcases mergeNext_cases hslot hco.right with ⟨c, r', rfl, hc, hnext⟩ | ⟨hr, hnext⟩
    · simp only [hprev, hnext, List.tail_cons]
      exact .above hl hc
    · simp only [hprev, hnext]
      exact .neither hl hr

-- The new list is coalesced, ...
theorem Spliced.coalesced (h : Spliced range l r list) (hslot : RangeSlot range l r)
    (hco : Coalesced (l ++ r)) (hrange : range.limit ≤ UINT64_MAX) : Coalesced list := by
  cases h with
  | @both l r p c hp hc =>
      have hsize : ({ p with size := p.size + range.size + c.size } : Range).limit = c.limit := by
        simp only [Range.limit] at hp hc ⊢
        omega
      have hapart := List.pairwise_append.mp hco.apart
      have hleft := List.pairwise_append.mp hapart.1
      refine .around hco.left.left ⟨(List.pairwise_cons.mp hapart.2.1).2, fun f hf =>
        hco.bounded f (by simp [hf])⟩ ?_ (fun f hf => ?_) fun f hf => ?_
      · rw [hsize]
        exact hco.bounded c (by simp)
      · exact hleft.2.2 f hf p List.mem_cons_self
      · rw [hsize]
        exact (List.pairwise_cons.mp hapart.2.1).1 f hf
  | @below l r p hp hr =>
      have hsize : ({ p with size := p.size + range.size } : Range).limit = range.limit := by
        simp only [Range.limit] at hp ⊢
        omega
      have hleft := List.pairwise_append.mp hco.left.apart
      refine .around hco.left.left hco.right ?_ (fun f hf => ?_) fun f hf => ?_
      · rwa [hsize]
      · exact hleft.2.2 f hf p List.mem_cons_self
      · rw [hsize]
        exact hr f hf
  | @above l r c hl hc =>
      have hsize : ({ range with size := range.size + c.size } : Range).limit = c.limit := by
        simp only [Range.limit] at hc ⊢
        omega
      have hright := List.pairwise_cons.mp hco.right.apart
      refine .around hco.left ⟨hright.2, fun f hf => hco.bounded f (by simp [hf])⟩ ?_ hl
        fun f hf => ?_
      · rw [hsize]
        exact hco.bounded c (by simp)
      · rw [hsize]
        exact hright.1 f hf
  | neither hl hr => exact .around hco.left hco.right hrange hl hr

-- Nothing in the list ends where the range begins, ...
theorem RangeSlot.not_touchesBelow (hslot : RangeSlot range l r) (hpos : 0 < range.size)
    (hl : ∀ f ∈ l, f.limit < range.base) : ¬ TouchesBelow (l ++ r) range := by
  rintro ⟨f, hf, htouch⟩
  rcases List.mem_append.mp hf with hf | hf
  · exact Nat.ne_of_lt (hl f hf) htouch
  · have habove := hslot.above f hf
    simp only [Range.limit] at habove htouch
    omega

-- ... or begins where it ends.
theorem RangeSlot.not_touchesAbove (hslot : RangeSlot range l r) (hpos : 0 < range.size)
    (hr : ∀ f ∈ r, range.limit < f.base) : ¬ TouchesAbove (l ++ r) range := by
  rintro ⟨f, hf, htouch⟩
  rcases List.mem_append.mp hf with hf | hf
  · have hbelow := hslot.below f hf
    simp only [Range.limit] at hbelow htouch
    omega
  · exact Nat.ne_of_lt (hr f hf) htouch

@[simp] theorem covers_cons {f : Range} {a : Nat} :
    Covers (f :: l) a ↔ f.base ≤ a ∧ a < f.limit ∨ Covers l a := by
  simp [Covers]

@[simp] theorem covers_append {a : Nat} : Covers (l ++ r) a ↔ Covers l a ∨ Covers r a := by
  simp [Covers, or_and_right, exists_or]

@[simp] theorem covers_nil {a : Nat} : ¬ Covers [] a := by simp [Covers]

-- ... and covers the old addresses and those of the range.
theorem Spliced.covers (h : Spliced range l r list) (a : Nat) :
    Covers list a ↔ Covers (l ++ r) a ∨ range.base ≤ a ∧ a < range.limit := by
  cases h with
  | both hp hc =>
      simp only [covers_append, covers_cons, covers_nil, Range.limit] at hp hc ⊢
      grind
  | below hp hr =>
      simp only [covers_append, covers_cons, covers_nil, Range.limit] at hp ⊢
      grind
  | above hl hc =>
      simp only [covers_append, covers_cons, Range.limit] at hc ⊢
      grind
  | neither hl hr =>
      rw [covers_append, covers_append, covers_cons, or_comm (a := Covers l a ∨ Covers r a),
        or_left_comm]

-- The count goes with the list unless the range above was merged alone.
theorem freeCountSplice_eq_iff (hslot : RangeSlot range l r) (hco : Coalesced (l ++ r))
    (hpos : 0 < range.size) :
    freeCountSplice (l ++ r).length l range r = (freeListSplice l range r).length ↔
      TouchesBelow (l ++ r) range ∨ ¬ TouchesAbove (l ++ r) range := by
  unfold freeCountSplice freeListSplice
  rcases mergePrev_cases hslot hco.left with ⟨l', p, rfl, hp, hprev⟩ | ⟨hl, hprev⟩
  · refine iff_of_true ?_ (.inl ⟨p, by simp, hp⟩)
    rcases mergeNext_cases hslot hco.right with ⟨c, r', rfl, -, hnext⟩ | ⟨-, hnext⟩
    · simp only [hprev, hnext, List.dropLast_concat, List.tail_cons, List.length_append,
        List.length_cons, List.length_nil]
      omega
    · simp only [hprev, hnext, List.dropLast_concat, List.length_append, List.length_cons,
        List.length_nil]
      omega
  · rcases mergeNext_cases hslot hco.right with ⟨c, r', rfl, hc, hnext⟩ | ⟨hr, hnext⟩
    · refine iff_of_false ?_
        (not_or.mpr ⟨hslot.not_touchesBelow hpos hl, not_not.mpr ⟨c, by simp, hc⟩⟩)
      simp only [hprev, hnext, List.tail_cons, List.length_append, List.length_cons]
      omega
    · refine iff_of_true ?_ (.inr (hslot.not_touchesAbove hpos hr))
      simp only [hprev, hnext, List.length_append, List.length_cons]
      omega

end Order

end AosKernel.Mm
