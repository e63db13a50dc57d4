import Mathlib.Algebra.Group.Nat.Defs
import Mathlib.Data.List.Basic

namespace Verif

variable {α : Type} {next next' : α → Option α}

-- Following `next` from `start` passes through the elements of the list, in
-- order, and arrives at `stop`.
def Links (next : α → Option α) : Option α → List α → Option α → Prop
  | start, [], stop => start = stop
  | start, a :: rest, stop => start = some a ∧ Links next (next a) rest stop

namespace Links

@[simp] theorem nil_iff {start stop : Option α} : Links next start [] stop ↔ start = stop :=
  Iff.rfl

@[simp] theorem cons_iff {start stop : Option α} {a : α} {rest : List α} :
    Links next start (a :: rest) stop ↔ start = some a ∧ Links next (next a) rest stop :=
  Iff.rfl

theorem append_iff {start stop : Option α} {l r : List α} :
    Links next start (l ++ r) stop ↔ ∃ mid, Links next start l mid ∧ Links next mid r stop := by
  induction l generalizing start with
  | nil => simp
  | cons a l ih => simp [ih, and_assoc]

theorem append {start mid stop : Option α} {l r : List α} (hl : Links next start l mid)
    (hr : Links next mid r stop) : Links next start (l ++ r) stop :=
  append_iff.mpr ⟨mid, hl, hr⟩

-- Only the links of the elements passed matter.
theorem congr {start stop : Option α} {l : List α} (h : ∀ a ∈ l, next' a = next a)
    (hl : Links next start l stop) : Links next' start l stop := by
  induction l generalizing start with
  | nil => exact hl
  | cons a l ih =>
      obtain ⟨rfl, hrest⟩ := hl
      refine ⟨rfl, ih (fun b hb => h b (List.mem_cons_of_mem _ hb)) ?_⟩
      rwa [h a List.mem_cons_self]

-- Redirecting the last link.
theorem redirect {start stop stop' : Option α} {l : List α} {last : α}
    (hl : Links next start (l ++ [last]) stop) (h : ∀ a ∈ l, next' a = next a)
    (hlast : next' last = stop') : Links next' start (l ++ [last]) stop' := by
  obtain ⟨mid, hfront, hend, -⟩ := append_iff.mp hl
  exact append (congr h hfront) ⟨hend, hlast⟩

-- What `a` is put behind leads to it: from its last element, or where it is empty from its
-- start.
theorem leads_on [DecidableEq α] {start stop : Option α} {l : List α} {a : α}
    (hl : Links next start l stop) (hnodup : l.Nodup) (hstart : l = [] → start.or (some a) = some a)
    (hnext : ∀ b ∈ l, next' b = if l.getLast? = some b then some a else next b) :
    Links next' (start.or (some a)) l (some a) := by
  cases hlast : l.getLast? with
  | none =>
      obtain rfl := List.getLast?_eq_none_iff.mp hlast
      exact hstart rfl
  | some p =>
      obtain ⟨front, rfl⟩ := List.getLast?_eq_some_iff.mp hlast
      have hfirst : start.or (some a) = start := by
        cases start with
        | none => cases front <;> cases hl.1
        | some b => rfl
      rw [hfirst]
      apply hl.redirect
      · intro b hb
        have hne : p ≠ b := fun heq =>
          (List.nodup_append.mp hnodup).2.2 b hb p List.mem_cons_self heq.symm
        rw [hnext b (List.mem_append_left _ hb), hlast,
          if_neg fun heq => hne (Option.some.inj heq)]
      · rw [hnext p (List.mem_append_right _ List.mem_cons_self), hlast, if_pos rfl]

-- Of two ways from one element, the way to the end contains the other.
theorem split {start mid : Option α} {l r : List α} (hl : Links next start l mid)
    (hr : Links next start r none) : ∃ rest, r = l ++ rest ∧ Links next mid rest none := by
  induction l generalizing start r with
  | nil =>
      obtain rfl := hl
      exact ⟨r, rfl, hr⟩
  | cons a l ih =>
      obtain ⟨rfl, hl⟩ := hl
      cases r with
      | nil => cases hr
      | cons b r =>
          obtain ⟨hab, hr⟩ := hr
          cases hab
          obtain ⟨rest, rfl, hrest⟩ := ih hl hr
          exact ⟨rest, rfl, hrest⟩

theorem unique {start : Option α} {l r : List α} (hl : Links next start l none)
    (hr : Links next start r none) : l = r := by
  obtain ⟨rest, rfl, hrest⟩ := split hl hr
  cases rest with
  | nil => simp
  | cons a rest => cases hrest.1

-- Elements that lead each to the next one are passed in order.
theorem of_steps {start stop : Option α} {e : Nat → α} {k : Nat}
    (hstart : start = if k = 0 then stop else some (e 0))
    (hnext : ∀ i, i < k → next (e i) = if i + 1 = k then stop else some (e (i + 1))) :
    Links next start ((List.range k).map e) stop := by
  induction k generalizing start e with
  | zero => exact hstart
  | succ k ih =>
      rw [List.range_succ_eq_map, List.map_cons, List.map_map]
      refine ⟨hstart, ih (e := e ∘ Nat.succ) ?_ fun i hi => ?_⟩
      · rw [hnext 0 (Nat.succ_pos k)]
        simp
      · rw [Function.comp, hnext (i + 1) (Nat.succ_lt_succ hi)]
        simp

-- From an element that leads back to itself no way leads to the end.
theorem no_end_of_loop {a : α} {l : List α} (h : Links next (some a) (a :: l) (some a)) :
    ¬ ∃ r, Links next (some a) r none := by
  rintro ⟨r, hr⟩
  induction hn : r.length using Nat.strongRecOn generalizing r with
  | _ n ih =>
      obtain ⟨rest, rfl, hrest⟩ := split h hr
      refine ih rest.length ?_ rest hrest rfl
      simp only [List.length_append, List.length_cons] at hn
      omega

-- No element comes twice on a way that ends.
theorem nodup {start : Option α} {l : List α} (hl : Links next start l none) : l.Nodup := by
  induction l generalizing start with
  | nil => exact List.nodup_nil
  | cons a l ih =>
      obtain ⟨rfl, hrest⟩ := hl
      refine List.nodup_cons.mpr ⟨fun ha => ?_, ih hrest⟩
      obtain ⟨before, later, rfl⟩ := List.append_of_mem ha
      obtain ⟨mid, hbefore, hmid, hlater⟩ := append_iff.mp hrest
      have hloop : Links next (some a) (a :: before) (some a) := ⟨rfl, hmid ▸ hbefore⟩
      exact no_end_of_loop hloop ⟨a :: later, rfl, hlater⟩

-- The elements on a way that ends are those that it arrives at.
theorem mem_iff {start : Option α} {l : List α} (hl : Links next start l none) {a : α} :
    a ∈ l ↔ ∃ before, Links next start before (some a) := by
  constructor
  · intro ha
    obtain ⟨before, later, rfl⟩ := List.append_of_mem ha
    obtain ⟨mid, hbefore, hmid, -⟩ := append_iff.mp hl
    exact ⟨before, hmid ▸ hbefore⟩
  · rintro ⟨before, hbefore⟩
    obtain ⟨later, rfl, hlater⟩ := split hbefore hl
    cases later with
    | nil => cases hlater
    | cons b later =>
        obtain rfl := Option.some.inj hlater.1
        exact List.mem_append_right _ List.mem_cons_self

end Links

end Verif
