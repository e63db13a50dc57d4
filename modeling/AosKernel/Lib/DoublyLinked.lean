import Mathlib.Data.List.Nodup
import AosKernel.Lib.Links

namespace Verif

variable {α : Type} {next next' parent parent' : α → Option α}

namespace Links

-- Each element leads to the one behind it.
theorem next_eq {start stop : Option α} {u v : List α} {a : α}
    (h : Links next start (u ++ a :: v) stop) : next a = v.head?.or stop := by
  obtain ⟨mid, -, -, hv⟩ := append_iff.mp h
  cases v with
  | nil => exact hv
  | cons b v => exact hv.1

-- Taking an element out: what led to it leads to what it led to.
theorem remove [DecidableEq α] (next' : α → Option α) {start stop : Option α} {u v : List α}
    {a : α} (h : Links next start (u ++ a :: v) stop) (hnodup : (u ++ a :: v).Nodup)
    (hnext : ∀ b ∈ u ++ v, next' b = if u.getLast? = some b then next a else next b) :
    Links next' (if u = [] then next a else start) (u ++ v) stop := by
  obtain ⟨mid, hu, rfl, hv⟩ := append_iff.mp h
  have hv' : Links next' (next a) v stop := by
    refine hv.congr fun b hb => ?_
    rw [hnext b (List.mem_append_right _ hb), if_neg]
    intro hlast
    exact (List.nodup_append.mp hnodup).2.2 b (List.mem_of_getLast? hlast) b
      (List.mem_cons_of_mem _ hb) rfl
  cases hlast : u.getLast? with
  | none =>
      obtain rfl := List.getLast?_eq_none_iff.mp hlast
      exact hv'
  | some p =>
      obtain ⟨front, rfl⟩ := List.getLast?_eq_some_iff.mp hlast
      rw [if_neg (List.append_ne_nil_of_right_ne_nil _ (List.cons_ne_nil p []))]
      have hfront := (List.nodup_append.mp (List.nodup_append.mp hnodup).1).2.2
      refine append (hu.redirect (fun b hb => ?_) ?_) hv'
      · rw [hnext b (by simp [hb]), hlast, if_neg]
        intro heq
        exact hfront b hb p List.mem_cons_self (Option.some.inj heq).symm
      · rw [hnext p (by simp), hlast, if_pos rfl]

end Links

-- A list whose elements lead to the next one and back to the one before. An empty
-- list has no last element, and its first one is not looked at.
structure DoublyLinked (next parent : α → Option α) (first last : Option α) (l : List α) :
    Prop where
  forward : l = [] ∨ Links next first l none
  backward : Links parent last l.reverse none

namespace DoublyLinked

variable {first last : Option α} {l u v : List α} {a b : α}

theorem nodup (h : DoublyLinked next parent first last l) : l.Nodup :=
  List.nodup_reverse.mp h.backward.nodup

theorem last_eq (h : DoublyLinked next parent first last l) : last = l.getLast? := by
  rw [← List.head?_reverse]
  have hback := h.backward
  cases hrev : l.reverse with
  | nil =>
      rw [hrev] at hback
      exact hback
  | cons a rest =>
      rw [hrev] at hback
      exact hback.1

theorem next_eq (h : DoublyLinked next parent first last (u ++ a :: v)) : next a = v.head? := by
  have hforward := h.forward.resolve_left (by simp)
  rw [hforward.next_eq, Option.or_none]

theorem parent_eq (h : DoublyLinked next parent first last (u ++ a :: v)) :
    parent a = u.getLast? := by
  have hback := h.backward
  rw [List.reverse_append, List.reverse_cons, List.append_assoc, List.singleton_append] at hback
  rw [hback.next_eq, List.head?_reverse, Option.or_none]

-- The elements passed are in the order of the list, whatever is behind them.
theorem links (h : DoublyLinked next parent first last l) : ∃ stop, Links next first l stop := by
  rcases h.forward with rfl | hlinks
  · exact ⟨first, rfl⟩
  · exact ⟨none, hlinks⟩

-- Within the list the one map is the inverse of the other.
theorem inverse (h : DoublyLinked next parent first last l) (ha : a ∈ l) (hb : b ∈ l) :
    next a = some b ↔ parent b = some a := by
  constructor
  · intro hnext
    obtain ⟨u, v, rfl⟩ := List.append_of_mem ha
    rw [h.next_eq] at hnext
    obtain ⟨v', rfl⟩ := List.head?_eq_some_iff.mp hnext
    rw [List.append_cons] at h
    rw [h.parent_eq, List.getLast?_concat]
  · intro hparent
    obtain ⟨u, v, rfl⟩ := List.append_of_mem hb
    rw [h.parent_eq] at hparent
    obtain ⟨u', rfl⟩ := List.getLast?_eq_some_iff.mp hparent
    rw [List.append_assoc, List.singleton_append] at h
    rw [h.next_eq, List.head?_cons]

theorem nil (hlast : last = none) : DoublyLinked next parent first last [] :=
  ⟨.inl rfl, hlast⟩

theorem single (hfirst : first = some a) (hlast : last = some a) (hnext : next a = none)
    (hparent : parent a = none) : DoublyLinked next parent first last [a] :=
  ⟨.inr ⟨hfirst, hnext⟩, ⟨hlast, hparent⟩⟩

-- Only the links of the elements matter.
theorem congr (h : DoublyLinked next parent first last l)
    (hsame : ∀ a ∈ l, next' a = next a ∧ parent' a = parent a) :
    DoublyLinked next' parent' first last l :=
  ⟨h.forward.imp_right fun hf => hf.congr fun a ha => (hsame a ha).1,
    h.backward.congr fun a ha => (hsame a (List.mem_reverse.mp ha)).2⟩

-- Taking an element out.
theorem remove [DecidableEq α] (next' parent' : α → Option α)
    (h : DoublyLinked next parent first last (u ++ a :: v))
    (hnext : ∀ b ∈ u ++ v, next' b = if u.getLast? = some b then next a else next b)
    (hparent : ∀ b ∈ u ++ v, parent' b = if v.head? = some b then parent a else parent b) :
    DoublyLinked next' parent' (if u = [] then next a else first)
      (if v = [] then parent a else last) (u ++ v) := by
  have hforward := h.forward.resolve_left (by simp)
  have hback := h.backward
  rw [List.reverse_append, List.reverse_cons, List.append_assoc, List.singleton_append] at hback
  refine ⟨.inr (hforward.remove next' h.nodup hnext), ?_⟩
  have hremoved := hback.remove parent' hback.nodup fun b hb => ?_
  · simpa only [List.reverse_append, List.reverse_eq_nil_iff] using hremoved
  · rw [List.getLast?_reverse, hparent b (by simpa [or_comm] using hb)]

end DoublyLinked

end Verif
