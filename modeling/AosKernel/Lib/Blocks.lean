import Mathlib.Data.List.Nodup
import Mathlib.Data.List.Perm.Basic
import Mathlib.Logic.Function.Basic

namespace Verif

variable {β : Type}

-- A row of lists in which one that was empty is filled.
theorem flatMap_fill_perm {α : Type} {l : List α} (hl : l.Nodup) {i : α} (hi : i ∈ l)
    {f g : α → List β} (hf : f i = []) (hsame : ∀ j, j ≠ i → g j = f j) :
    (l.flatMap g).Perm (g i ++ l.flatMap f) := by
  induction l with
  | nil => cases hi
  | cons a l ih =>
      obtain ⟨ha, hl⟩ := List.nodup_cons.mp hl
      rw [List.flatMap_cons, List.flatMap_cons]
      obtain rfl | hi := List.mem_cons.mp hi
      · have htail : l.flatMap g = l.flatMap f :=
          List.flatMap_congr fun j hj => hsame j fun heq => ha (heq ▸ hj)
        rw [hf, htail, List.nil_append]
      · have hne : a ≠ i := fun heq => ha (heq ▸ hi)
        rw [hsame a hne]
        exact ((ih hl hi).append_left (f a)).trans (List.perm_append_comm_assoc _ _ _)

-- The blocks in use of a heap are those of the list, with what it says they hold,
-- and the list has each of them once.
structure HoldsJust (heap : Nat → Option β) (l : List (Nat × β)) : Prop where
  nodup : (l.map Prod.fst).Nodup
  mem_iff : ∀ a b, heap a = some b ↔ (a, b) ∈ l

namespace HoldsJust

variable {heap : Nat → Option β} {l l' rest : List (Nat × β)} {a c : Nat} {b e : β}

theorem perm (h : HoldsJust heap l) (hp : l.Perm l') : HoldsJust heap l' where
  nodup := (hp.map Prod.fst).nodup_iff.mp h.nodup
  mem_iff a b := (h.mem_iff a b).trans hp.mem_iff

-- The list says it all.
theorem unique {heap' : Nat → Option β} (h : HoldsJust heap l) (h' : HoldsJust heap' l) :
    heap' = heap :=
  funext fun a => Option.ext fun b => (h'.mem_iff a b).trans (h.mem_iff a b).symm

theorem load (h : HoldsJust heap l) (hmem : (a, b) ∈ l) : heap a = some b :=
  (h.mem_iff a b).mpr hmem

theorem in_use_iff (h : HoldsJust heap l) : heap a ≠ none ↔ a ∈ l.map Prod.fst := by
  constructor
  · intro hne
    obtain ⟨b, hb⟩ := Option.ne_none_iff_exists'.mp hne
    exact List.mem_map.mpr ⟨(a, b), (h.mem_iff a b).mp hb, rfl⟩
  · intro hmem
    obtain ⟨⟨a', b⟩, hin, rfl⟩ := List.mem_map.mp hmem
    rw [h.load hin]
    exact Option.some_ne_none b

theorem head_in_use (h : HoldsJust heap ((a, b) :: rest)) : heap a ≠ none :=
  h.in_use_iff.mpr (.head _)

theorem not_mem (h : HoldsJust heap l) (hfree : heap a = none) : a ∉ l.map Prod.fst :=
  fun hmem => h.in_use_iff.mpr hmem hfree

theorem ne_of_mem (h : HoldsJust heap ((a, b) :: rest)) (hmem : (c, e) ∈ rest) : c ≠ a := by
  rintro rfl
  exact (List.nodup_cons.mp h.nodup).1 (List.mem_map.mpr ⟨(c, e), hmem, rfl⟩)

theorem store (h : HoldsJust heap ((a, b) :: rest)) :
    HoldsJust (Function.update heap a (some e)) ((a, e) :: rest) where
  nodup := h.nodup
  mem_iff c d := by
    by_cases hc : c = a
    · subst hc
      rw [Function.update_self, Option.some.injEq, List.mem_cons, Prod.mk.injEq]
      constructor
      · intro heq
        exact .inl ⟨rfl, heq.symm⟩
      · rintro (⟨-, heq⟩ | hmem)
        · exact heq.symm
        · exact absurd rfl (h.ne_of_mem hmem)
    · rw [Function.update_of_ne hc, h.mem_iff, List.mem_cons, List.mem_cons, Prod.mk.injEq,
        Prod.mk.injEq]
      simp only [hc, false_and, false_or]

-- The same for a block anywhere in the list.
theorem storeAt (h : HoldsJust heap (l ++ (a, b) :: rest)) :
    HoldsJust (Function.update heap a (some e)) (l ++ (a, e) :: rest) :=
  (h.perm List.perm_middle).store.perm List.perm_middle.symm

theorem alloc (h : HoldsJust heap l) (hfree : heap a = none) :
    HoldsJust (Function.update heap a (some b)) ((a, b) :: l) where
  nodup := List.nodup_cons.mpr ⟨h.not_mem hfree, h.nodup⟩
  mem_iff c d := by
    by_cases hc : c = a
    · subst hc
      have hnot : (c, d) ∉ l := fun hmem => h.not_mem hfree (List.mem_map.mpr ⟨_, hmem, rfl⟩)
      rw [Function.update_self, Option.some.injEq, List.mem_cons, Prod.mk.injEq, or_iff_left hnot]
      simp only [true_and, eq_comm]
    · rw [Function.update_of_ne hc, h.mem_iff, List.mem_cons, Prod.mk.injEq]
      simp only [hc, false_and, false_or]

theorem free (h : HoldsJust heap ((a, b) :: rest)) :
    HoldsJust (Function.update heap a none) rest where
  nodup := (List.nodup_cons.mp h.nodup).2
  mem_iff c d := by
    by_cases hc : c = a
    · subst hc
      rw [Function.update_self]
      exact iff_of_false (fun heq => nomatch heq) fun hmem => h.ne_of_mem hmem rfl
    · rw [Function.update_of_ne hc, h.mem_iff, List.mem_cons, Prod.mk.injEq]
      simp only [hc, false_and, false_or]

end HoldsJust

end Verif
