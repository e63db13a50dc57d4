import Mathlib.Algebra.Group.Nat.Defs
import Mathlib.Data.List.Basic

namespace Verif.FirstMatch

variable {σ α β γ : Type}

-- Answers `v` from every state `P` holds of, and keeps `P`.
def Answers (P : σ → Prop) (m : StateM σ α) (v : α) : Prop :=
  ∀ s, P s → (m s).1 = v ∧ P (m s).2

section Loops

variable {P : σ → Prop} {m : StateM σ α} {v : α}

theorem Answers.pure (P : σ → Prop) (v : α) : Answers P (pure v : StateM σ α) v :=
  fun _ hs => ⟨rfl, hs⟩

theorem Answers.bind {f : α → StateM σ β} {w : β} (hm : Answers P m v) (hf : Answers P (f v) w) :
    Answers P (m >>= f) w := by
  intro s hs
  obtain ⟨hv, hs'⟩ := hm s hs
  have hrest := hf _ hs'
  rw [← hv] at hrest
  exact hrest

end Loops

-- The first in the list with the property.
def FirstIn (p : α → Prop) (xs : List α) (x : α) : Prop :=
  p x ∧ ∃ before after, xs = before ++ x :: after ∧ ∀ y ∈ before, ¬ p y

namespace FirstIn

variable {p : α → Prop} {xs : List α} {x : α}

theorem mem (h : FirstIn p xs x) : x ∈ xs := by
  obtain ⟨-, before, after, rfl, -⟩ := h
  exact List.mem_append_right _ List.mem_cons_self

end FirstIn

end Verif.FirstMatch
