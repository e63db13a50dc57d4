import Mathlib.Algebra.Group.Nat.Defs
import Mathlib.Data.List.Basic

namespace Verif

section Steps

variable {σ ι : Type} (step : σ → ι → Option σ)

-- Every step of a run returns, and every state that it visits satisfies `P`.
def Along (P : σ → Prop) : σ → List ι → Prop
  | s, [] => P s
  | s, i :: labels => P s ∧ ∃ t, step s i = some t ∧ Along P t labels

-- Every label of a run is admitted by the state in which it comes.
def Admitted (ok : σ → ι → Prop) : σ → List ι → Prop
  | _, [] => True
  | s, i :: labels => ok s i ∧ ∀ t, step s i = some t → Admitted ok t labels

variable {step} {P : σ → Prop} {ok : σ → ι → Prop}

theorem Along.start {s : σ} {labels : List ι} (h : Along step P s labels) : P s := by
  cases labels with
  | nil => exact h
  | cons i labels => exact h.1

-- Where one step keeps a property exactly when the label is admitted, a whole run
-- does so exactly when all its labels are.
theorem along_iff_admitted {s : σ} (labels : List ι) (hs : P s)
    (hexact : ∀ s i, P s → ((∃ t, step s i = some t ∧ P t) ↔ ok s i)) :
    Along step P s labels ↔ Admitted step ok s labels := by
  induction labels generalizing s with
  | nil => exact ⟨fun _ => trivial, fun _ => hs⟩
  | cons i labels ih =>
      constructor
      · rintro ⟨-, t, hstep, hrest⟩
        have ht := hrest.start
        refine ⟨(hexact s i hs).mp ⟨t, hstep, ht⟩, fun u hu => ?_⟩
        obtain rfl := Option.some.inj (hstep.symm.trans hu)
        exact (ih ht).mp hrest
      · rintro ⟨hok, hrest⟩
        obtain ⟨t, hstep, ht⟩ := (hexact s i hs).mpr hok
        exact ⟨hs, t, hstep, (ih ht).mpr (hrest t hstep)⟩

end Steps

end Verif
