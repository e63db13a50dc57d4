import Mathlib.Algebra.Group.Nat.Defs
import Mathlib.Data.Finset.Card
import Mathlib.Data.Nat.Find
import Mathlib.Logic.Function.Iterate

namespace Verif

variable {α : Type} {n : Nat} {code : α → Nat} {f : α → α} {p : α → Prop}

-- Among the first `n + 1` places of an orbit two are the same, where there are `n` places.
theorem orbit_repeats (hinj : Function.Injective code) (hlt : ∀ a, code a < n) (f : α → α) (a : α) :
    ∃ i j, i < j ∧ j ≤ n ∧ f^[i] a = f^[j] a := by
  have hmaps : ∀ k ∈ Finset.range (n + 1), code (f^[k] a) ∈ Finset.range n :=
    fun k _ => Finset.mem_range.mpr (hlt _)
  have hcard : (Finset.range n).card < (Finset.range (n + 1)).card := by
    rw [Finset.card_range, Finset.card_range]
    exact Nat.lt_succ_self n
  obtain ⟨i, hi, j, hj, hne, hsame⟩ := Finset.exists_ne_map_eq_of_card_lt_of_maps_to hcard hmaps
  have hplace := hinj hsame
  rw [Finset.mem_range] at hi hj
  rcases Nat.lt_or_gt_of_ne hne with hij | hji
  · exact ⟨i, j, hij, Nat.le_of_lt_succ hj, hplace⟩
  · exact ⟨j, i, hji, Nat.le_of_lt_succ hi, hplace.symm⟩

-- What an orbit comes to at all, it comes to before it repeats.
theorem orbit_stops (hinj : Function.Injective code) (hlt : ∀ a, code a < n) {a : α}
    (h : ∃ k, p (f^[k] a)) : ∃ k < n, p (f^[k] a) := by
  classical
  by_cases hearly : Nat.find h < n
  · exact ⟨_, hearly, Nat.find_spec h⟩
  obtain ⟨i, j, hij, hj, hplace⟩ := orbit_repeats hinj hlt f a
  have hshort : f^[Nat.find h - j + i] a = f^[Nat.find h] a := by
    rw [Function.iterate_add_apply, hplace, ← Function.iterate_add_apply,
      Nat.sub_add_cancel (Nat.le_trans hj (Nat.le_of_not_lt hearly))]
  have hstops : p (f^[Nat.find h - j + i] a) := by
    rw [hshort]
    exact Nat.find_spec h
  exact absurd hstops (Nat.find_min h (by omega))

end Verif
