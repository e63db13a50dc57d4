import Mathlib.Data.List.Nodup
import Mathlib.Data.List.Range

namespace Verif

variable {β : Type} {f g : Nat → β} {n k : Nat}

-- Two maps that differ at one number only list the same values besides.
theorem exists_map_range_perm (hk : k < n) (hsame : ∀ h < n, h ≠ k → g h = f h) :
    ∃ l, ((List.range n).map f).Perm (f k :: l) ∧ ((List.range n).map g).Perm (g k :: l) := by
  have hperm := List.perm_cons_erase (List.mem_range.mpr hk)
  refine ⟨((List.range n).erase k).map f, hperm.map f, ?_⟩
  have hrest : ((List.range n).erase k).map g = ((List.range n).erase k).map f := by
    refine List.map_congr_left fun h hh => ?_
    obtain ⟨hne, hmem⟩ := (List.nodup_range.mem_erase_iff).mp hh
    exact hsame h (List.mem_range.mp hmem) hne
  rw [← hrest]
  exact hperm.map g

end Verif
