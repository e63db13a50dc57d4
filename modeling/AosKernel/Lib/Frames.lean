import Mathlib.Algebra.Group.Nat.Defs
import Mathlib.Data.List.Basic

namespace Verif

variable {α : Type}

-- A list read as records: a header, and behind it as many items as the header says.
def framesWithin (len : α → Nat) : Nat → List α → Option (List (α × List α))
  | _, [] => some []
  | 0, _ :: _ => none
  | fuel + 1, h :: rest =>
      if len h ≤ rest.length then
        (framesWithin len fuel (rest.drop (len h))).map ((h, rest.take (len h)) :: ·)
      else none

def frames (len : α → Nat) (l : List α) : Option (List (α × List α)) :=
  framesWithin len l.length l

def unframe (fs : List (α × List α)) : List α := fs.flatMap fun f => f.1 :: f.2

@[simp] theorem unframe_nil : unframe ([] : List (α × List α)) = [] := rfl

@[simp] theorem unframe_cons (f : α × List α) (fs : List (α × List α)) :
    unframe (f :: fs) = f.1 :: (f.2 ++ unframe fs) := rfl

theorem unframe_append (fs gs : List (α × List α)) :
    unframe (fs ++ gs) = unframe fs ++ unframe gs :=
  List.flatMap_append

theorem unframe_flatten (fss : List (List (α × List α))) :
    unframe fss.flatten = (fss.map unframe).flatten := by
  induction fss with
  | nil => rfl
  | cons fs fss ih => rw [List.flatten_cons, unframe_append, ih, List.map_cons, List.flatten_cons]

theorem framesWithin_unframe {len : α → Nat} {fs : List (α × List α)}
    (hlen : ∀ f ∈ fs, f.2.length = len f.1) {fuel : Nat} (hfuel : (unframe fs).length ≤ fuel) :
    framesWithin len fuel (unframe fs) = some fs := by
  induction fs generalizing fuel with
  | nil => cases fuel <;> rfl
  | cons f fs ih =>
      obtain ⟨hf, hfs⟩ := List.forall_mem_cons.mp hlen
      rw [unframe_cons, List.length_cons, List.length_append] at hfuel
      obtain ⟨fuel, rfl⟩ := Nat.exists_eq_add_one.mpr (show 0 < fuel by omega)
      rw [unframe_cons, framesWithin, ← hf, if_pos (by rw [List.length_append]; omega),
        List.drop_left, List.take_left, ih hfs (by omega)]
      rfl

-- Records whose headers tell their lengths are read back.
theorem frames_unframe {len : α → Nat} {fs : List (α × List α)}
    (hlen : ∀ f ∈ fs, f.2.length = len f.1) : frames len (unframe fs) = some fs :=
  framesWithin_unframe hlen (Nat.le_refl _)

end Verif
