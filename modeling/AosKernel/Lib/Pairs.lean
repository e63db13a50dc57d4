import Mathlib.Algebra.Group.Nat.Defs
import Mathlib.Data.List.Forall2

namespace Verif

variable {α β γ δ : Type} {R : α → β → Prop} {S : β → γ → Prop} {as : List α} {bs : List β}
  {cs : List γ}

-- Each element on one side has its partner on the other.
theorem forall₂_partner_right (h : List.Forall₂ R as bs) {b : β} (hb : b ∈ bs) :
    ∃ a ∈ as, R a b := by
  induction h with
  | nil => cases hb
  | cons hfirst _ ih =>
      rcases List.mem_cons.mp hb with rfl | hb
      · exact ⟨_, List.mem_cons_self, hfirst⟩
      · obtain ⟨a, ha, hR⟩ := ih hb
        exact ⟨a, List.mem_cons_of_mem _ ha, hR⟩

theorem forall₂_partner_left (h : List.Forall₂ R as bs) {a : α} (ha : a ∈ as) :
    ∃ b ∈ bs, R a b :=
  forall₂_partner_right h.flip ha

theorem forall₂_map_eq {f : α → δ} {g : β → δ} (h : List.Forall₂ R as bs)
    (hfg : ∀ a ∈ as, ∀ b, R a b → f a = g b) : as.map f = bs.map g := by
  induction h with
  | nil => rfl
  | cons hfirst _ ih =>
      rw [List.map_cons, List.map_cons, hfg _ List.mem_cons_self _ hfirst,
        ih fun a ha => hfg a (List.mem_cons_of_mem _ ha)]

-- What two lists make together is matched with a third one through the first of them.
theorem forall₂_zipWith {f : β → γ → δ} (h : List.Forall₂ R as bs) (h' : List.Forall₂ S bs cs) :
    List.Forall₂ (fun a d => ∃ b c, R a b ∧ S b c ∧ d = f b c) as (List.zipWith f bs cs) := by
  induction h generalizing cs with
  | nil =>
      rw [List.zipWith_nil_left]
      exact .nil
  | cons hfirst _ ih =>
      cases h' with
      | cons hsecond hrest =>
          rw [List.zipWith_cons_cons]
          exact .cons ⟨_, _, hfirst, hsecond, rfl⟩ (ih hrest)

end Verif
