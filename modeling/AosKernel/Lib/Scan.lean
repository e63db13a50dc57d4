import Mathlib.Data.List.Infix
import AosKernel.Lib.Exec

namespace Verif

open Exec

variable {ε α β γ : Type}

-- Code that moves through the data. At the place `p` it reads what `G` says: where a code
-- that stands for `a` starts there it returns `a` and moves behind the code, and where
-- none starts it refuses.
structure Scans (data : List γ) (refused : ε) (m : Exec ε Nat α) (G : Nat → List γ → α → Prop)
    (p : Nat) : Prop where
  complete : ∀ code a, G p code a → code <+: data.drop p → Returns m p a (p + code.length)
  sound : Sat m p (fun a q => ∃ code, G p code a ∧ code <+: data.drop p ∧ q = p + code.length)
    (· = refused)

-- A code of one kind and behind it one of another, which may depend on what was read.
def Follows (G : Nat → List γ → α → Prop) (H : α → Nat → List γ → β → Prop) (p : Nat)
    (code : List γ) (b : β) : Prop :=
  ∃ front a back, G p front a ∧ H a (p + front.length) back b ∧ code = front ++ back

variable {data : List γ} {refused : ε} {m : Exec ε Nat α} {f : α → Exec ε Nat β}
  {G G' : Nat → List γ → α → Prop} {H : α → Nat → List γ → β → Prop} {p q : Nat} {a a' : α}
  {code code' : List γ}

namespace Scans

theorem returns_iff (h : Scans data refused m G p) : Returns m p a q ↔
    ∃ code, G p code a ∧ code <+: data.drop p ∧ q = p + code.length := by
  refine ⟨fun hret => h.sound.of_returns hret, ?_⟩
  rintro ⟨code, hcode, hstarts, rfl⟩
  exact h.complete code a hcode hstarts

theorem stops_eq {e : ε} (h : Scans data refused m G p) (hstop : Stops m p e) : e = refused :=
  h.sound.of_stops hstop

-- Where no code starts the reader refuses.
theorem refuses (h : Scans data refused m G p) (hnone : ∀ code a, G p code a →
    ¬ code <+: data.drop p) : Stops m p refused := by
  rcases h.sound.returns_or_stops with ⟨a, q, _, code, hcode, hstarts, _⟩ | ⟨e, hstop, rfl⟩
  · exact absurd hstarts (hnone code a hcode)
  · exact hstop

-- At one place at most one code starts.
theorem code_unique (h : Scans data refused m G p) (hcode : G p code a)
    (hstarts : code <+: data.drop p) (hcode' : G p code' a') (hstarts' : code' <+: data.drop p) :
    code = code' := by
  have hlength := (returns_unique (h.complete code a hcode hstarts)
    (h.complete code' a' hcode' hstarts')).2
  exact (List.prefix_of_prefix_length_le hstarts hstarts' (by omega)).eq_of_length (by omega)

-- Only the codes that start there matter.
theorem congr_here (h : Scans data refused m G p)
    (hG : ∀ code a, code <+: data.drop p → (G p code a ↔ G' p code a)) :
    Scans data refused m G' p where
  complete code a hcode hstarts := h.complete code a ((hG code a hstarts).mpr hcode) hstarts
  sound := h.sound.imp fun a _ ⟨code, hcode, hstarts, hq⟩ =>
    ⟨code, (hG code a hstarts).mp hcode, hstarts, hq⟩

theorem congr (h : Scans data refused m G p) (hG : ∀ code a, G p code a ↔ G' p code a) :
    Scans data refused m G' p :=
  h.congr_here fun code a _ => hG code a

theorem pure (a : α) :
    Scans data refused (pure a : Exec ε Nat α) (fun _ code b => code = [] ∧ b = a) p where
  complete := by
    rintro code b ⟨rfl, rfl⟩ _
    rfl
  sound := ⟨[], ⟨rfl, rfl⟩, List.nil_prefix, rfl⟩

-- Looking at the place itself.
theorem place : Scans data refused (get : Exec ε Nat Nat) (fun p code q => code = [] ∧ q = p) p where
  complete := by
    rintro code q ⟨rfl, rfl⟩ _
    rfl
  sound := ⟨[], ⟨rfl, rfl⟩, List.nil_prefix, rfl⟩

theorem throw : Scans data refused (throw refused : Exec ε Nat α) (fun _ _ _ => False) p where
  complete := fun _ _ h => h.elim
  sound := rfl

-- A check before the rest.
theorem checked {c : Prop} [Decidable c] (h : ¬ c → Scans data refused m G p) :
    Scans data refused (if c then MonadExcept.throw refused else m)
      (fun p code a => ¬ c ∧ G p code a) p := by
  by_cases hc : c
  · rw [if_pos hc]
    exact throw.congr fun code a => iff_of_false not_false fun h => h.1 hc
  · rw [if_neg hc]
    exact (h hc).congr fun code a => (and_iff_right hc).symm

theorem bind (h : Scans data refused m G p)
    (hf : ∀ code a, G p code a → code <+: data.drop p →
      Scans data refused (f a) (H a) (p + code.length)) :
    Scans data refused (m >>= f) (Follows G H) p where
  complete := by
    rintro _ b ⟨front, a, back, hfront, hback, rfl⟩ hstarts
    have hstart : front <+: data.drop p := (List.prefix_append front back).trans hstarts
    have hend : back <+: data.drop (p + front.length) := by
      obtain ⟨rest, hrest⟩ := hstarts
      rw [← List.drop_drop, ← hrest, List.append_assoc, List.drop_left]
      exact List.prefix_append back rest
    refine returns_bind.mpr ⟨a, _, h.complete front a hfront hstart, ?_⟩
    rw [List.length_append, ← Nat.add_assoc]
    exact (hf front a hfront hstart).complete back b hback hend
  sound := by
    refine h.sound.bind ?_
    rintro a q ⟨front, hfront, hstart, rfl⟩
    refine (hf front a hfront hstart).sound.imp ?_
    rintro b q ⟨back, hback, hend, rfl⟩
    refine ⟨front ++ back, ⟨front, a, back, hfront, hback, rfl⟩, ?_, ?_⟩
    · obtain ⟨rest, hrest⟩ := hstart
      rw [← hrest]
      rw [← List.drop_drop, ← hrest, List.drop_left] at hend
      exact (List.prefix_append_right_inj front).mpr hend
    · rw [List.length_append, Nat.add_assoc]

end Scans

end Verif
