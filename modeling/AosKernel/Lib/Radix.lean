import Mathlib.Algebra.Group.Nat.Defs
import Mathlib.Data.List.Induction
import Mathlib.Data.List.Infix
import Mathlib.Data.Set.Basic

namespace Verif.Radix

variable {A ι ε : Type}

-- Tables of entries, each table at an address of its own.
abbrev Store (A ι ε : Type) := A → ι → ε

def put [DecidableEq A] [DecidableEq ι] (m : Store A ι ε) (a : A) (i : ι) (e : ε) :
    Store A ι ε :=
  fun b j => if b = a ∧ j = i then e else m b j

-- Every entry of the table at `a` becomes `e`.
def fill [DecidableEq A] (m : Store A ι ε) (a : A) (e : ε) : Store A ι ε :=
  fun b j => if b = a then e else m b j

@[simp] theorem put_same [DecidableEq A] [DecidableEq ι] (m : Store A ι ε) (a : A) (i : ι)
    (e : ε) : put m a i e a i = e := by
  simp [put]

theorem put_other [DecidableEq A] [DecidableEq ι] (m : Store A ι ε) (a : A) (i : ι) (e : ε)
    {b : A} {j : ι} (h : ¬ (b = a ∧ j = i)) : put m a i e b j = m b j := by
  simp [put, h]

@[simp] theorem fill_same [DecidableEq A] (m : Store A ι ε) (a : A) (e : ε) (j : ι) :
    fill m a e a j = e := by
  simp [fill]

theorem fill_other [DecidableEq A] (m : Store A ι ε) (a : A) (e : ε) {b : A} (h : b ≠ a)
    (j : ι) : fill m a e b j = m b j := by
  simp [fill, h]

-- The table an entry leads to, which may depend on the depth it stands at.
variable (link : Nat → ε → Option A)

-- The table at the end of a path from the table `a` at depth `d`.
def follow (m : Store A ι ε) : Nat → A → List ι → Option A
  | _, a, [] => some a
  | d, a, i :: rest => (link d (m a i)).bind fun b => follow m (d + 1) b rest

-- The entries met along a path, up to the first that leads nowhere.
def trail (m : Store A ι ε) : Nat → A → List ι → List ε
  | _, _, [] => []
  | d, a, i :: rest =>
      m a i :: match link d (m a i) with
        | none => []
        | some b => trail m (d + 1) b rest

variable {link} {m m' : Store A ι ε} {root a b : A} {i : ι} {d : Nat} {p q r : List ι}

@[simp] theorem follow_nil : follow link m d a [] = some a := rfl

@[simp] theorem trail_nil : trail link m d a [] = [] := rfl

theorem follow_append :
    follow link m d a (p ++ q) =
      (follow link m d a p).bind fun b => follow link m (d + p.length) b q := by
  induction p generalizing d a with
  | nil => simp
  | cons i p ih =>
      simp only [List.cons_append, follow, List.length_cons]
      cases link d (m a i) with
      | none => rfl
      | some b =>
          simp only [Option.bind_some, ih]
          congr 2
          funext c
          rw [show d + 1 + p.length = d + (p.length + 1) by omega]

theorem follow_snoc :
    follow link m d a (p ++ [i]) =
      (follow link m d a p).bind fun b => link (d + p.length) (m b i) := by
  rw [follow_append]
  congr 1
  funext b
  cases h : link (d + p.length) (m b i) <;> simp [follow, h]

theorem trail_append (h : follow link m d a p = some b) :
    trail link m d a (p ++ q) = trail link m d a p ++ trail link m (d + p.length) b q := by
  induction p generalizing d a with
  | nil =>
      cases h
      simp
  | cons i p ih =>
      obtain ⟨c, hlink, hrest⟩ := Option.bind_eq_some_iff.mp h
      simp only [List.cons_append, trail, hlink, ih hrest, List.length_cons]
      rw [show d + 1 + p.length = d + (p.length + 1) by omega]

-- Paths of one length that agree as far as entries are met meet the same.
theorem trail_eq_of_take (hlen : q.length = p.length)
    (h : q.take (trail link m d a p).length = p.take (trail link m d a p).length) :
    trail link m d a q = trail link m d a p := by
  induction p generalizing d a q with
  | nil => rw [List.length_eq_zero_iff.mp hlen]
  | cons i p ih =>
      obtain ⟨j, q, rfl⟩ := List.exists_cons_of_length_eq_add_one hlen
      simp only [trail, List.length_cons, List.take_succ_cons, List.cons.injEq] at h
      obtain ⟨rfl, hrest⟩ := h
      simp only [trail, List.cons.injEq, true_and]
      cases hlink : link d (m a j) with
      | none => rfl
      | some b =>
          rw [hlink] at hrest
          exact ih (by simpa using hlen) hrest

-- A path that meets no changed entry leads to the same table over the same
-- entries.
theorem trail_congr
    (h : ∀ q i b, q ++ [i] <+: p → follow link m d a q = some b → m' b i = m b i) :
    trail link m' d a p = trail link m d a p ∧ follow link m' d a p = follow link m d a p := by
  induction p generalizing d a with
  | nil => simp
  | cons i p ih =>
      have hfirst : m' a i = m a i := h [] i a (by simp) rfl
      simp only [trail, follow, hfirst]
      cases hlink : link d (m a i) with
      | none => simp
      | some b =>
          have hrest := ih (d := d + 1) (a := b) fun q j c hq hc =>
            h (i :: q) j c (by simpa using hq) (by simpa [follow, hlink] using hc)
          simp [hrest]

-- Different paths from the root lead to different tables.
def Separated (link : Nat → ε → Option A) (m : Store A ι ε) (root : A) : Prop :=
  ∀ p q a, follow link m 0 root p = some a → follow link m 0 root q = some a → p = q

def Reached (link : Nat → ε → Option A) (m : Store A ι ε) (root a : A) : Prop :=
  ∃ p, follow link m 0 root p = some a

theorem not_prefix_of_snoc (p : List ι) (i : ι) : ¬ p ++ [i] <+: p := by
  intro h
  have := h.length_le
  rw [List.length_append, List.length_singleton] at this
  omega

-- Filling a table that no path reaches is not seen at all.
theorem fill_unreached [DecidableEq A] {e : ε} (h : ¬ Reached link m root b) :
    trail link (fill m b e) 0 root q = trail link m 0 root q ∧
      follow link (fill m b e) 0 root q = follow link m 0 root q := by
  refine trail_congr fun r j c _ hc => fill_other m b e ?_ j
  rintro rfl
  exact h ⟨r, hc⟩

section Update

variable [DecidableEq A] [DecidableEq ι] {e : ε}

-- Writing the entry at the end of `p ++ [i]` is seen only by paths through it.
theorem Separated.put_other (hsep : Separated link m root)
    (hp : follow link m 0 root p = some a) (hq : ¬ p ++ [i] <+: q) :
    trail link (put m a i e) 0 root q = trail link m 0 root q ∧
      follow link (put m a i e) 0 root q = follow link m 0 root q := by
  refine trail_congr fun r j b hr hb => Radix.put_other m a i e ?_
  rintro ⟨rfl, rfl⟩
  exact hq (hsep p r b hp hb ▸ hr)

theorem Separated.put_follow (hsep : Separated link m root)
    (hp : follow link m 0 root p = some a) :
    follow link (put m a i e) 0 root p = some a := by
  rw [(hsep.put_other hp (not_prefix_of_snoc p i)).2, hp]

-- An entry that leads nowhere ends every path through it.
theorem Separated.put_end (hsep : Separated link m root)
    (hp : follow link m 0 root p = some a) (hend : link p.length e = none) :
    follow link (put m a i e) 0 root (p ++ i :: r) = none ∧
      trail link (put m a i e) 0 root (p ++ i :: r) = trail link m 0 root p ++ [e] := by
  have hput := hsep.put_follow (i := i) (e := e) hp
  have hsame := (hsep.put_other (e := e) hp (not_prefix_of_snoc p i)).1
  constructor
  · rw [follow_append, hput]
    simp [follow, hend]
  · rw [trail_append hput, hsame]
    simp [trail, hend]

theorem Separated.put_end_separated (hsep : Separated link m root)
    (hp : follow link m 0 root p = some a) (hend : link p.length e = none) :
    Separated link (put m a i e) root := by
  have hback : ∀ q b, follow link (put m a i e) 0 root q = some b →
      follow link m 0 root q = some b := by
    intro q b hq
    by_cases hpre : p ++ [i] <+: q
    · obtain ⟨r, rfl⟩ := hpre
      rw [List.append_assoc, List.singleton_append, (hsep.put_end hp hend).1] at hq
      cases hq
    · rw [(hsep.put_other hp hpre).2] at hq
      exact hq
  intro q r b hq hr
  exact hsep q r b (hback q b hq) (hback r b hr)

-- What the paths see after an entry that led nowhere is made to lead to the
-- table at `b`, which no path reached and which leads nowhere itself.
theorem Separated.put_link (hsep : Separated link m root)
    (hp : follow link m 0 root p = some a) (hold : link p.length (m a i) = none)
    (hnew : link p.length e = some b) (hfresh : ¬ Reached link m root b)
    (hempty : ∀ j, link (p.length + 1) (m b j) = none) {c : A} :
    follow link (put m a i e) 0 root q = some c ↔
      (q = p ++ [i] ∧ c = b) ∨ follow link m 0 root q = some c := by
  have hput := hsep.put_follow (i := i) (e := e) hp
  by_cases hpre : p ++ [i] <+: q
  · obtain ⟨r, rfl⟩ := hpre
    have hne : ∀ j, ¬ (b = a ∧ j = i) := by
      rintro j ⟨rfl, -⟩
      exact hfresh ⟨p, hp⟩
    have hb : follow link (put m a i e) 0 root (p ++ [i]) = some b := by
      rw [follow_snoc, hput]
      simpa using hnew
    have hm : follow link m 0 root (p ++ [i] ++ r) = none := by
      rw [follow_append, follow_snoc, hp]
      simp [hold]
    rw [follow_append, hb, hm]
    cases r with
    | nil => simp [eq_comm]
    | cons j r =>
        have hj : link (p.length + 1) (put m a i e b j) = none := by
          rw [Radix.put_other m a i e (hne j)]
          exact hempty j
        simp [follow, hj]
  · rw [(hsep.put_other hp hpre).2]
    constructor
    · exact Or.inr
    · rintro (⟨rfl, -⟩ | h)
      · exact absurd (List.prefix_refl _) hpre
      · exact h

theorem Separated.put_link_separated (hsep : Separated link m root)
    (hp : follow link m 0 root p = some a) (hold : link p.length (m a i) = none)
    (hnew : link p.length e = some b) (hfresh : ¬ Reached link m root b)
    (hempty : ∀ j, link (p.length + 1) (m b j) = none) :
    Separated link (put m a i e) root := by
  intro q r c hq hr
  rw [hsep.put_link hp hold hnew hfresh hempty] at hq hr
  rcases hq with ⟨hq, hc⟩ | hq <;> rcases hr with ⟨hr, hc'⟩ | hr
  · exact hq.trans hr.symm
  · exact absurd ⟨r, hc ▸ hr⟩ hfresh
  · exact absurd ⟨q, hc' ▸ hq⟩ hfresh
  · exact hsep q r c hq hr

-- A path through the new link meets it and then one entry of the new table.
theorem Separated.put_link_trail (hsep : Separated link m root)
    (hp : follow link m 0 root p = some a) (hnew : link p.length e = some b)
    (hfresh : ¬ Reached link m root b) (hempty : ∀ j, link (p.length + 1) (m b j) = none)
    (j : ι) :
    trail link (put m a i e) 0 root (p ++ i :: j :: r) = trail link m 0 root p ++ [e, m b j] := by
  have hput := hsep.put_follow (i := i) (e := e) hp
  have hsame := (hsep.put_other (e := e) hp (not_prefix_of_snoc p i)).1
  have hne : ¬ (b = a ∧ j = i) := by
    rintro ⟨rfl, -⟩
    exact hfresh ⟨p, hp⟩
  rw [trail_append hput, hsame]
  simp [trail, hnew, Radix.put_other m a i e hne, hempty j]

end Update

end Verif.Radix
