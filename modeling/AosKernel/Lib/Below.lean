import AosKernel.Lib.Radix
import Mathlib.Data.List.Nodup

namespace Verif.Radix

variable {A ι ε : Type} (link : Nat → ε → Option A)

-- The tables at the ends of the paths of at most `n` indices out of `is`, each
-- behind the tables below it.
def below (m : Store A ι ε) (is : List ι) : Nat → Nat → A → List A
  | 0, _, a => [a]
  | n + 1, d, a => is.flatMap (fun i => (link d (m a i)).toList.flatMap (below m is n (d + 1))) ++ [a]

-- Those of them that the entries `js` of the table at `a` lead to.
def branches (m : Store A ι ε) (is js : List ι) (n d : Nat) (a : A) : List A :=
  js.flatMap fun j => (link d (m a j)).toList.flatMap (below link m is n (d + 1))

variable {link} {m m' : Store A ι ε} {is js : List ι} {n d : Nat} {a b : A} {i : ι}

theorem below_succ :
    below link m is (n + 1) d a = branches link m is is n d a ++ [a] := rfl

@[simp] theorem branches_nil : branches link m is [] n d a = [] := rfl

theorem mem_branches : b ∈ branches link m is js n d a ↔
    ∃ j ∈ js, ∃ c, link d (m a j) = some c ∧ b ∈ below link m is n (d + 1) c := by
  simp only [branches, List.mem_flatMap, Option.mem_toList]

theorem mem_below : b ∈ below link m is n d a ↔
    ∃ p : List ι, p.length ≤ n ∧ (∀ i ∈ p, i ∈ is) ∧ follow link m d a p = some b := by
  induction n generalizing d a with
  | zero =>
      constructor
      · intro hb
        exact ⟨[], Nat.le_refl 0, nofun, congrArg some (List.mem_singleton.mp hb).symm⟩
      · rintro ⟨p, hp, -, hb⟩
        obtain rfl := List.length_eq_zero_iff.mp (Nat.le_zero.mp hp)
        exact List.mem_singleton.mpr (Option.some.inj hb).symm
  | succ n ih =>
      rw [below_succ, List.mem_append, List.mem_singleton, mem_branches]
      constructor
      · rintro (⟨i, hi, c, hc, hb⟩ | rfl)
        · obtain ⟨p, hlen, hp, hb⟩ := ih.mp hb
          refine ⟨i :: p, Nat.succ_le_succ hlen, List.forall_mem_cons.mpr ⟨hi, hp⟩, ?_⟩
          rw [follow, hc, Option.bind_some, hb]
        · exact ⟨[], Nat.zero_le _, nofun, rfl⟩
      · rintro ⟨p, hlen, hp, hb⟩
        cases p with
        | nil => exact .inr (Option.some.inj hb).symm
        | cons i p =>
            obtain ⟨hi, hp⟩ := List.forall_mem_cons.mp hp
            obtain ⟨c, hc, hb⟩ := Option.bind_eq_some_iff.mp hb
            exact .inl ⟨i, hi, c, hc, ih.mpr ⟨p, Nat.le_of_succ_le_succ hlen, hp, hb⟩⟩

theorem self_mem_below : a ∈ below link m is n d a :=
  mem_below.mpr ⟨[], Nat.zero_le n, nofun, rfl⟩

-- Only the entries of the tables it lists are looked at.
theorem below_congr (h : ∀ b ∈ below link m is n d a, m' b = m b) :
    below link m' is n d a = below link m is n d a := by
  induction n generalizing d a with
  | zero => rfl
  | succ n ih =>
      rw [below_succ, below_succ, branches, branches, h a self_mem_below]
      refine congrArg (· ++ [a]) (List.flatMap_congr fun i hi => ?_)
      refine List.flatMap_congr fun c hc => ih fun b hb => h b ?_
      rw [below_succ, List.mem_append, mem_branches]
      exact .inl ⟨i, hi, c, Option.mem_toList.mp hc, hb⟩

-- Different paths from the table at `a` lead to different tables.
def SeparatedFrom (link : Nat → ε → Option A) (m : Store A ι ε) (d : Nat) (a : A) : Prop :=
  ∀ p q b, follow link m d a p = some b → follow link m d a q = some b → p = q

namespace SeparatedFrom

theorem child (h : SeparatedFrom link m d a) (hb : link d (m a i) = some b) :
    SeparatedFrom link m (d + 1) b := by
  intro p q c hp hq
  have hcons {r : List ι} (hr : follow link m (d + 1) b r = some c) :
      follow link m d a (i :: r) = some c := by
    rw [follow, hb, Option.bind_some, hr]
  exact (List.cons.inj (h (i :: p) (i :: q) c (hcons hp) (hcons hq))).2

-- A table is not below itself.
theorem not_mem_child (h : SeparatedFrom link m d a) (hb : link d (m a i) = some b) :
    a ∉ below link m is n (d + 1) b := by
  intro hmem
  obtain ⟨p, -, -, hp⟩ := mem_below.mp hmem
  have hcons : follow link m d a (i :: p) = some a := by
    rw [follow, hb, Option.bind_some, hp]
  cases h (i :: p) [] a hcons rfl

theorem disjoint (h : SeparatedFrom link m d a) {j : ι} {c : A} (hne : i ≠ j)
    (hb : link d (m a i) = some b) (hc : link d (m a j) = some c) :
    List.Disjoint (below link m is n (d + 1) b) (below link m is n (d + 1) c) := by
  intro x hx hy
  obtain ⟨p, -, -, hp⟩ := mem_below.mp hx
  obtain ⟨q, -, -, hq⟩ := mem_below.mp hy
  have hpath : follow link m d a (i :: p) = some x := by
    rw [follow, hb, Option.bind_some, hp]
  have hpath' : follow link m d a (j :: q) = some x := by
    rw [follow, hc, Option.bind_some, hq]
  exact hne (List.cons.inj (h _ _ x hpath hpath')).1

theorem nodup (h : SeparatedFrom link m d a) (his : is.Nodup) :
    (below link m is n d a).Nodup := by
  induction n generalizing d a with
  | zero => exact List.nodup_singleton a
  | succ n ih =>
      rw [below_succ, List.nodup_append]
      refine ⟨List.nodup_flatMap.mpr ⟨fun i _ => ?_, ?_⟩, List.nodup_singleton a, ?_⟩
      · cases hlink : link d (m a i) with
        | none => exact List.nodup_nil
        | some b =>
            rw [Option.toList_some, List.flatMap_singleton]
            exact ih (h.child hlink)
      · refine his.imp fun {i j} hne x hx hy => ?_
        obtain ⟨b, hb, hx⟩ := List.mem_flatMap.mp hx
        obtain ⟨c, hc, hy⟩ := List.mem_flatMap.mp hy
        exact h.disjoint hne (Option.mem_toList.mp hb) (Option.mem_toList.mp hc) hx hy
      · intro x hx y hy hxy
        obtain rfl := List.mem_singleton.mp hy
        obtain ⟨i, -, c, hc, hx⟩ := mem_branches.mp hx
        exact h.not_mem_child hc (hxy ▸ hx)

end SeparatedFrom

end Verif.Radix
