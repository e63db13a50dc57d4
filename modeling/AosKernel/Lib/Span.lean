import Mathlib.Algebra.GroupWithZero.Nat
import Mathlib.Algebra.Group.Nat.Defs
import Mathlib.Data.List.Count
import Mathlib.Data.List.Pairwise
import Mathlib.Order.Interval.Set.Disjoint

namespace Verif

-- The half-open range `[base, base + size)` of natural numbers.
structure Span where
  base : Nat
  size : Nat
  deriving DecidableEq, Repr

namespace Span

def limit (s : Span) : Nat := s.base + s.size

def Mem (x : Nat) (s : Span) : Prop := s.base ≤ x ∧ x < s.base + s.size

instance (x : Nat) (s : Span) : Decidable (Mem x s) := by unfold Mem; infer_instance

def points (s : Span) : Set Nat := {x | Mem x s}

def Apart (s t : Span) : Prop := ∀ x, Mem x s → ¬ Mem x t

def Inside (s t : Span) : Prop := t.base ≤ s.base ∧ s.limit ≤ t.limit

theorem Apart.symm {s t : Span} (h : Apart s t) : Apart t s := fun x ht hs => h x hs ht

theorem Inside.mem {s t : Span} (h : Inside s t) {x : Nat} (hx : Mem x s) : Mem x t :=
  ⟨Nat.le_trans h.1 hx.1, Nat.lt_of_lt_of_le hx.2 h.2⟩

theorem Apart.inside {s t s' t' : Span} (h : Apart s t) (hs : Inside s' s) (ht : Inside t' t) :
    Apart s' t' :=
  fun x hx ht' => h x (hs.mem hx) (ht.mem ht')

-- Of two spans that are apart one ends before the other begins.
theorem apart_iff {s t : Span} (hs : 0 < s.size) (ht : 0 < t.size) :
    Apart s t ↔ s.limit ≤ t.base ∨ t.limit ≤ s.base := by
  simp only [Apart, Mem, limit]
  constructor
  · intro h
    by_contra hno
    have hlow := h s.base
    have hhigh := h t.base
    omega
  · intro h x
    omega

theorem apart_cases {s t : Span} :
    Apart s t ↔ s.size = 0 ∨ t.size = 0 ∨ s.limit ≤ t.base ∨ t.limit ≤ s.base := by
  obtain hs | hs := Nat.eq_zero_or_pos s.size
  · simp only [Apart, Mem, hs, true_or, iff_true]
    omega
  obtain ht | ht := Nat.eq_zero_or_pos t.size
  · simp only [Apart, Mem, ht, true_or, or_true, iff_true]
    omega
  rw [apart_iff hs ht, or_iff_right (Nat.ne_of_gt hs), or_iff_right (Nat.ne_of_gt ht)]

instance (s t : Span) : Decidable (Apart s t) := decidable_of_iff' _ apart_cases

-- How many of the spans hold `x`.
def cover : List Span → Nat → Nat
  | [], _ => 0
  | s :: rest, x => (if Mem x s then 1 else 0) + cover rest x

@[simp] theorem cover_nil (x : Nat) : cover [] x = 0 := rfl

@[simp] theorem cover_cons (s : Span) (rest : List Span) (x : Nat) :
    cover (s :: rest) x = (if Mem x s then 1 else 0) + cover rest x := rfl

@[simp] theorem cover_append (l r : List Span) (x : Nat) :
    cover (l ++ r) x = cover l x + cover r x := by
  induction l with
  | nil => simp
  | cons s l ih => simp [ih, Nat.add_assoc]

theorem cover_perm {l r : List Span} (h : l.Perm r) (x : Nat) : cover l x = cover r x := by
  induction h with
  | nil => rfl
  | cons s _ ih => simp [ih]
  | swap s t l => simp; omega
  | trans _ _ ih ih' => exact ih.trans ih'

theorem cover_pos_iff (l : List Span) (x : Nat) : 0 < cover l x ↔ ∃ s ∈ l, Mem x s := by
  induction l with
  | nil => simp
  | cons s l ih =>
      simp only [cover_cons, List.mem_cons, exists_eq_or_imp, ← ih]
      by_cases h : Mem x s
      · rw [if_pos h]
        exact ⟨fun _ => .inl h, fun _ => by omega⟩
      · simp [h]

theorem one_le_cover_of_mem {l : List Span} {s : Span} {x : Nat} (hs : s ∈ l) (hx : Mem x s) :
    1 ≤ cover l x :=
  (cover_pos_iff l x).mpr ⟨s, hs, hx⟩

-- Cutting a span in two keeps the count of every point.
theorem mem_cut (base size cut x : Nat) (h : cut ≤ size) :
    (if Mem x ⟨base, cut⟩ then 1 else 0) + (if Mem x ⟨base + cut, size - cut⟩ then 1 else 0) =
      if Mem x ⟨base, size⟩ then 1 else 0 := by
  by_cases hlow : Mem x ⟨base, cut⟩ <;> by_cases hhigh : Mem x ⟨base + cut, size - cut⟩ <;>
    by_cases hall : Mem x ⟨base, size⟩ <;> simp only [hlow, hhigh, hall, if_true, if_false] <;>
    simp only [Mem] at hlow hhigh hall <;> omega

theorem not_mem_empty (base x : Nat) : ¬ Mem x ⟨base, 0⟩ := by
  simp only [Mem]
  omega

-- The spans of `l` are non-empty, do not overlap and fill exactly `[lo, hi)`.
structure Tiles (l : List Span) (lo hi : Nat) : Prop where
  size_pos : ∀ s ∈ l, 0 < s.size
  apart : l.Pairwise Apart
  union : ∀ x, (∃ s ∈ l, Mem x s) ↔ lo ≤ x ∧ x < hi

-- No point is counted twice.
theorem pairwise_apart_of_cover_le_one {l : List Span} (h : ∀ x, cover l x ≤ 1) :
    l.Pairwise Apart := by
  induction l with
  | nil => exact List.Pairwise.nil
  | cons s l ih =>
      refine List.Pairwise.cons ?_ (ih fun x => ?_)
      · intro t ht x hs hx
        have hle := h x
        have hone := one_le_cover_of_mem ht hx
        simp only [cover_cons, hs, if_true] at hle
        omega
      · have hle := h x
        simp only [cover_cons] at hle
        omega

theorem cover_le_one_of_pairwise_apart {l : List Span} (h : l.Pairwise Apart) (x : Nat) :
    cover l x ≤ 1 := by
  induction l with
  | nil => simp
  | cons s l ih =>
      obtain ⟨hs, hl⟩ := List.pairwise_cons.mp h
      have hle := ih hl
      by_cases hx : Mem x s
      · have hzero : cover l x = 0 := by
          by_contra hne
          obtain ⟨t, ht, hxt⟩ := (cover_pos_iff l x).mp (Nat.pos_of_ne_zero hne)
          exact hs t ht x hx hxt
        simp [hx, hzero]
      · simpa [hx] using hle

theorem tiles_iff_cover (l : List Span) (lo hi : Nat) :
    Tiles l lo hi ↔
      (∀ s ∈ l, 0 < s.size) ∧ ∀ x, cover l x = if lo ≤ x ∧ x < hi then 1 else 0 := by
  constructor
  · intro h
    refine ⟨h.size_pos, fun x => ?_⟩
    have hle := cover_le_one_of_pairwise_apart h.apart x
    have hiff := (cover_pos_iff l x).trans (h.union x)
    split
    · have := hiff.mpr ‹_›
      omega
    · by_contra hne
      exact ‹¬ _› (hiff.mp (by omega))
  · rintro ⟨hpos, hcover⟩
    refine ⟨hpos, pairwise_apart_of_cover_le_one fun x => ?_, fun x => ?_⟩
    · rw [hcover x]
      split <;> omega
    · rw [← cover_pos_iff, hcover x]
      split <;> simp_all

theorem tiles_singleton {lo hi : Nat} (h : lo < hi) : Tiles [⟨lo, hi - lo⟩] lo hi := by
  refine ⟨?_, List.pairwise_singleton _ _, fun x => ?_⟩
  · simp only [List.mem_singleton, forall_eq]
    omega
  · simp only [List.mem_singleton, exists_eq_left, Mem]
    omega

theorem Tiles.cover_eq {l : List Span} {lo hi : Nat} (h : Tiles l lo hi) (x : Nat) :
    cover l x = if lo ≤ x ∧ x < hi then 1 else 0 :=
  ((tiles_iff_cover l lo hi).mp h).2 x

-- Cutting and joining spans, or moving them about, keeps a tiling.
theorem Tiles.recut {l l' : List Span} {lo hi : Nat} (h : Tiles l lo hi)
    (hpos : ∀ s ∈ l', 0 < s.size) (hcover : ∀ x, cover l' x = cover l x) : Tiles l' lo hi :=
  (tiles_iff_cover l' lo hi).mpr ⟨hpos, fun x => (hcover x).trans (h.cover_eq x)⟩

theorem Tiles.perm {l l' : List Span} {lo hi : Nat} (h : Tiles l lo hi) (hp : l.Perm l') :
    Tiles l' lo hi :=
  h.recut (fun s hs => h.size_pos s (hp.mem_iff.mpr hs)) fun x => (cover_perm hp x).symm

theorem Tiles.lo_le {l : List Span} {lo hi : Nat} (h : Tiles l lo hi) {s : Span} (hs : s ∈ l) :
    lo ≤ s.base := by
  have hpos := h.size_pos s hs
  exact ((h.union s.base).mp ⟨s, hs, by simp only [Mem]; omega⟩).1

theorem Tiles.le_hi {l : List Span} {lo hi : Nat} (h : Tiles l lo hi) {s : Span} (hs : s ∈ l) :
    s.base + s.size ≤ hi := by
  have hpos := h.size_pos s hs
  have hlast := ((h.union (s.base + s.size - 1)).mp ⟨s, hs, by simp only [Mem]; omega⟩).2
  omega

-- The total length of the spans.
def total (l : List Span) : Nat := (l.map Span.size).sum

@[simp] theorem total_nil : total [] = 0 := rfl

@[simp] theorem total_cons (s : Span) (l : List Span) : total (s :: l) = s.size + total l := by
  simp [total]

@[simp] theorem total_append (l r : List Span) : total (l ++ r) = total l + total r := by
  simp [total]

theorem total_perm {l r : List Span} (h : l.Perm r) : total l = total r :=
  (h.map Span.size).sum_nat

-- The spans of `l` are non-empty and follow each other from `lo` to `hi`.
def Row : List Span → Nat → Nat → Prop
  | [], lo, hi => lo = hi
  | s :: l, lo, hi => s.base = lo ∧ 0 < s.size ∧ Row l s.limit hi

@[simp] theorem row_nil (lo hi : Nat) : Row [] lo hi ↔ lo = hi := Iff.rfl

@[simp] theorem row_cons (s : Span) (l : List Span) (lo hi : Nat) :
    Row (s :: l) lo hi ↔ s.base = lo ∧ 0 < s.size ∧ Row l s.limit hi := Iff.rfl

theorem row_singleton {s : Span} {lo hi : Nat} :
    Row [s] lo hi ↔ s.base = lo ∧ 0 < s.size ∧ s.limit = hi := Iff.rfl

theorem Row.le {l : List Span} {lo hi : Nat} (h : Row l lo hi) : lo ≤ hi := by
  induction l generalizing lo with
  | nil => exact Nat.le_of_eq h
  | cons s l ih =>
      obtain ⟨hbase, -, hrest⟩ := h
      have hle := ih hrest
      simp only [limit] at hle
      omega

theorem Row.append {l r : List Span} {lo mid hi : Nat} (hl : Row l lo mid) (hr : Row r mid hi) :
    Row (l ++ r) lo hi := by
  induction l generalizing lo with
  | nil =>
      rw [row_nil] at hl
      rwa [List.nil_append, hl]
  | cons s l ih => exact ⟨hl.1, hl.2.1, ih hl.2.2⟩

theorem Row.within {l : List Span} {lo hi : Nat} (h : Row l lo hi) {s : Span} (hs : s ∈ l) :
    lo ≤ s.base ∧ s.limit ≤ hi := by
  induction l generalizing lo with
  | nil => cases hs
  | cons t l ih =>
      obtain ⟨hbase, hpos, hrest⟩ := h
      obtain rfl | hs := List.mem_cons.mp hs
      · exact ⟨Nat.le_of_eq hbase.symm, hrest.le⟩
      · obtain ⟨hlo, hhi⟩ := ih hrest hs
        refine ⟨?_, hhi⟩
        simp only [limit] at hlo
        omega

-- Spans that follow each other tile what they reach over.
theorem Row.tiles {l : List Span} {lo hi : Nat} (h : Row l lo hi) : Tiles l lo hi := by
  rw [tiles_iff_cover]
  induction l generalizing lo with
  | nil =>
      obtain rfl := (row_nil lo hi).mp h
      refine ⟨by simp, fun x => ?_⟩
      rw [cover_nil, if_neg (by omega)]
  | cons s l ih =>
      obtain ⟨rfl, hpos, hrest⟩ := h
      have hle := hrest.le
      obtain ⟨hall, hcover⟩ := ih hrest
      refine ⟨List.forall_mem_cons.mpr ⟨hpos, hall⟩, fun x => ?_⟩
      rw [cover_cons, hcover]
      have hlimit : s.limit = s.base + s.size := rfl
      by_cases hin : Mem x s
      · obtain ⟨hlo, hhi⟩ := hin
        rw [if_pos ⟨hlo, hhi⟩, if_neg (by omega), if_pos ⟨hlo, by omega⟩]
      · rw [if_neg hin, Nat.zero_add]
        simp only [Mem] at hin
        exact if_congr (by omega) rfl rfl

end Span

end Verif
