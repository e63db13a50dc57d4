import Mathlib.Algebra.Group.Nat.Defs
import Mathlib.Logic.Function.Basic
import Mathlib.Data.Nat.ModEq

namespace Verif.Ring

variable {α : Type} {n k lo : Nat}

-- The slot after slot `i` of a ring of `n` slots.
def next (n i : Nat) : Nat := if i + 1 ≥ n then 0 else i + 1

-- The bit of the lap in which element number `k` is put into the ring. It is
-- set in the first lap and changes with every lap.
def lap (n k : Nat) : Bool := k / n % 2 == 0

theorem next_mod (hn : 0 < n) (k : Nat) : next n (k % n) = (k + 1) % n := by
  have hlt := Nat.mod_lt k hn
  unfold next
  split
  · rename_i hend
    have hlast : k % n + 1 = n := by omega
    rw [← Nat.mod_add_mod, hlast, Nat.mod_self]
  · rename_i hin
    rw [← Nat.mod_add_mod]
    exact (Nat.mod_eq_of_lt (by omega)).symm

-- The same where the code tests for the end with `==`.
theorem eq_iff_ge {i : Nat} (hi : i < n) : i + 1 = n ↔ i + 1 ≥ n := by
  omega

theorem div_succ (hn : 0 < n) (k : Nat) :
    (k + 1) / n = if k % n + 1 ≥ n then k / n + 1 else k / n := by
  have hlt := Nat.mod_lt k hn
  have hdiv := Nat.div_add_mod k n
  split
  · rename_i hend
    have hlast : k + 1 = n * (k / n + 1) := by
      rw [Nat.mul_succ]
      omega
    rw [hlast, Nat.mul_div_cancel_left _ hn]
  · rename_i hin
    have hsame : k + 1 = k % n + 1 + n * (k / n) := by omega
    rw [hsame, Nat.add_mul_div_left _ _ hn, Nat.div_eq_of_lt (by omega), Nat.zero_add]

theorem lap_succ (hn : 0 < n) (k : Nat) :
    lap n (k + 1) = if k % n + 1 ≥ n then !lap n k else lap n k := by
  simp only [lap, div_succ hn]
  split
  · obtain h | h := Nat.mod_two_eq_zero_or_one (k / n)
    · simp [Nat.add_mod, h]
    · simp [Nat.add_mod, h]
  · rfl

theorem lap_add (hn : 0 < n) (k : Nat) : lap n (k + n) = !lap n k := by
  simp only [lap, Nat.add_div_right _ hn]
  obtain h | h := Nat.mod_two_eq_zero_or_one (k / n)
  · simp [Nat.add_mod, h]
  · simp [Nat.add_mod, h]

@[simp] theorem lap_zero : lap n 0 = true := by
  simp [lap]

-- Within one lap's length no slot is met twice.
theorem mod_ne {j : Nat} (hlt : j < k) (hle : k < j + n) : j % n ≠ k % n := by
  intro h
  have hdvd : n ∣ k - j := (Nat.modEq_iff_dvd' (Nat.le_of_lt hlt)).mp h
  exact absurd (Nat.le_of_dvd (by omega) hdvd) (by omega)

-- How far two positions are apart is known up to whole laps.
theorem distance_mod (hn : 0 < n) {j : Nat} (hle : j ≤ k) :
    (k % n + n - j % n) % n = (k - j) % n := by
  have hlt := Nat.mod_lt j hn
  have hj := Nat.div_add_mod j n
  have hsum : k % n + n - j % n + j = k % n + n + n * (j / n) := by omega
  have hmod : Nat.ModEq n (k % n + n - j % n + j) (k - j + j) := by
    rw [hsum, Nat.sub_add_cancel hle, Nat.ModEq, Nat.add_mul_mod_self_left, Nat.add_mod_right,
      Nat.mod_mod]
  exact Nat.ModEq.add_right_cancel' j hmod

-- What has been read is extended by the next element of the log.
theorem prefix_snoc {l log : List α} {a : α} (h : l <+: log) (hnext : log[l.length]? = some a) :
    l ++ [a] <+: log := by
  obtain ⟨rest, rfl⟩ := h
  rw [List.getElem?_append_right (Nat.le_refl _), Nat.sub_self] at hnext
  cases rest with
  | nil => cases hnext
  | cons b rest =>
      obtain rfl : b = a := by simpa using hnext
      exact ⟨rest, by rw [List.append_assoc, List.singleton_append]⟩

-- The elements of the log from number `lo` on are in their slots, and there
-- are no more than the ring has slots.
structure Holds (n : Nat) (slot : Nat → α) (log : List α) (lo : Nat) : Prop where
  le : lo ≤ log.length
  room : log.length ≤ lo + n
  held : ∀ k, lo ≤ k → k < log.length → log[k]? = some (slot (k % n))

namespace Holds

variable {slot : Nat → α} {log : List α}

theorem nil (n : Nat) (slot : Nat → α) : Holds n slot [] 0 :=
  ⟨Nat.le_refl 0, Nat.zero_le _, fun _ _ hk => absurd hk (Nat.not_lt_zero _)⟩

-- A new element goes into a slot that none of the others is in.
theorem push (h : Holds n slot log lo) (hroom : log.length < lo + n) (a : α) :
    Holds n (Function.update slot (log.length % n) a) (log ++ [a]) lo := by
  refine ⟨?_, ?_, fun k hlo hk => ?_⟩
  · rw [List.length_append]
    exact Nat.le_trans h.le (Nat.le_add_right _ _)
  · rw [List.length_append, List.length_singleton]
    omega
  · rw [List.length_append, List.length_singleton] at hk
    by_cases hlast : k = log.length
    · rw [hlast, Function.update_self, List.getElem?_append_right (Nat.le_refl _), Nat.sub_self]
      rfl
    · have hlt : k < log.length := by omega
      rw [Function.update_of_ne (mod_ne hlt (by omega)), List.getElem?_append_left hlt]
      exact h.held k hlo hlt

theorem pop (h : Holds n slot log lo) (hlt : lo < log.length) : Holds n slot log (lo + 1) :=
  ⟨hlt, Nat.le_trans h.room (by omega), fun k hk => h.held k (by omega)⟩

theorem front (h : Holds n slot log lo) (hlt : lo < log.length) :
    log[lo]? = some (slot (lo % n)) :=
  h.held lo (Nat.le_refl _) hlt

-- Going through the slots from the oldest element on gives the elements.
theorem drop_eq (h : Holds n slot log lo) :
    log.drop lo = (List.range (log.length - lo)).map fun j => slot ((lo + j) % n) := by
  refine List.ext_getElem? fun j => ?_
  rw [List.getElem?_drop, List.getElem?_map]
  by_cases hj : j < log.length - lo
  · rw [List.getElem?_range hj, Option.map_some]
    exact h.held (lo + j) (Nat.le_add_right _ _) (by omega)
  · rw [List.getElem?_eq_none (by omega), List.getElem?_eq_none (by simpa using hj)]
    rfl

end Holds

-- The same for a ring whose elements carry the bit of their lap. What is in
-- the slots ahead carries the other bit.
structure Marked (n : Nat) (bit : α → Bool) (slot : Nat → α) (log : List α) (lo : Nat) : Prop
    extends Holds n slot log lo where
  marked : ∀ k, lo ≤ k → k < log.length → bit (slot (k % n)) = lap n k
  stale : ∀ k, log.length ≤ k → k < log.length + n → bit (slot (k % n)) = !lap n k

namespace Marked

variable {bit : α → Bool} {slot : Nat → α} {log : List α}

theorem nil (hzero : ∀ i < n, bit (slot i) = false) : Marked n bit slot [] 0 where
  toHolds := .nil n slot
  marked _ _ hk := absurd hk (Nat.not_lt_zero _)
  stale k _ hk := by
    rw [List.length_nil, Nat.zero_add] at hk
    rw [Nat.mod_eq_of_lt hk, hzero k hk]
    simp [lap, Nat.div_eq_of_lt hk]

theorem push (h : Marked n bit slot log lo) (hroom : log.length < lo + n) {a : α}
    (ha : bit a = lap n log.length) :
    Marked n bit (Function.update slot (log.length % n) a) (log ++ [a]) lo where
  toHolds := h.toHolds.push hroom a
  marked k hlo hk := by
    rw [List.length_append, List.length_singleton] at hk
    by_cases hlast : k = log.length
    · rw [hlast, Function.update_self, ha]
    · rw [Function.update_of_ne (mod_ne (by omega) (by omega))]
      exact h.marked k hlo (by omega)
  stale k hlo hk := by
    have hle := h.le
    rw [List.length_append, List.length_singleton] at hlo hk
    by_cases hlast : k = log.length + n
    · rw [hlast, Nat.add_mod_right, Function.update_self, ha, lap_add (by omega), Bool.not_not]
    · rw [Function.update_of_ne (mod_ne (by omega) (by omega)).symm]
      exact h.stale k (by omega) (by omega)

theorem pop (h : Marked n bit slot log lo) (hlt : lo < log.length) :
    Marked n bit slot log (lo + 1) where
  toHolds := h.toHolds.pop hlt
  marked k hk := h.marked k (by omega)
  stale := h.stale

-- The bit tells whether the slot after the last element read has a new one.
theorem bit_iff (h : Marked n bit slot log lo) (hn : 0 < n) :
    bit (slot (lo % n)) = lap n lo ↔ lo < log.length := by
  constructor
  · intro hbit
    by_contra hge
    have heq : lo = log.length := Nat.le_antisymm h.le (Nat.not_lt.mp hge)
    rw [h.stale lo (Nat.le_of_eq heq.symm) (by omega)] at hbit
    cases hlap : lap n lo <;> simp [hlap] at hbit
  · exact h.marked lo (Nat.le_refl _)

end Marked

end Verif.Ring
