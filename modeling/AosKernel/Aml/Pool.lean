import AosKernel.Aml.Progress
import AosKernel.Lib.Links

namespace AosKernel.Aml

open Verif Exec

namespace NodePool

-- A node that was handed out: it stands in a block that was given, and in that of the pool among
-- the entries that are taken.
def Taken (pool : NodePool) (m : NodePtr) : Prop :=
  m.block < pool.allocs ∧ (pool.nodePool = some m.block → m.index < pool.nodePoolCount)

-- A pointer that is NULL or points into the pool.
def PointsIn (pool : NodePool) (p : Option NodePtr) : Prop :=
  ∀ m, p = some m → pool.nodePool = some m.block ∧ m.index < pool.nodePoolCap

end NodePool

-- Where the pool goes on: the entry that is next, in its block or in the one that it is moved to,
-- and what the memory from there on holds.
structure Space where
  block : Nat
  index : Nat
  cap : Nat
  memory : Nat → AmlNode

namespace Space

-- The entries from the next one on.
def entry (sp : Space) (i : Nat) : NodePtr := ⟨sp.block, sp.index + i⟩

def Holds (sp : Space) (p : Option NodePtr) : Prop :=
  ∀ m, p = some m → sp.block = m.block ∧ m.index < sp.cap

theorem entry_inj {sp : Space} {i j : Nat} : sp.entry i = sp.entry j ↔ i = j := by
  simp [entry]

end Space

def nextSpace (gives : Nat → Option (Nat → AmlNode)) (h : AmlHeap) : Option Space :=
  match h.nodePool with
  | none => (gives h.allocs).map fun contents => ⟨h.allocs, 0, NODES_PER_PAGE, contents⟩
  | some pool =>
      if h.nodePoolCount < h.nodePoolCap then
        some ⟨pool, h.nodePoolCount, h.nodePoolCap, fun i => h.blocks pool (h.nodePoolCount + i)⟩
      else
        (gives h.allocs).map fun contents => ⟨h.allocs, h.nodePoolCap,
          h.nodePoolCap + NODES_PER_PAGE, fun i => contents (h.nodePoolCap + i)⟩

section Calls

variable {gives : Nat → Option (Nat → AmlNode)} {h h' : AmlHeap} {n m : NodePtr}

-- A call takes the next entry of the pool, or, where it is full or there is none, that of a block
-- that is given.
theorem getNewNode_some (hnew : getNewNode gives h = (some n, h')) :
    (∃ pool, h.nodePool = some pool ∧ h.nodePoolCount < h.nodePoolCap ∧
        (some n, h') = h.take pool) ∨
      ∃ contents count cap, gives h.allocs = some contents ∧ count < cap ∧
        (h.nodePool = none ∧ count = 0 ∧ cap = NODES_PER_PAGE ∨
          h.nodePool ≠ none ∧ h.nodePoolCap ≤ h.nodePoolCount ∧ count = h.nodePoolCap ∧
            cap = h.nodePoolCap + NODES_PER_PAGE) ∧
        (some n, h') = (h.adopt contents count cap).take h.allocs := by
  unfold getNewNode at hnew
  split at hnew
  next hpool =>
    cases hgives : gives h.allocs with
    | none => simp [hgives] at hnew
    | some contents =>
        rw [hgives] at hnew
        exact .inr ⟨contents, 0, _, rfl, by decide, .inl ⟨hpool, rfl, rfl⟩, hnew.symm⟩
  next pool hpool =>
    by_cases hroom : h.nodePoolCount < h.nodePoolCap
    · simp only [if_neg (Nat.not_lt.mpr hroom.le), ge_iff_le, if_neg (Nat.not_le.mpr hroom)] at hnew
      exact .inl ⟨pool, hpool, hroom, hnew.symm⟩
    · have hfull := Nat.not_lt.mp hroom
      have hclamp : (if h.nodePoolCap < h.nodePoolCount then
          { h with nodePoolCount := h.nodePoolCap } else h) =
          { h with nodePoolCount := h.nodePoolCap } := by
        split_ifs with hover
        · rfl
        · obtain ⟨⟨_, cap, count, _, _⟩, _⟩ := h
          obtain rfl : cap = count := Nat.le_antisymm hfull (Nat.not_lt.mp hover)
          rfl
      simp only [hclamp, ge_iff_le, le_refl, if_true] at hnew
      cases hgives : gives h.allocs with
      | none => simp [hgives] at hnew
      | some contents =>
          rw [hgives] at hnew
          exact .inr ⟨contents, _, _, rfl, Nat.lt_add_of_pos_right (by decide),
            .inr ⟨hpool ▸ Option.some_ne_none pool, hfull, rfl, rfl⟩, hnew.symm⟩

-- It is the next entry, and the memory from there on is as it was.
theorem getNewNode_space (hnew : getNewNode gives h = (some n, h')) :
    ∃ sp, nextSpace gives h = some sp ∧ n = sp.entry 0 ∧ h'.nodePool = some sp.block ∧
      h'.nodePoolCap = sp.cap ∧ h'.nodePoolCount = sp.index + 1 ∧ sp.index < sp.cap ∧
        ∀ i, h'.node (sp.entry i) = sp.memory i := by
  rcases getNewNode_some hnew with ⟨pool, hpool, hroom, htake⟩ |
    ⟨contents, count, cap, hgives, hlt, ⟨hpool, rfl, rfl⟩ | ⟨hpool, hfull, rfl, rfl⟩, htake⟩
  · cases htake
    refine ⟨⟨pool, h.nodePoolCount, h.nodePoolCap, fun i => h.blocks pool (h.nodePoolCount + i)⟩,
      ?_, rfl, hpool, rfl, rfl, hroom, fun _ => rfl⟩
    simp [nextSpace, hpool, hroom]
  · cases htake
    refine ⟨⟨h.allocs, 0, NODES_PER_PAGE, contents⟩, ?_, rfl, rfl, rfl, rfl, hlt, fun i => ?_⟩
    · simp [nextSpace, hpool, hgives]
    · simp [AmlHeap.node, AmlHeap.adopt, Space.entry, hpool]
  · cases htake
    obtain ⟨pool, hpool⟩ := Option.ne_none_iff_exists'.mp hpool
    refine ⟨⟨h.allocs, h.nodePoolCap, h.nodePoolCap + NODES_PER_PAGE,
      fun i => contents (h.nodePoolCap + i)⟩, ?_, rfl, rfl, rfl, rfl, hlt, fun i => ?_⟩
    · simp [nextSpace, hpool, hgives, hfull]
    · simp [AmlHeap.node, AmlHeap.adopt, Space.entry, hpool]

-- What was handed out stays so, and keeps what it holds.
theorem getNewNode_taken (hnew : getNewNode gives h = (some n, h')) (hm : h.Taken m) :
    h'.Taken m ∧ m ≠ n ∧ h'.node m = h.node m := by
  rcases getNewNode_some hnew with ⟨pool, hpool, _, htake⟩ | ⟨contents, count, cap, _, _, _, htake⟩
  · cases htake
    refine ⟨⟨hm.1, fun hb => Nat.lt_succ_of_lt (hm.2 hb)⟩, ?_, rfl⟩
    rintro rfl
    exact absurd (hm.2 hpool) (Nat.lt_irrefl _)
  · cases htake
    have hother : m.block ≠ h.allocs := hm.1.ne
    refine ⟨⟨Nat.lt_succ_of_lt hm.1, fun hb => absurd (Option.some.inj hb).symm hother⟩,
      fun hmn => hother (by rw [hmn]), ?_⟩
    simp [AmlHeap.node, AmlHeap.adopt, hother]

theorem getNewNode_new (hnew : getNewNode gives h = (some n, h')) : h'.Taken n := by
  obtain ⟨sp, _, rfl, hpool, _, hcount, _⟩ := getNewNode_space hnew
  exact ⟨h'.pool_lt _ hpool, fun _ => by rw [hcount]; exact Nat.lt_succ_self _⟩

theorem getNewNode_room {b : Nat} (hnew : getNewNode gives h = (some n, h'))
    (hpool : h.nodePool = some b) (hroom : h.nodePoolCount < h.nodePoolCap) :
    n = ⟨b, h.nodePoolCount⟩ ∧ h' = { h with nodePoolCount := h.nodePoolCount + 1 } := by
  rcases getNewNode_some hnew with ⟨pool, hpool', _, htake⟩ |
    ⟨_, _, _, _, _, ⟨hnone, _⟩ | ⟨_, hfull, _⟩, _⟩
  · cases htake
    rw [hpool] at hpool'
    exact ⟨by rw [Option.some.inj hpool'], rfl⟩
  · rw [hpool] at hnone
    cases hnone
  · exact absurd hroom (Nat.not_lt.mpr hfull)

-- The pool stays where it is as long as it has room.
theorem getNewNode_pool {b b' : Nat} (hnew : getNewNode gives h = (some n, h'))
    (hpool : h.nodePool = some b) (hpool' : h'.nodePool = some b') :
    b ≤ b' ∧ (b' = b → h'.nodePoolCount = h.nodePoolCount + 1 ∧ h'.nodePoolCap = h.nodePoolCap ∧
      h.nodePoolCount < h.nodePoolCap) := by
  rcases getNewNode_some hnew with ⟨pool, _, hroom, htake⟩ | ⟨contents, count, cap, _, _, _, htake⟩
  · cases htake
    rw [hpool] at hpool'
    exact ⟨(Option.some.inj hpool').le, fun _ => ⟨rfl, rfl, hroom⟩⟩
  · cases htake
    obtain rfl := Option.some.inj hpool'
    have hlt := h.pool_lt _ hpool
    exact ⟨hlt.le, fun hsame => absurd hsame hlt.ne'⟩

end Calls

end AosKernel.Aml
