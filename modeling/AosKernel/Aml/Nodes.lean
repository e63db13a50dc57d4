import AosKernel.Aml.Parser

namespace AosKernel.Aml

open Verif Exec

namespace AmlHeap

variable {h : AmlHeap} {n m : NodePtr} {f : AmlNode → AmlNode}

@[simp] theorem node_modify_same : (h.modify n f).node n = f (h.node n) := by
  simp [modify, node]

theorem node_modify_other (hne : m ≠ n) : (h.modify n f).node m = h.node m := by
  simp only [modify, node]
  by_cases hblock : m.block = n.block
  · have hindex : m.index ≠ n.index := fun hindex => hne (by
      cases m
      cases n
      simp_all)
    rw [hblock, Function.update_self, Function.update_of_ne hindex]
  · rw [Function.update_of_ne hblock]

@[simp] theorem modify_pool : (h.modify n f).toNodePool = h.toNodePool := rfl

end AmlHeap

section Steps

variable {data : List UInt8} {gives : Nat → Option (Nat → AmlNode)} {α β : Type} {s t : AmlState}
  {n : NodePtr} {e : AmlStop} {op : UInt8}

theorem onStream_returns {m : Exec AmlStop Nat α} {a : α} :
    Returns (onStream m) s a t ↔ ∃ q, Returns m s.ptr a q ∧ t = { s with ptr := q } := by
  unfold onStream
  simp only [returns_bind, returns_get]
  constructor
  · rintro ⟨_, _, ⟨rfl, rfl⟩, hret⟩
    cases hm : m.run s.ptr with
    | error e => simp [hm, Returns] at hret; cases hret
    | ok r =>
        simp [hm, Returns] at hret
        cases hret
        exact ⟨r.2, hm, rfl⟩
  · rintro ⟨q, hret, rfl⟩
    refine ⟨s, s, ⟨rfl, rfl⟩, ?_⟩
    rw [show m.run s.ptr = .ok (a, q) from hret]
    rfl

theorem onStream_stops {m : Exec AmlStop Nat α} : Stops (onStream m) s e ↔ Stops m s.ptr e := by
  unfold onStream
  rw [stops_bind]
  constructor
  · rintro (hstop | ⟨_, _, hget, hstop⟩)
    · cases hstop
    · obtain ⟨rfl, rfl⟩ := returns_get.mp hget
      cases hm : m.run s.ptr with
      | error e =>
          simp [hm, Stops] at hstop
          cases hstop
          exact hm
      | ok r =>
          simp [hm, Stops] at hstop
          cases hstop
  · intro hstop
    refine .inr ⟨s, s, returns_get.mpr ⟨rfl, rfl⟩, ?_⟩
    rw [show m.run s.ptr = .error e from hstop]
    rfl

theorem newNode_returns : Returns (newNode gives) s n t ↔
    ∃ h, getNewNode gives s.heap = (some n, h) ∧ t = { s with heap := h } := by
  unfold newNode
  rw [returns_bind]
  constructor
  · rintro ⟨_, _, hget, hret⟩
    obtain ⟨rfl, rfl⟩ := returns_get.mp hget
    match hnew : getNewNode gives s.heap with
    | (none, h) => simp [hnew, Returns] at hret; cases hret
    | (some n, h) =>
        simp [hnew, Returns] at hret
        cases hret
        exact ⟨h, rfl, rfl⟩
  · rintro ⟨h, hnew, rfl⟩
    refine ⟨s, s, returns_get.mpr ⟨rfl, rfl⟩, ?_⟩
    rw [hnew]
    rfl

theorem newNode_stops : Stops (newNode gives) s e ↔
    (getNewNode gives s.heap).1 = none ∧ e = .refused := by
  unfold newNode
  rw [stops_bind]
  constructor
  · rintro (hstop | ⟨_, _, hget, hstop⟩)
    · cases hstop
    · obtain ⟨rfl, rfl⟩ := returns_get.mp hget
      match hnew : getNewNode gives s.heap with
      | (none, h) =>
          simp [hnew, Stops] at hstop
          cases hstop
          exact ⟨rfl, rfl⟩
      | (some n, h) => simp [hnew, Stops] at hstop; cases hstop
  · rintro ⟨hnone, rfl⟩
    refine .inr ⟨s, s, returns_get.mpr ⟨rfl, rfl⟩, ?_⟩
    match hnew : getNewNode gives s.heap with
    | (none, h) => rfl
    | (some n, h) => simp [hnew] at hnone

theorem setNode_returns {f : AmlNode → AmlNode} {u : Unit} : Returns (setNode n f) s u t ↔
    t = { s with heap := s.heap.modify n f } := by
  constructor
  · intro hret
    cases hret
    rfl
  · rintro rfl
    rfl

theorem setNode_not_stops {f : AmlNode → AmlNode} : ¬ Stops (setNode n f) s e := by
  intro hstop
  cases hstop

-- A node is made of what is read, where there is one.
theorem readNode_returns {m : Exec AmlStop Nat Filling} : Returns (readNode gives m) s n t ↔
    ∃ f q h, Returns m s.ptr f q ∧ getNewNode gives s.heap = (some n, h) ∧
      t = ⟨q, h.modify n fun node => node.fill f⟩ := by
  unfold readNode
  simp only [returns_bind, returns_pure, onStream_returns, newNode_returns, setNode_returns]
  constructor
  · rintro ⟨f, _, ⟨q, hread, rfl⟩, n', _, ⟨h, hnew, rfl⟩, ⟨⟩, _, rfl, rfl, rfl⟩
    exact ⟨f, q, h, hread, hnew, rfl⟩
  · rintro ⟨f, q, h, hread, hnew, rfl⟩
    exact ⟨f, _, ⟨q, hread, rfl⟩, n, _, ⟨h, hnew, rfl⟩, ⟨⟩, _, rfl, rfl, rfl⟩

theorem readNode_stops {m : Exec AmlStop Nat Filling} : Stops (readNode gives m) s e ↔
    Stops m s.ptr e ∨
      (∃ f q, Returns m s.ptr f q) ∧ (getNewNode gives s.heap).1 = none ∧ e = .refused := by
  unfold readNode
  simp only [stops_bind, onStream_returns, onStream_stops, newNode_stops, setNode_not_stops,
    false_or]
  constructor
  · rintro (hstop | ⟨f, _, ⟨q, hread, rfl⟩, hnone | ⟨n, _, _, _, _, _, hstop⟩⟩)
    · exact .inl hstop
    · exact .inr ⟨⟨f, q, hread⟩, hnone⟩
    · cases hstop
  · rintro (hstop | ⟨⟨f, q, hread⟩, hnone⟩)
    · exact .inl hstop
    · exact .inr ⟨f, _, ⟨q, hread, rfl⟩, .inl hnone⟩

-- What a peek decides is decided by the byte there.
theorem peek_run (h : data[s.ptr]? = some op) (f : UInt8 → Exec AmlStop AmlState β) :
    (onStream (amlPeek data) >>= f).run s = (f op).run s := by
  have hpeek := onStream_returns.mpr ⟨s.ptr, amlPeek_at h, rfl⟩
  rw [StateT.run_bind, show (onStream (amlPeek data)).run s = .ok (op, s) from hpeek]
  rfl

end Steps

-- The nodes that `count` calls of get_new_node take.
def takeNodes (gives : Nat → Option (Nat → AmlNode)) : Nat → AmlHeap → Option AmlHeap
  | 0, h => some h
  | count + 1, h =>
      match getNewNode gives h with
      | (none, _) => none
      | (some _, h) => takeNodes gives count h

section Taking

variable {gives : Nat → Option (Nat → AmlNode)} {h h' : AmlHeap} {n : NodePtr} {count more : Nat}

-- What a call does to the pool depends on the pool.
theorem getNewNode_congr (gives : Nat → Option (Nat → AmlNode))
    (hpool : h.toNodePool = h'.toNodePool) :
    (getNewNode gives h).1 = (getNewNode gives h').1 ∧
      (getNewNode gives h).2.toNodePool = (getNewNode gives h').2.toNodePool := by
  obtain ⟨⟨nodePool, cap, count, allocs, hlt⟩, blocks⟩ := h
  obtain ⟨pool', blocks'⟩ := h'
  obtain rfl := hpool
  unfold getNewNode
  cases nodePool with
  | none => cases gives allocs <;> simp [AmlHeap.refused, AmlHeap.take, AmlHeap.adopt]
  | some b =>
      by_cases hover : cap < count
      · cases hgives : gives allocs <;>
          simp [hover, hgives, AmlHeap.refused, AmlHeap.take, AmlHeap.adopt]
      · by_cases hfull : count ≥ cap
        · cases hgives : gives allocs <;>
            simp [hover, hfull, hgives, AmlHeap.refused, AmlHeap.take, AmlHeap.adopt]
        · simp [hover, hfull, AmlHeap.take]

theorem takeNodes_congr (hpool : h.toNodePool = h'.toNodePool) :
    (takeNodes gives count h).isSome = (takeNodes gives count h').isSome := by
  induction count generalizing h h' with
  | zero => rfl
  | succ count ih =>
      obtain ⟨hfirst, hrest⟩ := getNewNode_congr gives hpool
      rw [takeNodes, takeNodes]
      match hnew : getNewNode gives h, hnew' : getNewNode gives h' with
      | (none, _), (none, _) => rfl
      | (some _, k), (some _, k') =>
          rw [hnew, hnew'] at hrest
          exact ih hrest
      | (none, _), (some _, _) => rw [hnew, hnew'] at hfirst; cases hfirst
      | (some _, _), (none, _) => rw [hnew, hnew'] at hfirst; cases hfirst

end Taking

-- Memory in which nothing was written, for runs on given streams.
def blankNode : AmlNode := ⟨.null, .integer 0 0, none, none, none⟩

def blankBlocks : Nat → Option (Nat → AmlNode) := fun _ => some fun _ => blankNode

def emptyHeap : AmlHeap where
  nodePool := none
  nodePoolCap := 0
  nodePoolCount := 0
  allocs := 0
  pool_lt := fun _ hb => by cases hb
  blocks := fun _ _ => blankNode

end AosKernel.Aml
