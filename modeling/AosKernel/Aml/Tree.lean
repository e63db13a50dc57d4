import Mathlib.Data.List.Forall2
import AosKernel.Aml.Pool

namespace AosKernel.Aml

open Verif Exec

-- No pointer of the node leaves the pool.
structure AmlHeap.Closed (h : AmlHeap) (m : NodePtr) : Prop where
  parent : h.PointsIn (h.node m).parent
  child : h.PointsIn (h.node m).child
  sibling : h.PointsIn (h.node m).sibling

-- The children of the node, from sibling to sibling, are the objects in order, and no pointer
-- leaves the pool.
def TreeValid (data : List UInt8) (h : AmlHeap) (n : NodePtr) (objs : List DataObject) : Prop :=
  ∃ children, Links (fun m => (h.node m).sibling) (h.node n).child children none ∧
    List.Forall₂ (fun m o => (h.node m).meaning data = some o.value) children objs ∧
      ∀ m ∈ n :: children, h.Closed m

-- The iterations that take objects, one behind the other.
inductive TakesAll (data : List UInt8) (gives : Nat → Option (Nat → AmlNode)) (n : NodePtr) :
    Option NodePtr → AmlState → List DataObject → AmlState → Prop
  | nil {prev : Option NodePtr} {s : AmlState} : TakesAll data gives n prev s [] s
  | cons {prev : Option NodePtr} {s u t : AmlState} {o : DataObject} {objs : List DataObject}
      {m : NodePtr} : TakesObject data gives n prev s o m u →
      TakesAll data gives n (some m) u objs t → TakesAll data gives n prev s (o :: objs) t

section Runs

variable {data : List UInt8} {gives : Nat → Option (Nat → AmlNode)} {s t : AmlState}
  {n m : NodePtr} {prev parent : Option NodePtr} {o o' : DataObject} {objs : List DataObject}
  {fuel : Nat}

-- What starts at a place is one object.
theorem encode_unique {p : Nat} (h : o.encode <+: data.drop p) (h' : o'.encode <+: data.drop p) :
    o'.held p = o.held p ∧ o'.encode.length = o.encode.length := by
  have hfirst (o : DataObject) (h : o.encode <+: data.drop p) : data[p]? = some o.op :=
    prefix_singleton_iff.mp ((List.prefix_append [o.op] o.payload).trans h)
  have hop : o'.op = o.op := Option.some.inj ((hfirst o' h').symm.trans (hfirst o h))
  have hscans := dataReader_scans (hfirst o h)
  obtain ⟨hheld, hplace⟩ := returns_unique (hscans.complete _ _ ⟨o', rfl, rfl⟩ h')
    (hscans.complete _ _ ⟨o, rfl, rfl⟩ h)
  exact ⟨hheld, Nat.add_left_cancel hplace⟩

theorem TakesObject.read (htakes : TakesObject data gives n prev s o' m t)
    (hstarts : o.encode <+: data.drop s.ptr) : TakesObject data gives n prev s o m t := by
  obtain ⟨hstarts', h, hnew, rfl⟩ := htakes
  obtain ⟨hheld, hlength⟩ := encode_unique hstarts hstarts'
  refine ⟨hstarts, h, hnew, ?_⟩
  rw [objectNode, objectNode, hheld, hlength]

-- A loop over a stream of objects that comes to an end has taken them all.
theorem parseLoop_takes {u : Unit} (hobjs : data.drop s.ptr = encodeAll objs)
    (hret : Returns (parseLoop data gives n fuel prev) s u t) :
    TakesAll data gives n prev s objs t := by
  induction fuel generalizing s prev objs with
  | zero => cases hret
  | succ fuel ih =>
      obtain ⟨next, v, hiteration, hrest⟩ := returns_bind.mp hret
      rcases parseIteration_returns.mp hiteration with
        ⟨hend, rfl, rfl⟩ | ⟨o', m, htakes, rfl⟩ | ⟨op, hop, hdata, _⟩
      · obtain ⟨-, rfl⟩ := returns_pure.mp hrest
        cases objs with
        | nil => exact .nil
        | cons o objs =>
            rw [List.drop_eq_nil_of_le hend] at hobjs
            exact absurd (List.append_eq_nil_iff.mp hobjs.symm).1 o.encode_ne_nil
      · cases objs with
        | nil =>
            have hnil := htakes.1
            rw [hobjs] at hnil
            exact absurd (List.prefix_nil.mp hnil) o'.encode_ne_nil
        | cons o objs =>
            rw [encodeAll, List.flatMap_cons] at hobjs
            have htakes := htakes.read ⟨_, hobjs.symm⟩
            refine .cons htakes (ih ?_ hrest)
            obtain ⟨_, _, _, rfl⟩ := htakes
            rw [← List.drop_drop, hobjs, List.drop_left]
            rfl
      · cases objs with
        | nil =>
            rw [← List.head?_drop, hobjs] at hop
            cases hop
        | cons o objs =>
            rw [← List.head?_drop, hobjs] at hop
            exact absurd (Option.some.inj hop ▸ o.isDataOp_op) hdata

theorem amlParse_takes (hobjs : data.drop s.ptr = encodeAll objs)
    (hret : Returns (amlParse data gives fuel parent) s n t) :
    ∃ h, getNewNode gives s.heap = (some n, h) ∧
      TakesAll data gives n none ⟨s.ptr, h.modify n fun node =>
        { node with type := .null, parent := parent.or node.parent }⟩ objs t := by
  obtain ⟨m, _, hnode, hrest⟩ := returns_bind.mp hret
  obtain ⟨h, hnew, rfl⟩ := newNode_returns.mp hnode
  obtain ⟨_, _, hset, hrest⟩ := returns_bind.mp hrest
  obtain rfl := setNode_returns.mp hset
  obtain ⟨_, _, hloop, hpure⟩ := returns_bind.mp hrest
  obtain ⟨rfl, rfl⟩ := returns_pure.mp hpure
  exact ⟨h, hnew, parseLoop_takes hobjs hloop⟩

end Runs

section Links

variable {h : AmlHeap} {n m x p : NodePtr} {prev : Option NodePtr} {o : DataObject} {ptr : Nat}

-- What linking and filling a node do to the nodes.
theorem linkChild_first : (linkChild h n m none).node n = { h.node n with child := some m } := by
  rw [linkChild, AmlHeap.node_modify_same]

theorem linkChild_next :
    (linkChild h n m (some p)).node p = { h.node p with sibling := some m } := by
  rw [linkChild, AmlHeap.node_modify_same]

theorem linkChild_other (hx : x ≠ prev.getD n) : (linkChild h n m prev).node x = h.node x := by
  cases prev with
  | none =>
      rw [Option.getD_none] at hx
      rw [linkChild, AmlHeap.node_modify_other hx]
  | some p =>
      rw [Option.getD_some] at hx
      rw [linkChild, AmlHeap.node_modify_other hx]

theorem linkChild_parent : ((linkChild h n m prev).node x).parent = (h.node x).parent := by
  by_cases hx : x = prev.getD n
  · subst hx
    cases prev with
    | none => rw [Option.getD_none, linkChild_first]
    | some p => rw [Option.getD_some, linkChild_next]
  · rw [linkChild_other hx]

theorem linkChild_meaning {data : List UInt8} :
    AmlNode.meaning data ((linkChild h n m prev).node x) = (h.node x).meaning data := by
  by_cases hx : x = prev.getD n
  · subst hx
    cases prev with
    | none => rw [Option.getD_none, linkChild_first]; rfl
    | some p => rw [Option.getD_some, linkChild_next]; rfl
  · rw [linkChild_other hx]

theorem linkChild_child (hx : prev = none → x ≠ n) :
    ((linkChild h n m prev).node x).child = (h.node x).child := by
  by_cases hlast : x = prev.getD n
  · subst hlast
    cases prev with
    | none => exact absurd rfl (hx rfl)
    | some p => rw [Option.getD_some, linkChild_next]
  · rw [linkChild_other hlast]

theorem linkChild_sibling (hx : prev ≠ some x) :
    ((linkChild h n m prev).node x).sibling = (h.node x).sibling := by
  by_cases hlast : x = prev.getD n
  · subst hlast
    cases prev with
    | none => rw [Option.getD_none, linkChild_first]
    | some p => exact absurd rfl hx
  · rw [linkChild_other hlast]

theorem objectNode_same : (objectNode h n m ptr o).node m =
    { (h.node m).fill (o.held ptr) with parent := some n } := by
  rw [objectNode, AmlHeap.node_modify_same, AmlHeap.node_modify_same]

theorem objectNode_other (hx : x ≠ m) : (objectNode h n m ptr o).node x = h.node x := by
  rw [objectNode, AmlHeap.node_modify_other hx, AmlHeap.node_modify_other hx]

end Links

-- The node has a child, which names it as its parent.
structure Rooted (h : AmlHeap) (n first : NodePtr) : Prop where
  taken : h.Taken n ∧ h.Taken first
  child : (h.node n).child = some first
  parent : (h.node first).parent = some n

section Moves

variable {data : List UInt8} {gives : Nat → Option (Nat → AmlNode)} {s t : AmlState}
  {n m p first : NodePtr} {prev : Option NodePtr} {o : DataObject} {objs : List DataObject}

theorem TakesObject.roots (htaken : s.heap.Taken n)
    (htakes : TakesObject data gives n none s o m t) : Rooted t.heap n m := by
  obtain ⟨_, h, hnew, rfl⟩ := htakes
  obtain ⟨htaken, hne, _⟩ := getNewNode_taken hnew htaken
  refine ⟨?_, ?_, ?_⟩
  · rw [taken_pool]
    exact ⟨htaken, getNewNode_new hnew⟩
  · rw [linkChild_first]
  · rw [linkChild_other hne.symm, objectNode_same]

theorem TakesObject.keeps_root (hroot : Rooted s.heap n first)
    (htakes : TakesObject data gives n (some p) s o m t) : Rooted t.heap n first := by
  obtain ⟨_, h, hnew, rfl⟩ := htakes
  obtain ⟨hn, hnm, hkeeps⟩ := getNewNode_taken hnew hroot.taken.1
  obtain ⟨hfirst, hfirstm, hkeeps'⟩ := getNewNode_taken hnew hroot.taken.2
  refine ⟨?_, ?_, ?_⟩
  · rw [taken_pool]
    exact ⟨hn, hfirst⟩
  · rw [linkChild_child (fun hnone => by cases hnone), objectNode_other hnm, hkeeps]
    exact hroot.child
  · rw [linkChild_parent, objectNode_other hfirstm, hkeeps']
    exact hroot.parent

-- The first child stays the first, wherever the pool is moved to.
theorem TakesAll.keeps_root (hroot : Rooted s.heap n first)
    (htakes : TakesAll data gives n (some p) s objs t) : Rooted t.heap n first := by
  generalize hprev : some p = prev at htakes
  induction htakes generalizing p with
  | nil => exact hroot
  | cons htakes _ ih =>
      subst hprev
      exact ih (htakes.keeps_root hroot) rfl

theorem TakesAll.rooted (htaken : s.heap.Taken n) (hobjs : objs ≠ [])
    (htakes : TakesAll data gives n none s objs t) : ∃ first, Rooted t.heap n first := by
  cases htakes with
  | nil => exact absurd rfl hobjs
  | cons htakes hrest => exact ⟨_, hrest.keeps_root (htakes.roots htaken)⟩

-- A pool that is where it was has had room for all of the nodes.
theorem TakesAll.room {b b' : Nat} (htakes : TakesAll data gives n prev s objs t)
    (hpool : s.heap.nodePool = some b) (hpool' : t.heap.nodePool = some b') :
    b ≤ b' ∧ (b' = b → s.heap.nodePoolCount ≤ s.heap.nodePoolCap →
      s.heap.nodePoolCount + objs.length ≤ s.heap.nodePoolCap) := by
  induction htakes generalizing b with
  | nil =>
      rw [hpool] at hpool'
      exact ⟨(Option.some.inj hpool').le, fun _ hle => hle⟩
  | @cons prev s u t o objs m htakes _ ih =>
      obtain ⟨_, h, hnew, rfl⟩ := htakes
      obtain ⟨c, hc⟩ : ∃ c, h.nodePool = some c := by
        obtain ⟨sp, _, _, hsp, _⟩ := getNewNode_space hnew
        exact ⟨_, hsp⟩
      obtain ⟨hle, hsame⟩ := getNewNode_pool hnew hpool hc
      have hpools : (linkChild (objectNode h n m s.ptr o) n m prev).toNodePool = h.toNodePool :=
        taken_pool
      simp only [hpools] at ih
      obtain ⟨hle', hroom⟩ := ih hc hpool'
      refine ⟨hle.trans hle', fun hb _ => ?_⟩
      have hcb : c = b := by omega
      obtain ⟨hcount, hcap, hlt⟩ := hsame hcb
      have hrest := hroom (by omega) (by omega)
      rw [List.length_cons]
      omega

-- In a tree that is valid and has children the pool is still where the root is.
theorem TreeValid.pool (hvalid : TreeValid data t.heap n objs) (hroot : Rooted t.heap n first) :
    t.heap.nodePool = some n.block := by
  obtain ⟨children, hlinks, _, hclosed⟩ := hvalid
  rw [hroot.child] at hlinks
  cases children with
  | nil => cases hlinks
  | cons c children =>
      obtain rfl := Option.some.inj hlinks.1
      have hparent := (hclosed first (.tail _ (.head _))).parent
      exact (hparent n hroot.parent).1

end Moves

namespace Space

variable (sp : Space)

-- The link that the next child is put behind: that of the last of `count` children, or the root's.
def lastLink (count : Nat) : Option NodePtr :=
  if count = 0 then (sp.memory 0).child else (sp.memory count).sibling

def lastChild (count : Nat) : Option NodePtr := if count = 0 then none else some (sp.entry count)

-- The children from the first on, of which there are `count`.
def children (count : Nat) : List NodePtr := (List.range count).map fun i => sp.entry (i + 1)

end Space

-- The nodes of a tree without a move of the pool: the links that nothing was put in are those
-- that the memory held.
structure Built (data : List UInt8) (sp : Space) (parent : Option NodePtr)
    (objs : List DataObject) (h : AmlHeap) : Prop where
  pool : h.nodePool = some sp.block
  cap : h.nodePoolCap = sp.cap
  count : h.nodePoolCount = sp.index + 1 + objs.length
  rootParent : (h.node (sp.entry 0)).parent = parent.or (sp.memory 0).parent
  rootSibling : (h.node (sp.entry 0)).sibling = (sp.memory 0).sibling
  rootChild : (h.node (sp.entry 0)).child =
    if objs.length = 0 then sp.lastLink objs.length else some (sp.entry 1)
  parents : ∀ i, i < objs.length → (h.node (sp.entry (i + 1))).parent = some (sp.entry 0)
  childs : ∀ i, i < objs.length → (h.node (sp.entry (i + 1))).child = (sp.memory (i + 1)).child
  siblings : ∀ i, i < objs.length → (h.node (sp.entry (i + 1))).sibling =
    if i + 1 = objs.length then sp.lastLink objs.length else some (sp.entry (i + 1 + 1))
  meaning : ∀ i o, objs[i]? = some o → (h.node (sp.entry (i + 1))).meaning data = some o.value
  fresh : ∀ i, objs.length < i → h.node (sp.entry i) = sp.memory i

section Builds

variable {data : List UInt8} {gives : Nat → Option (Nat → AmlNode)} {s t : AmlState}
  {n m : NodePtr} {parent : Option NodePtr} {o : DataObject} {objs back : List DataObject}
  {sp : Space} {h : AmlHeap}

theorem built_root (hspace : h.nodePool = some sp.block ∧ h.nodePoolCap = sp.cap ∧
      h.nodePoolCount = sp.index + 1) (hmemory : ∀ i, h.node (sp.entry i) = sp.memory i) :
    Built data sp parent [] (h.modify (sp.entry 0) fun node =>
      { node with type := .null, parent := parent.or node.parent }) where
  pool := hspace.1
  cap := hspace.2.1
  count := hspace.2.2
  rootParent := by rw [AmlHeap.node_modify_same, hmemory]
  rootSibling := by rw [AmlHeap.node_modify_same, hmemory]
  rootChild := by
    rw [AmlHeap.node_modify_same, hmemory]
    rfl
  parents := fun i hi => absurd hi (Nat.not_lt_zero i)
  childs := fun i hi => absurd hi (Nat.not_lt_zero i)
  siblings := fun i hi => absurd hi (Nat.not_lt_zero i)
  meaning := fun i o hi => by cases hi
  fresh := fun i hi => by
    have hne : sp.entry i ≠ sp.entry 0 := fun heq => Nat.ne_of_gt hi (Space.entry_inj.mp heq)
    rw [AmlHeap.node_modify_other hne, hmemory]

theorem lastChild_getD (count : Nat) : (sp.lastChild count).getD (sp.entry 0) = sp.entry count := by
  cases count <;> rfl

theorem entry_ne {i j : Nat} (h : i ≠ j) : sp.entry i ≠ sp.entry j :=
  fun heq => h (Space.entry_inj.mp heq)

theorem lastChild_ne {i count : Nat} (h : i = 0 ∨ i ≠ count) :
    sp.lastChild count ≠ some (sp.entry i) := by
  unfold Space.lastChild
  split_ifs with hzero
  · exact nofun
  · intro heq
    have hsame := Space.entry_inj.mp (Option.some.inj heq)
    omega

-- A node that is made in the next entry becomes the last child.
theorem Built.link {h' : AmlHeap} {f : Filling} (hbuilt : Built data sp parent objs h)
    (hcount : h'.toNodePool = { h.toNodePool with nodePoolCount := h.nodePoolCount + 1 })
    (hnew : h'.node (sp.entry (objs.length + 1)) =
      { (sp.memory (objs.length + 1)).fill f with parent := some (sp.entry 0) })
    (hmeaning : ∀ node : AmlNode, (node.fill f).meaning data = some o.value)
    (hold : ∀ i, i ≠ objs.length + 1 → h'.node (sp.entry i) = h.node (sp.entry i)) :
    Built data sp parent (objs ++ [o])
      (linkChild h' (sp.entry 0) (sp.entry (objs.length + 1)) (sp.lastChild objs.length)) := by
  have hlength : (objs ++ [o]).length = objs.length + 1 := by rw [List.length_append]; rfl
  refine ⟨?_, ?_, ?_, ?_, ?_, ?_, fun i hi => ?_, fun i hi => ?_, fun i hi => ?_,
    fun i o' hi => ?_, fun i hi => ?_⟩
  · rw [linkChild_pool, hcount]
    exact hbuilt.pool
  · rw [linkChild_pool, hcount]
    exact hbuilt.cap
  · rw [linkChild_pool, hcount, hlength]
    exact congrArg (· + 1) hbuilt.count
  · rw [linkChild_parent, hold 0 (Nat.succ_ne_zero _).symm, hbuilt.rootParent]
  · rw [linkChild_sibling (lastChild_ne (.inl rfl)), hold 0 (Nat.succ_ne_zero _).symm,
      hbuilt.rootSibling]
  · rw [hlength, if_neg (Nat.succ_ne_zero _)]
    by_cases hzero : objs.length = 0
    · rw [Space.lastChild, if_pos hzero, linkChild_first, hzero]
    · rw [Space.lastChild, if_neg hzero, linkChild_child (fun hnone => by cases hnone),
        hold 0 (Nat.succ_ne_zero _).symm, hbuilt.rootChild, if_neg hzero]
  · rw [hlength] at hi
    rw [linkChild_parent]
    rcases Nat.lt_succ_iff_lt_or_eq.mp hi with hlt | rfl
    · rw [hold _ (by omega), hbuilt.parents i hlt]
    · rw [hnew]
  · rw [hlength] at hi
    rw [linkChild_child fun _ => entry_ne (Nat.succ_ne_zero i)]
    rcases Nat.lt_succ_iff_lt_or_eq.mp hi with hlt | rfl
    · rw [hold _ (by omega), hbuilt.childs i hlt]
    · rw [hnew]
      rfl
  · rw [hlength] at hi ⊢
    rcases Nat.lt_succ_iff_lt_or_eq.mp hi with hlt | rfl
    · rw [if_neg (by omega)]
      by_cases hlast : i + 1 = objs.length
      · rw [Space.lastChild, if_neg (by omega), ← hlast, linkChild_next]
      · rw [linkChild_sibling (lastChild_ne (.inr hlast)), hold _ (by omega), hbuilt.siblings i hlt,
          if_neg hlast]
    · rw [if_pos rfl, linkChild_sibling (lastChild_ne (.inr (Nat.succ_ne_self _))), hnew,
        Space.lastLink, if_neg (Nat.succ_ne_zero _)]
      rfl
  · rw [linkChild_meaning]
    rcases Nat.lt_or_ge i objs.length with hlt | hge
    · rw [List.getElem?_append_left hlt] at hi
      rw [hold _ (by omega), hbuilt.meaning i o' hi]
    · rw [List.getElem?_append_right hge, List.getElem?_singleton] at hi
      split_ifs at hi with hsame
      obtain rfl := Option.some.inj hi
      obtain rfl : i = objs.length := by omega
      rw [hnew]
      exact hmeaning _
  · rw [hlength] at hi
    rw [linkChild_other (by rw [lastChild_getD]; exact entry_ne (by omega)), hold _ (by omega),
      hbuilt.fresh i (by omega)]

-- An object that there is room for becomes the last child.
theorem Built.takes (hbuilt : Built data sp parent objs s.heap)
    (hroom : sp.index + 1 + objs.length < sp.cap)
    (htakes : TakesObject data gives (sp.entry 0) (sp.lastChild objs.length) s o m t) :
    m = sp.entry (objs.length + 1) ∧ Built data sp parent (objs ++ [o]) t.heap := by
  obtain ⟨hstarts, h, hnew, rfl⟩ := htakes
  obtain ⟨hm, rfl⟩ := getNewNode_room hnew hbuilt.pool
    (by rw [hbuilt.count, hbuilt.cap]; exact hroom)
  obtain rfl : m = sp.entry (objs.length + 1) := by
    rw [hm, hbuilt.count, Space.entry, Nat.add_assoc, Nat.add_comm 1]
  refine ⟨rfl, hbuilt.link rfl ?_ (meaning_held hstarts) fun i hi => ?_⟩
  · rw [objectNode_same, ← hbuilt.fresh _ (Nat.lt_succ_self _)]
    rfl
  · rw [objectNode_other (entry_ne hi)]
    rfl

theorem Built.takes_all (hbuilt : Built data sp parent objs s.heap)
    (hroom : sp.index + 1 + objs.length + back.length ≤ sp.cap)
    (htakes : TakesAll data gives (sp.entry 0) (sp.lastChild objs.length) s back t) :
    Built data sp parent (objs ++ back) t.heap := by
  generalize hprev : sp.lastChild objs.length = prev at htakes
  induction htakes generalizing objs with
  | nil => rwa [List.append_nil]
  | @cons prev s u t o back m htakes _ ih =>
      subst hprev
      rw [List.length_cons] at hroom
      obtain ⟨rfl, hnext⟩ := hbuilt.takes (by omega) htakes
      have hlength : (objs ++ [o]).length = objs.length + 1 := by rw [List.length_append]; rfl
      have hall := ih hnext (by rw [hlength]; omega) (by rw [hlength]; rfl)
      rwa [List.append_assoc] at hall

theorem Built.pointsIn_iff (hbuilt : Built data sp parent objs h) {p : Option NodePtr} :
    h.PointsIn p ↔ sp.Holds p := by
  unfold NodePool.PointsIn Space.Holds
  rw [hbuilt.pool, hbuilt.cap]
  simp only [Option.some.injEq]

theorem Built.links (hbuilt : Built data sp parent objs h) :
    Links (fun m => (h.node m).sibling) (h.node (sp.entry 0)).child (sp.children objs.length)
      (sp.lastLink objs.length) :=
  Links.of_steps hbuilt.rootChild hbuilt.siblings

end Builds

-- What the nodes of `count` objects need of the memory where the pool goes on: room, and in
-- the links that nothing is put in pointers that lead nowhere else.
structure FreshLinks (sp : Space) (parent : Option NodePtr) (count : Nat) : Prop where
  room : sp.index + count < sp.cap
  rootParent : sp.Holds (parent.or (sp.memory 0).parent)
  rootSibling : sp.Holds (sp.memory 0).sibling
  childs : ∀ i, i < count → sp.Holds (sp.memory (i + 1)).child
  last : sp.lastLink count = none

section Trees

variable {data : List UInt8} {gives : Nat → Option (Nat → AmlNode)} {s t : AmlState}
  {n m : NodePtr} {parent : Option NodePtr} {o : DataObject} {objs : List DataObject}
  {sp : Space} {h : AmlHeap} {fuel : Nat}

theorem Built.freshLinks (hbuilt : Built data sp parent objs h)
    (hroom : sp.index + objs.length < sp.cap) (hvalid : TreeValid data h (sp.entry 0) objs) :
    FreshLinks sp parent objs.length := by
  obtain ⟨children, hlinks, hobjs, hclosed⟩ := hvalid
  obtain ⟨rest, rfl, hrest⟩ := hbuilt.links.split hlinks
  have hlength := hobjs.length_eq
  have hchildren : (sp.children objs.length).length = objs.length := by simp [Space.children]
  rw [List.length_append, hchildren] at hlength
  obtain rfl : rest = [] := List.length_eq_zero_iff.mp (by omega)
  have hroot := hclosed _ (.head _)
  refine ⟨hroom, ?_, ?_, fun i hi => ?_, hrest⟩
  · rw [← hbuilt.rootParent]
    exact hbuilt.pointsIn_iff.mp hroot.parent
  · rw [← hbuilt.rootSibling]
    exact hbuilt.pointsIn_iff.mp hroot.sibling
  · have hmem : sp.entry (i + 1) ∈ sp.children objs.length ++ [] := by
      rw [List.append_nil]
      exact List.mem_map_of_mem (List.mem_range.mpr hi)
    rw [← hbuilt.childs i hi]
    exact hbuilt.pointsIn_iff.mp (hclosed _ (.tail _ hmem)).child

theorem Built.treeValid (hbuilt : Built data sp parent objs h)
    (hfresh : FreshLinks sp parent objs.length) : TreeValid data h (sp.entry 0) objs := by
  have hentry {i : Nat} (hi : i ≤ objs.length) : sp.Holds (some (sp.entry i)) := by
    rintro _ ⟨⟩
    exact ⟨rfl, lt_of_le_of_lt (Nat.add_le_add_left hi _) hfresh.room⟩
  have hnone : sp.Holds none := nofun
  refine ⟨sp.children objs.length, hfresh.last ▸ hbuilt.links, ?_, ?_⟩
  · refine List.forall₂_iff_get.mpr ⟨by simp [Space.children], fun i hi hi' => ?_⟩
    have hchild : (sp.children objs.length).get ⟨i, hi⟩ = sp.entry (i + 1) := by
      simp [Space.children]
    rw [hchild]
    exact hbuilt.meaning i _ (List.getElem?_eq_getElem hi')
  · intro m hm
    rcases List.mem_cons.mp hm with rfl | hm
    · refine ⟨hbuilt.pointsIn_iff.mpr ?_, hbuilt.pointsIn_iff.mpr ?_, hbuilt.pointsIn_iff.mpr ?_⟩
      · rw [hbuilt.rootParent]
        exact hfresh.rootParent
      · rw [hbuilt.rootChild, hfresh.last]
        split_ifs with hzero
        · exact hnone
        · exact hentry (by omega)
      · rw [hbuilt.rootSibling]
        exact hfresh.rootSibling
    · obtain ⟨i, hi, rfl⟩ := List.mem_map.mp hm
      have hi := List.mem_range.mp hi
      refine ⟨hbuilt.pointsIn_iff.mpr ?_, hbuilt.pointsIn_iff.mpr ?_, hbuilt.pointsIn_iff.mpr ?_⟩
      · rw [hbuilt.parents i hi]
        exact hentry (Nat.zero_le _)
      · rw [hbuilt.childs i hi]
        exact hfresh.childs i hi
      · rw [hbuilt.siblings i hi, hfresh.last]
        split_ifs with hlast
        · exact hnone
        · exact hentry (by omega)

-- A tree is not valid unless the nodes of all objects fit in where the pool goes on.
theorem amlParse_room (hobjs : data.drop s.ptr = encodeAll objs)
    (hret : Returns (amlParse data gives fuel parent) s n t)
    (hsp : nextSpace gives s.heap = some sp)
    (hvalid : TreeValid data t.heap n objs) : sp.index + objs.length < sp.cap := by
  obtain ⟨h, hnew, htakes⟩ := amlParse_takes hobjs hret
  obtain ⟨_, hsp', rfl, hpool, hcap, hcount, hlt, _⟩ := getNewNode_space hnew
  obtain rfl := Option.some.inj (hsp.symm.trans hsp')
  cases objs with
  | nil => exact hlt
  | cons o objs =>
      have htaken := getNewNode_new hnew
      obtain ⟨first, hroot⟩ := htakes.rooted htaken (List.cons_ne_nil _ _)
      have hfits := (htakes.room hpool (hvalid.pool hroot)).2 rfl
      change h.nodePoolCount ≤ h.nodePoolCap → h.nodePoolCount + _ ≤ h.nodePoolCap at hfits
      omega

theorem amlParse_built (hobjs : data.drop s.ptr = encodeAll objs)
    (hret : Returns (amlParse data gives fuel parent) s n t)
    (hsp : nextSpace gives s.heap = some sp)
    (hroom : sp.index + objs.length < sp.cap) :
    n = sp.entry 0 ∧ Built data sp parent objs t.heap := by
  obtain ⟨h, hnew, htakes⟩ := amlParse_takes hobjs hret
  obtain ⟨_, hsp', rfl, hpool, hcap, hcount, _, hmemory⟩ := getNewNode_space hnew
  obtain rfl := Option.some.inj (hsp.symm.trans hsp')
  have hroot : Built data sp parent [] (h.modify (sp.entry 0) fun node =>
    { node with type := .null, parent := parent.or node.parent }) :=
      built_root ⟨hpool, hcap, hcount⟩ hmemory
  refine ⟨rfl, hroot.takes_all (s := ⟨s.ptr, _⟩) ?_ htakes⟩
  rw [List.length_nil]
  omega

-- The tree that is made of objects is valid if and only if the nodes for them fit in where the
-- pool goes on, and the memory there holds no other links.
theorem amlParse_tree_iff (hobjs : data.drop s.ptr = encodeAll objs)
    (hret : Returns (amlParse data gives fuel parent) s n t) :
    TreeValid data t.heap n objs ↔
      ∃ sp, nextSpace gives s.heap = some sp ∧ FreshLinks sp parent objs.length := by
  constructor
  · intro hvalid
    obtain ⟨_, hnew, _⟩ := amlParse_takes hobjs hret
    obtain ⟨sp, hsp, _⟩ := getNewNode_space hnew
    have hroom := amlParse_room hobjs hret hsp hvalid
    obtain ⟨rfl, hbuilt⟩ := amlParse_built hobjs hret hsp hroom
    exact ⟨sp, hsp, hbuilt.freshLinks hroom hvalid⟩
  · rintro ⟨sp, hsp, hfresh⟩
    obtain ⟨rfl, hbuilt⟩ := amlParse_built hobjs hret hsp hfresh.room
    exact hbuilt.treeValid hfresh

theorem amlParse_tree_iff_one :
    ∃ n t, Returns (amlParse [0x01] blankBlocks 2 none) ⟨0, emptyHeap⟩ n t ∧
      TreeValid [0x01] t.heap n [.one] := by
  obtain ⟨n, t, hret⟩ :
      ∃ n t, Returns (amlParse [0x01] blankBlocks 2 none) ⟨0, emptyHeap⟩ n t := ⟨_, _, rfl⟩
  have hobjs : List.drop 0 [0x01] = encodeAll [.one] := rfl
  refine ⟨n, t, hret, (amlParse_tree_iff hobjs hret).mpr ⟨_, rfl, ?_⟩⟩
  exact ⟨by decide, nofun, nofun, fun _ _ => nofun, rfl⟩

-- With 73 objects the pool is moved away from the root, even in memory of zeros.
theorem amlParse_tree_dangles :
    ∃ n t, Returns (amlParse (encodeAll (List.replicate 73 .one)) blankBlocks 74 none)
      ⟨0, emptyHeap⟩ n t ∧
        ¬ TreeValid (encodeAll (List.replicate 73 .one)) t.heap n (List.replicate 73 .one) := by
  have hok : ((amlParse (encodeAll (List.replicate 73 .one)) blankBlocks 74 none).run
    ⟨0, emptyHeap⟩).isOk = true := by decide +kernel
  match hrun : (amlParse (encodeAll (List.replicate 73 .one)) blankBlocks 74 none).run
    ⟨0, emptyHeap⟩ with
  | .error e => rw [hrun] at hok; cases hok
  | .ok (n, t) =>
      refine ⟨n, t, hrun, fun hvalid => ?_⟩
      have hroom := amlParse_room rfl hrun rfl hvalid
      exact absurd hroom (by decide)

end Trees

end AosKernel.Aml
