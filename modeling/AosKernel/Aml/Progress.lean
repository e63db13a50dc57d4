import Mathlib.Logic.Relation
import AosKernel.Aml.Constants

namespace AosKernel.Aml

open Verif Exec

section Terms

variable {data : List UInt8} {gives : Nat → Option (Nat → AmlNode)} {s t : AmlState}
  {n : NodePtr} {r prev : Option NodePtr} {next : Option (Option NodePtr)} {e : AmlStop}
  {op : UInt8}

-- What an object leaves of the stream and of the pool, and the node that is made of it.
def objectNode (h : AmlHeap) (n m : NodePtr) (p : Nat) (o : DataObject) : AmlHeap :=
  (h.modify m fun node => node.fill (o.held p)).modify m fun node => { node with parent := some n }

-- A term is an object whose node gets its parent, or, where none starts, it is passed over
-- with nothing read.
theorem amlParseTerm_returns (hop : data[s.ptr]? = some op) :
    Returns (amlParseTerm data gives (some n)) s r t ↔
      (IsDataOp op ∧ ∃ (o : DataObject) (m : NodePtr) (h : AmlHeap), r = some m ∧
        o.encode <+: data.drop s.ptr ∧ getNewNode gives s.heap = (some m, h) ∧
          t = ⟨s.ptr + o.encode.length, objectNode h n m s.ptr o⟩) ∨
      (¬ IsDataOp op ∧ r = none ∧ t = s) := by
  unfold Returns amlParseTerm
  rw [peek_run hop]
  by_cases hdata : IsDataOp op
  · rw [if_pos hdata]
    refine Iff.trans ?_ (or_iff_left fun h => h.1 hdata).symm
    rw [and_iff_right hdata]
    refine returns_bind.trans ?_
    constructor
    · rintro ⟨m, _, hobject, hrest⟩
      obtain ⟨o, h, hstarts, hnew, rfl⟩ := (amlParseDataObject_returns hop).mp hobject
      obtain ⟨_, _, hset, hpure⟩ := returns_bind.mp hrest
      obtain rfl := setNode_returns.mp hset
      obtain ⟨rfl, rfl⟩ := returns_pure.mp hpure
      exact ⟨o, m, h, rfl, hstarts, hnew, rfl⟩
    · rintro ⟨o, m, h, rfl, hstarts, hnew, rfl⟩
      exact ⟨m, _, (amlParseDataObject_returns hop).mpr ⟨o, h, hstarts, hnew, rfl⟩,
        returns_bind.mpr ⟨(), _, setNode_returns.mpr rfl, returns_pure.mpr ⟨rfl, rfl⟩⟩⟩
  · rw [if_neg hdata]
    refine Iff.trans ?_ (or_iff_right fun h => hdata h.1).symm
    rw [and_iff_right hdata]
    refine Iff.trans returns_pure ?_
    constructor
    · rintro ⟨rfl, rfl⟩
      exact ⟨rfl, rfl⟩
    · rintro ⟨rfl, rfl⟩
      exact ⟨rfl, rfl⟩

theorem amlParseTerm_stops (hop : data[s.ptr]? = some op)
    (hstop : Stops (amlParseTerm data gives (some n)) s e) : e = .refused := by
  unfold Stops amlParseTerm at hstop
  rw [peek_run hop] at hstop
  by_cases hdata : IsDataOp op
  · rw [if_pos hdata] at hstop
    rcases stops_bind.mp hstop with hobject | ⟨m, u, _, hrest⟩
    · exact amlParseDataObject_stops hop hobject
    · rcases stops_bind.mp hrest with hset | ⟨_, _, _, hpure⟩
      · exact absurd hset setNode_not_stops
      · cases hpure
  · rw [if_neg hdata] at hstop
    cases hstop

-- The child after the one before it, or as the first.
def linkChild (h : AmlHeap) (n m : NodePtr) : Option NodePtr → AmlHeap
  | none => h.modify n fun node => { node with child := some m }
  | some p => h.modify p fun node => { node with sibling := some m }

@[simp] theorem linkChild_pool {h : AmlHeap} {m : NodePtr} :
    (linkChild h n m prev).toNodePool = h.toNodePool := by
  cases prev <;> rfl

@[simp] theorem objectNode_pool {h : AmlHeap} {m : NodePtr} {p : Nat} {o : DataObject} :
    (objectNode h n m p o).toNodePool = h.toNodePool := rfl

theorem taken_pool {h : AmlHeap} {m : NodePtr} {p : Nat} {o : DataObject} :
    (linkChild (objectNode h n m p o) n m prev).toNodePool = h.toNodePool := by
  rw [linkChild_pool, objectNode_pool]

-- What an iteration reads and does where it reads something.
def TakesObject (data : List UInt8) (gives : Nat → Option (Nat → AmlNode)) (n : NodePtr)
    (prev : Option NodePtr) (s : AmlState) (o : DataObject) (m : NodePtr) (t : AmlState) : Prop :=
  o.encode <+: data.drop s.ptr ∧ ∃ h, getNewNode gives s.heap = (some m, h) ∧
    t = ⟨s.ptr + o.encode.length, linkChild (objectNode h n m s.ptr o) n m prev⟩

theorem linkNode_returns {m : NodePtr} {u : Unit} : Returns (linkNode n m prev) s u t ↔
    t = { s with heap := linkChild s.heap n m prev } := by
  cases prev <;> exact setNode_returns

theorem linkNode_not_stops {m : NodePtr} : ¬ Stops (linkNode n m prev) s e := by
  cases prev <;> exact setNode_not_stops

theorem parseIteration_at (hop : data[s.ptr]? = some op) :
    (parseIteration data gives n prev).run s =
      (amlParseTerm data gives (some n) >>= takeChild n prev).run s := by
  have hlt : ¬ s.ptr ≥ data.length := Nat.not_le.mpr (List.getElem?_eq_some_iff.mp hop).1
  unfold parseIteration
  rw [StateT.run_bind]
  change (if s.ptr ≥ data.length then pure none else _ : Exec AmlStop AmlState _).run s = _
  rw [if_neg hlt]

theorem parseIteration_end (hend : data.length ≤ s.ptr) :
    Returns (parseIteration data gives n prev) s none s := by
  unfold Returns parseIteration
  rw [StateT.run_bind]
  change (if s.ptr ≥ data.length then pure none else _ : Exec AmlStop AmlState _).run s = _
  rw [if_pos hend]
  rfl

-- An iteration finds the end, takes an object, or goes on with nothing read.
theorem parseIteration_returns : Returns (parseIteration data gives n prev) s next t ↔
    (data.length ≤ s.ptr ∧ next = none ∧ t = s) ∨
    (∃ o m, TakesObject data gives n prev s o m t ∧ next = some (some m)) ∨
    (∃ op, data[s.ptr]? = some op ∧ ¬ IsDataOp op ∧ next = some prev ∧ t = s) := by
  rcases Nat.lt_or_ge s.ptr data.length with hlt | hend
  · have hop := List.getElem?_eq_getElem hlt
    rw [or_iff_right fun h => Nat.not_le.mpr hlt h.1]
    unfold Returns
    rw [parseIteration_at hop]
    refine returns_bind.trans ?_
    constructor
    · rintro ⟨r, u, hterm, hrest⟩
      rcases (amlParseTerm_returns hop).mp hterm with
        ⟨_, o, m, h, rfl, hstarts, hnew, rfl⟩ | ⟨hdata, rfl, rfl⟩
      · obtain ⟨_, _, hlink, hpure⟩ := returns_bind.mp hrest
        obtain rfl := linkNode_returns.mp hlink
        obtain ⟨rfl, rfl⟩ := returns_pure.mp hpure
        exact .inl ⟨o, m, ⟨hstarts, h, hnew, rfl⟩, rfl⟩
      · obtain ⟨rfl, rfl⟩ := returns_pure.mp hrest
        exact .inr ⟨_, hop, hdata, rfl, rfl⟩
    · rintro (⟨o, m, ⟨hstarts, h, hnew, rfl⟩, rfl⟩ | ⟨op, hop', hdata, rfl, rfl⟩)
      · have hfirst : data[s.ptr]? = some o.op :=
          prefix_singleton_iff.mp ((List.prefix_append [o.op] o.payload).trans hstarts)
        refine ⟨some m, _, (amlParseTerm_returns hfirst).mpr
          (.inl ⟨o.isDataOp_op, o, m, h, rfl, hstarts, hnew, rfl⟩), ?_⟩
        exact returns_bind.mpr ⟨(), _, linkNode_returns.mpr rfl, returns_pure.mpr ⟨rfl, rfl⟩⟩
      · exact ⟨none, _, (amlParseTerm_returns hop').mpr (.inr ⟨hdata, rfl, rfl⟩),
          returns_pure.mpr ⟨rfl, rfl⟩⟩
  · constructor
    · intro hret
      obtain ⟨rfl, rfl⟩ := returns_unique hret (parseIteration_end hend)
      exact .inl ⟨hend, rfl, rfl⟩
    · rintro (⟨_, rfl, rfl⟩ | ⟨o, m, ⟨hstarts, _⟩, _⟩ | ⟨op, hop, _⟩)
      · exact parseIteration_end hend
      · rw [List.drop_eq_nil_of_le hend] at hstarts
        exact absurd (List.prefix_nil.mp hstarts) o.encode_ne_nil
      · rw [List.getElem?_eq_none hend] at hop
        cases hop

theorem parseIteration_stops (hstop : Stops (parseIteration data gives n prev) s e) :
    e = .refused := by
  rcases Nat.lt_or_ge s.ptr data.length with hlt | hend
  · have hop := List.getElem?_eq_getElem hlt
    unfold Stops at hstop
    rw [parseIteration_at hop] at hstop
    rcases stops_bind.mp hstop with hterm | ⟨r, u, _, hrest⟩
    · exact amlParseTerm_stops hop hterm
    · cases r with
      | none => cases hrest
      | some m =>
          rcases stops_bind.mp hrest with hlink | ⟨_, _, _, hpure⟩
          · exact absurd hlink linkNode_not_stops
          · cases hpure
  · exact absurd (parseIteration_end hend) hstop.not_returns

end Terms

-- The encodings of the objects, one behind the other.
def encodeAll (objs : List DataObject) : List UInt8 := objs.flatMap DataObject.encode

-- Behind objects for which there are nodes, when `count` of them are taken first, a byte stands
-- that starts no object.
def Stuck (gives : Nat → Option (Nat → AmlNode)) (count : Nat) (rest : List UInt8)
    (h : AmlHeap) : Prop :=
  ∃ objs c tail, rest = encodeAll objs ++ c :: tail ∧ ¬ IsDataOp c ∧
    (takeNodes gives (count + objs.length) h).isSome

-- The states at the head of the loop, with the child before the next one.
def LoopStep (data : List UInt8) (gives : Nat → Option (Nat → AmlNode)) (n : NodePtr)
    (x y : AmlState × Option NodePtr) : Prop :=
  Returns (parseIteration data gives n x.2) x.1 (some y.2) y.1

-- aml_parse comes to an end, and every iteration that goes on has read something.
structure ParseTerminates (data : List UInt8) (gives : Nat → Option (Nat → AmlNode))
    (parent : Option NodePtr) (s : AmlState) : Prop where
  ends : ∃ fuel, ¬ Stops (amlParse data gives fuel parent) s .unfinished
  advances : ∀ n h, getNewNode gives s.heap = (some n, h) → ∀ x y,
    Relation.ReflTransGen (LoopStep data gives n) (⟨s.ptr, h.modify n fun node =>
      { node with type := .null, parent := parent.or node.parent }⟩, none) x →
    LoopStep data gives n x y → x.1.ptr < y.1.ptr

def RootTerminates (data : List UInt8) (gives : Nat → Option (Nat → AmlNode)) (s : AmlState) :
    Prop :=
  ∃ fuel, ¬ Stops (amlParseRoot data gives fuel) s .unfinished

section Loops

variable {data rest : List UInt8} {gives : Nat → Option (Nat → AmlNode)} {s t : AmlState}
  {n m : NodePtr} {prev parent : Option NodePtr} {h h' : AmlHeap} {count fuel : Nat}
  {o : DataObject}

theorem stuck_congr (hpool : h.toNodePool = h'.toNodePool) :
    Stuck gives count rest h ↔ Stuck gives count rest h' := by
  unfold Stuck
  simp only [takeNodes_congr hpool]

-- A node that was taken before the others.
theorem stuck_take (hnew : getNewNode gives h = (some m, h')) :
    Stuck gives (count + 1) rest h ↔ Stuck gives count rest h' := by
  have htake (k : Nat) : takeNodes gives (count + 1 + k) h = takeNodes gives (count + k) h' := by
    rw [show count + 1 + k = count + k + 1 by omega, takeNodes, hnew]
  unfold Stuck
  simp only [htake]

theorem not_stuck_of_none (hnew : (getNewNode gives h).1 = none) :
    ¬ Stuck gives (count + 1) rest h := by
  rintro ⟨objs, _, _, _, _, htake⟩
  rw [show count + 1 + objs.length = count + objs.length + 1 by omega, takeNodes] at htake
  rcases hget : getNewNode gives h with ⟨_ | _, _⟩
  · rw [hget] at htake
    cases htake
  · rw [hget] at hnew
    cases hnew

-- What is behind an object that was taken.
theorem TakesObject.stuck (htakes : TakesObject data gives n prev s o m t)
    (hstuck : Stuck gives 0 (data.drop t.ptr) t.heap) :
    Stuck gives 0 (data.drop s.ptr) s.heap := by
  obtain ⟨⟨back, hback⟩, h, hnew, rfl⟩ := htakes
  rw [stuck_congr taken_pool, ← stuck_take hnew] at hstuck
  obtain ⟨objs, c, tail, hdrop, hc, htake⟩ := hstuck
  refine ⟨o :: objs, c, tail, ?_, hc, ?_⟩
  · rw [← List.drop_drop, ← hback, List.drop_left] at hdrop
    rw [← hback, hdrop, encodeAll, encodeAll, List.flatMap_cons, List.append_assoc]
  · rwa [List.length_cons, Nat.zero_add, Nat.add_comm]

theorem TakesObject.ptr_lt (htakes : TakesObject data gives n prev s o m t) : s.ptr < t.ptr := by
  obtain ⟨_, h, _, rfl⟩ := htakes
  exact Nat.lt_add_of_pos_right (List.length_pos_of_ne_nil o.encode_ne_nil)

-- At a byte that starts no object the loop goes round for ever.
theorem parseLoop_hangs {op : UInt8} (hop : data[s.ptr]? = some op) (hdata : ¬ IsDataOp op)
    (fuel : Nat) : Stops (parseLoop data gives n fuel prev) s .unfinished := by
  induction fuel with
  | zero => rfl
  | succ fuel ih =>
      exact stops_bind.mpr (.inr ⟨some prev, s,
        parseIteration_returns.mpr (.inr (.inr ⟨op, hop, hdata, rfl, rfl⟩)), ih⟩)

theorem parseLoop_stuck (hstuck : Stuck gives 0 (data.drop s.ptr) s.heap) (fuel : Nat) :
    Stops (parseLoop data gives n fuel prev) s .unfinished := by
  obtain ⟨objs, c, tail, hdrop, hc, htake⟩ := hstuck
  induction objs generalizing s prev fuel with
  | nil =>
      have hop : data[s.ptr]? = some c := by
        rw [← List.head?_drop, hdrop]
        rfl
      exact parseLoop_hangs hop hc fuel
  | cons o objs ih =>
      cases fuel with
      | zero => rfl
      | succ fuel =>
          rw [encodeAll, List.flatMap_cons, List.append_assoc] at hdrop
          rw [List.length_cons, Nat.zero_add, takeNodes] at htake
          rcases hnew : getNewNode gives s.heap with ⟨_ | m, h⟩
          · rw [hnew] at htake
            cases htake
          · rw [hnew] at htake
            have hstarts : o.encode <+: data.drop s.ptr := ⟨_, hdrop.symm⟩
            have htakes : TakesObject data gives n prev s o m _ := ⟨hstarts, h, hnew, rfl⟩
            refine stops_bind.mpr (.inr ⟨some (some m), _,
              parseIteration_returns.mpr (.inr (.inl ⟨o, m, htakes, rfl⟩)), ih _ ?_ ?_⟩)
            · rw [← List.drop_drop, hdrop, List.drop_left]
              rfl
            · rwa [takeNodes_congr taken_pool, Nat.zero_add]

-- Elsewhere it needs no more iterations than there are bytes, and one.
theorem parseLoop_ends (hstuck : ¬ Stuck gives 0 (data.drop s.ptr) s.heap)
    (hfuel : data.length - s.ptr < fuel) :
    ¬ Stops (parseLoop data gives n fuel prev) s .unfinished := by
  induction fuel generalizing s prev with
  | zero => exact absurd hfuel (Nat.not_lt_zero _)
  | succ fuel ih =>
      intro hstop
      rcases stops_bind.mp hstop with hiteration | ⟨next, t, hiteration, hrest⟩
      · exact absurd (parseIteration_stops hiteration) (by decide)
      rcases parseIteration_returns.mp hiteration with
        ⟨_, rfl, rfl⟩ | ⟨o, m, htakes, rfl⟩ | ⟨op, hop, hdata, _⟩
      · cases hrest
      · refine ih (fun hnext => hstuck (htakes.stuck hnext)) ?_ hrest
        have hlt := htakes.ptr_lt
        have hroom := htakes.1.length_le
        rw [List.length_drop] at hroom
        have hpos := List.length_pos_of_ne_nil o.encode_ne_nil
        omega
      · have hlt := (List.getElem?_eq_some_iff.mp hop).1
        obtain ⟨_, rfl⟩ := List.getElem?_eq_some_iff.mp hop
        exact hstuck ⟨[], _, _, List.drop_eq_getElem_cons hlt, hdata, rfl⟩

theorem loopStep_advances {x y : AmlState × Option NodePtr}
    (hstuck : ¬ Stuck gives 0 (data.drop x.1.ptr) x.1.heap) (hstep : LoopStep data gives n x y) :
    ¬ Stuck gives 0 (data.drop y.1.ptr) y.1.heap ∧ x.1.ptr < y.1.ptr := by
  rcases parseIteration_returns.mp hstep with
    ⟨_, hnone, _⟩ | ⟨o, m, htakes, _⟩ | ⟨op, hop, hdata, _⟩
  · cases hnone
  · exact ⟨fun hnext => hstuck (htakes.stuck hnext), htakes.ptr_lt⟩
  · obtain ⟨hlt, rfl⟩ := List.getElem?_eq_some_iff.mp hop
    exact absurd ⟨[], _, _, List.drop_eq_getElem_cons hlt, hdata, rfl⟩ hstuck

theorem loopSteps_not_stuck {x y : AmlState × Option NodePtr}
    (hsteps : Relation.ReflTransGen (LoopStep data gives n) x y)
    (hstuck : ¬ Stuck gives 0 (data.drop x.1.ptr) x.1.heap) :
    ¬ Stuck gives 0 (data.drop y.1.ptr) y.1.heap := by
  induction hsteps with
  | refl => exact hstuck
  | tail _ hstep ih => exact (loopStep_advances ih hstep).1

-- The node of aml_parse is taken before those of the objects.
theorem amlParse_ends_iff : (∃ fuel, ¬ Stops (amlParse data gives fuel parent) s .unfinished) ↔
    ¬ Stuck gives 1 (data.drop s.ptr) s.heap := by
  match hnew : getNewNode gives s.heap with
  | (none, h) =>
      have hnone : (getNewNode gives s.heap).1 = none := by rw [hnew]
      refine iff_of_true ⟨0, fun hstop => ?_⟩ (not_stuck_of_none hnone)
      rcases stops_bind.mp hstop with hfirst | ⟨m, _, hfirst, _⟩
      · exact absurd (newNode_stops.mp hfirst).2 (by decide)
      · obtain ⟨_, hsome, _⟩ := newNode_returns.mp hfirst
        rw [hnew] at hsome
        cases hsome
  | (some m, h) =>
      let t : AmlState := ⟨s.ptr, h.modify m fun node =>
        { node with type := .null, parent := parent.or node.parent }⟩
      have hloop (fuel : Nat) : Stops (amlParse data gives fuel parent) s .unfinished ↔
          Stops (parseLoop data gives m fuel none) t .unfinished := by
        constructor
        · intro hstop
          rcases stops_bind.mp hstop with hfirst | ⟨m', _, hfirst, hrest⟩
          · exact absurd (newNode_stops.mp hfirst).2 (by decide)
          obtain ⟨_, hsome, rfl⟩ := newNode_returns.mp hfirst
          rw [hnew] at hsome
          cases hsome
          rcases stops_bind.mp hrest with hset | ⟨_, _, hset, hrest⟩
          · exact absurd hset setNode_not_stops
          obtain rfl := setNode_returns.mp hset
          rcases stops_bind.mp hrest with hstop | ⟨_, _, _, hpure⟩
          · exact hstop
          · cases hpure
        · intro hstop
          exact stops_bind.mpr (.inr ⟨m, _, newNode_returns.mpr ⟨h, hnew, rfl⟩, stops_bind.mpr
            (.inr ⟨(), _, setNode_returns.mpr rfl, stops_bind.mpr (.inl hstop)⟩)⟩)
      rw [stuck_take hnew, stuck_congr (show h.toNodePool = t.heap.toNodePool from rfl)]
      constructor
      · rintro ⟨fuel, hends⟩ hstuck
        exact hends ((hloop fuel).mpr (parseLoop_stuck hstuck fuel))
      · intro hstuck
        refine ⟨data.length - s.ptr + 1, fun hstop => ?_⟩
        exact parseLoop_ends hstuck (Nat.lt_succ_self _) ((hloop _).mp hstop)

theorem amlParse_terminates_iff : ParseTerminates data gives parent s ↔
    ¬ Stuck gives 1 (data.drop s.ptr) s.heap := by
  refine ⟨fun h => amlParse_ends_iff.mp h.ends, fun hstuck => ⟨amlParse_ends_iff.mpr hstuck, ?_⟩⟩
  intro n h hnew x y hsteps hstep
  rw [stuck_take hnew] at hstuck
  refine (loopStep_advances (loopSteps_not_stuck hsteps ?_) hstep).2
  rwa [stuck_congr AmlHeap.modify_pool]

theorem expect_root (hroot : data.drop s.ptr = AML_ROOT_CHAR :: rest) :
    Returns (onStream (expect data AML_ROOT_CHAR)) s () { s with ptr := s.ptr + 1 } := by
  have hscans := expect_scans data AML_ROOT_CHAR s.ptr
  refine onStream_returns.mpr ⟨_, hscans.complete _ () rfl ?_, rfl⟩
  rw [hroot]
  exact List.prefix_append [AML_ROOT_CHAR] rest

-- Of aml_parse_root the node is taken before that of aml_parse.
theorem amlParseRoot_stops_iff (hnew : getNewNode gives s.heap = (some m, h))
    (hroot : data.drop s.ptr = AML_ROOT_CHAR :: rest) (fuel : Nat) :
    Stops (amlParseRoot data gives fuel) s .unfinished ↔
      Stops (amlParse data gives fuel (some m))
        ⟨s.ptr + 1, h.modify m fun node => { node with type := .root }⟩ .unfinished := by
  have hexpect := expect_root hroot
  constructor
  · intro hstop
    rcases stops_bind.mp hstop with hfirst | ⟨_, _, hfirst, hrest⟩
    · exact absurd hexpect hfirst.not_returns
    obtain ⟨_, rfl⟩ := returns_unique hfirst hexpect
    rcases stops_bind.mp hrest with hnode | ⟨m', _, hnode, hrest⟩
    · exact absurd (newNode_stops.mp hnode).2 (by decide)
    obtain ⟨_, hsome, rfl⟩ := newNode_returns.mp hnode
    rw [hnew] at hsome
    cases hsome
    rcases stops_bind.mp hrest with hset | ⟨_, _, hset, hrest⟩
    · exact absurd hset setNode_not_stops
    obtain rfl := setNode_returns.mp hset
    rcases stops_bind.mp hrest with hstop | ⟨_, _, _, hrest⟩
    · exact hstop
    rcases stops_bind.mp hrest with hset | ⟨_, _, _, hpure⟩
    · exact absurd hset setNode_not_stops
    · cases hpure
  · intro hstop
    exact stops_bind.mpr (.inr ⟨(), _, hexpect, stops_bind.mpr (.inr ⟨m, _,
      newNode_returns.mpr ⟨h, hnew, rfl⟩, stops_bind.mpr (.inr ⟨(), _, setNode_returns.mpr rfl,
        stops_bind.mpr (.inl hstop)⟩)⟩)⟩)

theorem amlParseRoot_terminates_iff : RootTerminates data gives s ↔
    ¬ ∃ rest, data.drop s.ptr = AML_ROOT_CHAR :: rest ∧ Stuck gives 2 rest s.heap := by
  by_cases hroot : ∃ rest, data.drop s.ptr = AML_ROOT_CHAR :: rest
  · obtain ⟨rest, hroot⟩ := hroot
    have hrest : data.drop (s.ptr + 1) = rest := by
      rw [← List.drop_drop, hroot]
      rfl
    have hstuck : (∃ rest, data.drop s.ptr = AML_ROOT_CHAR :: rest ∧ Stuck gives 2 rest s.heap) ↔
        Stuck gives 2 rest s.heap := by
      constructor
      · rintro ⟨_, hroot', hstuck⟩
        rw [hroot] at hroot'
        cases hroot'
        exact hstuck
      · exact fun h => ⟨rest, hroot, h⟩
    rw [hstuck]
    match hnew : getNewNode gives s.heap with
    | (none, h) =>
        have hnone : (getNewNode gives s.heap).1 = none := by rw [hnew]
        refine iff_of_true ⟨0, fun hstop => ?_⟩ (not_stuck_of_none hnone)
        rcases stops_bind.mp hstop with hfirst | ⟨_, _, hfirst, hrest⟩
        · exact absurd (expect_root hroot) hfirst.not_returns
        obtain ⟨_, rfl⟩ := returns_unique hfirst (expect_root hroot)
        rcases stops_bind.mp hrest with hnode | ⟨_, _, hnode, _⟩
        · exact absurd (newNode_stops.mp hnode).2 (by decide)
        · obtain ⟨_, hsome, _⟩ := newNode_returns.mp hnode
          rw [hnew] at hsome
          cases hsome
    | (some m, h) =>
        unfold RootTerminates
        simp only [amlParseRoot_stops_iff hnew hroot]
        rw [stuck_take hnew, ← hrest]
        exact amlParse_ends_iff.trans (not_congr (stuck_congr AmlHeap.modify_pool))
  · refine iff_of_true ⟨0, fun hstop => ?_⟩ fun ⟨rest, h, _⟩ => hroot ⟨rest, h⟩
    have hrefuse : Stops (expect data AML_ROOT_CHAR) s.ptr .refused :=
      (expect_scans data AML_ROOT_CHAR s.ptr).refuses fun code _ hcode hstarts => by
        obtain ⟨rest, hrest⟩ := hstarts
        rw [hcode] at hrest
        exact hroot ⟨rest, hrest.symm⟩
    have hfirst : Stops (amlParseRoot data gives 0) s .refused :=
      stops_bind.mpr (.inl (onStream_stops.mpr hrefuse))
    cases hfirst.symm.trans hstop

-- aml_parse, and aml_parse_root through it, come to an end unless they come to a byte that
-- starts no object and have nodes for the objects before it.
theorem aml_terminates_iff (data : List UInt8) (gives : Nat → Option (Nat → AmlNode))
    (parent : Option NodePtr) (s : AmlState) :
    (ParseTerminates data gives parent s ↔ ¬ Stuck gives 1 (data.drop s.ptr) s.heap) ∧
      (RootTerminates data gives s ↔
        ¬ ∃ rest, data.drop s.ptr = AML_ROOT_CHAR :: rest ∧ Stuck gives 2 rest s.heap) :=
  ⟨amlParse_terminates_iff, amlParseRoot_terminates_iff⟩

-- A name where a term is to start.
theorem amlParse_hangs : ¬ ParseTerminates [0x08] blankBlocks none ⟨0, emptyHeap⟩ := fun h =>
  amlParse_ends_iff.mp h.ends ⟨[], 0x08, [], rfl, by decide, rfl⟩

end Loops

end AosKernel.Aml
