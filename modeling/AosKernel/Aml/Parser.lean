import AosKernel.Aml.Stream

namespace AosKernel.Aml

open Verif

def AML_ZERO_OP : UInt8 := 0x00
def AML_ONE_OP : UInt8 := 0x01
def AML_BYTE_PREFIX : UInt8 := 0x0A
def AML_WORD_PREFIX : UInt8 := 0x0B
def AML_DWORD_PREFIX : UInt8 := 0x0C
def AML_STRING_PREFIX : UInt8 := 0x0D
def AML_QWORD_PREFIX : UInt8 := 0x0E
def AML_DUAL_NAME_PREFIX : UInt8 := 0x2E
def AML_MULTI_NAME_PREFIX : UInt8 := 0x2F
def AML_ROOT_CHAR : UInt8 := 0x5C
def AML_ONES_OP : UInt8 := 0xFF

def PAGE_SIZE : Nat := 4096
def sizeofAmlNode : Nat := 56
def NODES_PER_PAGE : Nat := PAGE_SIZE / sizeofAmlNode

inductive AmlNodeType
  | null
  | root
  | nameSeg
  | dualNameSeg
  | multiNameSeg
  | nullName
  | integer
  | string
  deriving DecidableEq

-- What the union of a node holds. Pointers to the stream are places in it.
inductive AmlValue
  | string (ptr length : Nat)
  | integer (v : BitVec 64) (sizeInBytes : Nat)
  | multiNameSeg (count : UInt8) (segments : Nat)
  | nameSeg (chars : List UInt8)
  | dualNameSeg (chars : List UInt8)
  deriving DecidableEq

-- A pointer to a node is one to an entry of a block that avmf_alloc has given.
structure NodePtr where
  block : Nat
  index : Nat
  deriving DecidableEq

structure AmlNode where
  type : AmlNodeType
  value : AmlValue
  parent : Option NodePtr
  child : Option NodePtr
  sibling : Option NodePtr
  deriving DecidableEq

-- What a parser writes to a new node. A null name leaves the union as it is.
structure Filling where
  type : AmlNodeType
  value : Option AmlValue
  deriving DecidableEq

def AmlNode.fill (node : AmlNode) (f : Filling) : AmlNode :=
  { node with type := f.type, value := f.value.getD node.value }

-- The pool of nodes. The blocks are numbered by the calls of avmf_alloc, of which there were
-- `allocs` so far.
structure NodePool where
  nodePool : Option Nat
  nodePoolCap : Nat
  nodePoolCount : Nat
  allocs : Nat
  pool_lt : ∀ b, nodePool = some b → b < allocs

-- The pool and the nodes in memory. A block that was given back keeps what it held.
structure AmlHeap extends NodePool where
  blocks : Nat → Nat → AmlNode

namespace AmlHeap

def node (h : AmlHeap) (n : NodePtr) : AmlNode := h.blocks n.block n.index

-- A store to a field of a node.
def modify (h : AmlHeap) (n : NodePtr) (f : AmlNode → AmlNode) : AmlHeap :=
  { h with
    blocks := Function.update h.blocks n.block
      (Function.update (h.blocks n.block) n.index (f (h.node n))) }

-- The pool in a block that was just given, with the first `count` entries of the old one.
def adopt (h : AmlHeap) (contents : Nat → AmlNode) (count cap : Nat) : AmlHeap where
  blocks := Function.update h.blocks h.allocs fun i =>
    match h.nodePool with
    | some b => if i < count then h.blocks b i else contents i
    | none => contents i
  nodePool := some h.allocs
  nodePoolCap := cap
  nodePoolCount := count
  allocs := h.allocs + 1
  pool_lt := fun _ hb => Option.some.inj hb ▸ Nat.lt_succ_self _

def refused (h : AmlHeap) : AmlHeap :=
  { h with allocs := h.allocs + 1, pool_lt := fun b hb => Nat.lt_succ_of_lt (h.pool_lt b hb) }

-- `&node_pool[node_pool_count++]`
def take (h : AmlHeap) (pool : Nat) : Option NodePtr × AmlHeap :=
  (some ⟨pool, h.nodePoolCount⟩, { h with nodePoolCount := h.nodePoolCount + 1 })

end AmlHeap

section Nodes

-- What the calls of avmf_alloc give: NULL, or a block with what its memory holds.
variable (gives : Nat → Option (Nat → AmlNode))

def getNewNode (h : AmlHeap) : Option NodePtr × AmlHeap :=
  match h.nodePool with
  | none =>
      match gives h.allocs with
      | none => (none, h.refused)
      | some contents => (h.adopt contents 0 NODES_PER_PAGE).take h.allocs
  | some pool =>
      let h :=
        if h.nodePoolCap < h.nodePoolCount then { h with nodePoolCount := h.nodePoolCap } else h
      if h.nodePoolCount ≥ h.nodePoolCap then
        match gives h.allocs with
        | none => (none, h.refused)
        | some contents =>
            (h.adopt contents h.nodePoolCount (h.nodePoolCap + NODES_PER_PAGE)).take h.allocs
      else h.take pool

end Nodes

structure AmlState where
  ptr : Nat
  heap : AmlHeap

-- What works on the stream alone.
def onStream {α : Type} (m : Exec AmlStop Nat α) : Exec AmlStop AmlState α := do
  let s ← get
  match m.run s.ptr with
  | .error e => throw e
  | .ok (a, ptr) => do
      set { s with ptr := ptr }
      pure a

def amlIsLeadNameChar (c : UInt8) : Bool := (c ≥ 0x41 && c ≤ 0x5A) || c == 0x5F

def amlIsNameChar (c : UInt8) : Bool := amlIsLeadNameChar c || (c ≥ 0x30 && c ≤ 0x39)

section Values

variable (data : List UInt8)

-- The byte that says what follows.
def expect (c : UInt8) : Exec AmlStop Nat Unit := do
  let d ← amlNext data
  if d ≠ c then throw .refused else pure ()

-- The loop over a string, with `left` bytes before the end: whether it is terminated.
def stringLoop : Nat → Exec AmlStop Nat Bool
  | 0 => pure false
  | left + 1 => do
      let c ← amlNext data
      if c = 0x00 then pure true
      else if c < 0x01 ∨ c > 0x7F then throw .refused
      else stringLoop left

def readString : Exec AmlStop Nat Filling := do
  let start ← get
  let terminated ← stringLoop data (data.length - start)
  if ¬ terminated then throw .refused
  else do
    let ptr ← get
    pure ⟨.string, some (.string start (ptr - start - 1))⟩

-- As many characters as there are checks, each of them checked.
def readChars : List (UInt8 → Bool) → Exec AmlStop Nat (List UInt8)
  | [] => pure []
  | ok :: rest => do
      let c ← amlNext data
      if ¬ ok c then throw .refused
      else do
        let cs ← readChars rest
        pure (c :: cs)

def segChecks : List (UInt8 → Bool) :=
  [amlIsLeadNameChar, amlIsNameChar, amlIsNameChar, amlIsNameChar]

-- The loop over the segments, with `left` bytes before the end.
def multiLoop (segments : UInt8) : Nat → UInt8 → UInt8 → Exec AmlStop Nat Unit
  | 0, _, _ => pure ()
  | left + 1, segmentsConsumed, bytesPerSegConsumed => do
      let c ← amlNext data
      if ¬ (if bytesPerSegConsumed = 0 then amlIsLeadNameChar c else amlIsNameChar c) then
        throw .refused
      else if bytesPerSegConsumed + 1 = 4 then
        if segmentsConsumed + 1 = segments then pure ()
        else multiLoop segments left (segmentsConsumed + 1) 0
      else multiLoop segments left segmentsConsumed (bytesPerSegConsumed + 1)

def readSegments : Exec AmlStop Nat Filling := do
  let segments ← amlNext data
  if segments < 1 then throw .refused
  else do
    let start ← get
    multiLoop data segments (data.length - start) 0 0
    pure ⟨.multiNameSeg, some (.multiNameSeg segments start)⟩

def readInteger {w : Nat} (m : Exec AmlStop Nat (BitVec w)) : Exec AmlStop Nat Filling := do
  let value ← m
  pure ⟨.integer, some (.integer (value.setWidth 64) (w / 8))⟩

def readConst (c : UInt8) (value : Exec AmlStop Nat Filling) : Exec AmlStop Nat Filling := do
  expect data c
  value

end Values

section Parser

variable (data : List UInt8) (gives : Nat → Option (Nat → AmlNode))

def newNode : Exec AmlStop AmlState NodePtr := do
  let s ← get
  match getNewNode gives s.heap with
  | (none, _) => throw .refused
  | (some n, heap) => do
      set { s with heap := heap }
      pure n

def setNode (n : NodePtr) (f : AmlNode → AmlNode) : Exec AmlStop AmlState Unit :=
  modify fun s => { s with heap := s.heap.modify n f }

-- A new node for what is read.
def readNode (m : Exec AmlStop Nat Filling) : Exec AmlStop AmlState NodePtr := do
  let f ← onStream m
  let n ← newNode gives
  setNode n fun node => node.fill f
  pure n

def parseConst (c : UInt8) (value : Exec AmlStop Nat Filling) : Exec AmlStop AmlState NodePtr :=
  readNode gives (readConst data c value)

def amlParseZeroConst : Exec AmlStop AmlState NodePtr :=
  parseConst data gives AML_ZERO_OP (pure ⟨.integer, some (.integer 0 1)⟩)

def amlParseOneConst : Exec AmlStop AmlState NodePtr :=
  parseConst data gives AML_ONE_OP (pure ⟨.integer, some (.integer 1 1)⟩)

def amlParseOnesConst : Exec AmlStop AmlState NodePtr :=
  parseConst data gives AML_ONES_OP (pure ⟨.integer, some (.integer (BitVec.allOnes 64) 1)⟩)

def amlParseByteConst : Exec AmlStop AmlState NodePtr :=
  parseConst data gives AML_BYTE_PREFIX (readInteger (amlParseByte data))

def amlParseWordConst : Exec AmlStop AmlState NodePtr :=
  parseConst data gives AML_WORD_PREFIX (readInteger (amlParseWord data))

def amlParseDwordConst : Exec AmlStop AmlState NodePtr :=
  parseConst data gives AML_DWORD_PREFIX (readInteger (amlParseDword data))

def amlParseQwordConst : Exec AmlStop AmlState NodePtr :=
  parseConst data gives AML_QWORD_PREFIX (readInteger (amlParseQword data))

def amlParseStringConst : Exec AmlStop AmlState NodePtr :=
  parseConst data gives AML_STRING_PREFIX (readString data)

def amlParseNameseg : Exec AmlStop AmlState NodePtr :=
  readNode gives do
    let chars ← readChars data segChecks
    pure ⟨.nameSeg, some (.nameSeg (chars ++ [0]))⟩

def amlParseDualNamepath : Exec AmlStop AmlState NodePtr :=
  parseConst data gives AML_DUAL_NAME_PREFIX do
    let chars ← readChars data (segChecks ++ segChecks)
    pure ⟨.dualNameSeg, some (.dualNameSeg (chars ++ [0]))⟩

def amlParseMultiNamepath : Exec AmlStop AmlState NodePtr :=
  parseConst data gives AML_MULTI_NAME_PREFIX (readSegments data)

def amlParseNullNamepath : Exec AmlStop AmlState NodePtr :=
  parseConst data gives 0 (pure ⟨.nullName, none⟩)

def amlParseNamepath : Exec AmlStop AmlState NodePtr := do
  let enc ← onStream (amlPeek data)
  if enc = AML_DUAL_NAME_PREFIX then amlParseDualNamepath data gives
  else if enc = AML_MULTI_NAME_PREFIX then amlParseMultiNamepath data gives
  else if enc = 0 then amlParseNullNamepath data gives
  else amlParseNameseg data gives

def amlParseDataObject : Exec AmlStop AmlState NodePtr := do
  let enc ← onStream (amlPeek data)
  if enc = AML_ZERO_OP then amlParseZeroConst data gives
  else if enc = AML_ONE_OP then amlParseOneConst data gives
  else if enc = AML_ONES_OP then amlParseOnesConst data gives
  else if enc = AML_BYTE_PREFIX then amlParseByteConst data gives
  else if enc = AML_WORD_PREFIX then amlParseWordConst data gives
  else if enc = AML_DWORD_PREFIX then amlParseDwordConst data gives
  else if enc = AML_QWORD_PREFIX then amlParseQwordConst data gives
  else if enc = AML_STRING_PREFIX then amlParseStringConst data gives
  else throw .refused

-- The bytes that aml_parse_term takes for a data object.
def IsDataOp (op : UInt8) : Prop :=
  op = AML_ZERO_OP ∨ op = AML_ONE_OP ∨ op = AML_ONES_OP ∨ op = AML_BYTE_PREFIX ∨
    op = AML_WORD_PREFIX ∨ op = AML_DWORD_PREFIX ∨ op = AML_QWORD_PREFIX ∨ op = AML_STRING_PREFIX

instance (op : UInt8) : Decidable (IsDataOp op) := inferInstanceAs (Decidable (_ ∨ _))

-- `none` is the NULL that is valid.
def amlParseTerm (parent : Option NodePtr) : Exec AmlStop AmlState (Option NodePtr) :=
  match parent with
  | none => throw .refused
  | some _ => do
      let op ← onStream (amlPeek data)
      if IsDataOp op then do
        let n ← amlParseDataObject data gives
        setNode n fun node => { node with parent := parent }
        pure (some n)
      else pure none

-- The child becomes the sibling of the one before it, or the first.
def linkNode (n cnode : NodePtr) : Option NodePtr → Exec AmlStop AmlState Unit
  | none => setNode n fun node => { node with child := some cnode }
  | some prev => setNode prev fun node => { node with sibling := some cnode }

-- The NULL that is valid is passed over.
def takeChild (n : NodePtr) (prev : Option NodePtr) :
    Option NodePtr → Exec AmlStop AmlState (Option (Option NodePtr))
  | none => pure (some prev)
  | some cnode => do
      linkNode n cnode prev
      pure (some (some cnode))

-- An iteration of the loop of aml_parse: `none` where the loop ends, else the child before
-- the next one.
def parseIteration (n : NodePtr) (prev : Option NodePtr) :
    Exec AmlStop AmlState (Option (Option NodePtr)) := do
  let s ← get
  if s.ptr ≥ data.length then pure none
  else do
    let cnode ← amlParseTerm data gives (some n)
    takeChild n prev cnode

-- The loop, unless it takes `fuel` iterations or more.
def parseLoop (n : NodePtr) : Nat → Option NodePtr → Exec AmlStop AmlState Unit
  | 0, _ => throw .unfinished
  | fuel + 1, prev => do
      match ← parseIteration data gives n prev with
      | none => pure ()
      | some prev => parseLoop n fuel prev

def amlParse (fuel : Nat) (parent : Option NodePtr) : Exec AmlStop AmlState NodePtr := do
  let n ← newNode gives
  setNode n fun node => { node with type := .null, parent := parent.or node.parent }
  parseLoop data gives n fuel none
  pure n

def amlParseRoot (fuel : Nat) : Exec AmlStop AmlState NodePtr := do
  onStream (expect data AML_ROOT_CHAR)
  let n ← newNode gives
  setNode n fun node => { node with type := .root }
  let children ← amlParse data gives fuel (some n)
  setNode n fun node => { node with child := some children }
  pure n

end Parser

end AosKernel.Aml
