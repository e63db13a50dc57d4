import Mathlib.Algebra.Group.Nat.Defs
import Mathlib.Data.List.Basic

namespace AosKernel.Gpu

def MAX_PYRION_CONTEXTS : Nat := 256

def RES_ID_2D_BASE : Nat := MAX_PYRION_CONTEXTS
def RES_ID_3D_BASE : Nat := MAX_PYRION_CONTEXTS * 2
def RES_ID_SCANOUT_BASE : Nat := MAX_PYRION_CONTEXTS * 3
def RES_ID_RAST_BASE : Nat := MAX_PYRION_CONTEXTS * 4
def RES_ID_BLEND_BASE : Nat := MAX_PYRION_CONTEXTS * 5
def RES_ID_FONT_BASE : Nat := RES_ID_BLEND_BASE + MAX_PYRION_CONTEXTS

-- No slot is remembered.
def noContext : Nat := 0xFFFFFFFFFFFFFFFF

structure PyrionRect where
  x : Nat := 0
  y : Nat := 0
  width : Nat := 0
  height : Nat := 0
  color : Nat := 0
  deriving DecidableEq

-- A command stream. `words` is what its memory holds.
structure PyrionCmdStream where
  stream : Nat := 0
  streamPhys : Nat := 0
  streamCap : Nat := 0
  streamCount : Nat := 0
  words : Nat → UInt32 := fun _ => 0

structure PyrionCtx where
  ctxId : Nat := 0
  controllerIdx : Nat := 0
  cmdStream : PyrionCmdStream := {}
  viewport : PyrionRect := {}
  viewportSet : Bool := false
  flushNeeded : Bool := false
  deviceSet : Bool := false
  valid : Bool := false
  usable : Bool := false

inductive PyrionFault
  | outside
  | null

-- What the controller is told of contexts.
inductive ContextCommand
  | create (ctxId : Nat) (name : List UInt8)
  | resetScanout
  | destroy (ctxId : Nat)

-- `contexts` is p_contexts. A pointer to a context is the slot that holds it.
structure Pyrion where
  contexts : List (Option PyrionCtx)
  nxtCtx : Nat
  controllerCount : Nat
  sent : List ContextCommand

namespace Pyrion

-- Before pyrion_init_virtio.
def boot (controllerCount : Nat) : Pyrion :=
  ⟨List.replicate MAX_PYRION_CONTEXTS none, noContext, controllerCount, []⟩

def put (s : Pyrion) (slot : Nat) (ctx : PyrionCtx) : Pyrion :=
  { s with contexts := s.contexts.set slot (some ctx) }

def send (s : Pyrion) (cmd : ContextCommand) : Pyrion := { s with sent := s.sent ++ [cmd] }

end Pyrion

-- One turn of the loop, with whether a context was made so far.
def initSlot (alloc : Nat → Bool) (r : Bool × Pyrion) (i : Nat) : Bool × Pyrion :=
  if !alloc i then r else
  let s := r.2.put i { ctxId := i + 1, flushNeeded := true }
  (true, if s.nxtCtx > MAX_PYRION_CONTEXTS then { s with nxtCtx := i } else s)

-- `alloc` says for which slots avmf_alloc has memory.
def pyrionInitVirtio (alloc : Nat → Bool) (s : Pyrion) : Bool × Pyrion :=
  (List.range MAX_PYRION_CONTEXTS).foldl (initSlot alloc) (false, s)

def pyrionGetFreeCtxSlot (s : Pyrion) : Nat × Pyrion :=
  if s.nxtCtx < MAX_PYRION_CONTEXTS then (s.nxtCtx, { s with nxtCtx := noContext })
  else ((s.contexts.findIdx? fun ctx => ctx.any fun ctx => !ctx.valid).getD noContext, s)

-- The name that the context is created with.
def ctxName (name : List UInt8) : List UInt8 := (name.take 63).takeWhile fun c => c != 0

-- `mem` is what avmf_alloc answers, an address and the physical one.
def pyrionCreateCtxVirtio (name : List UInt8) (mem : Option (Nat × Nat)) (s : Pyrion) :
    Except PyrionFault (Option Nat × Pyrion) :=
  if s.controllerCount = 0 then .ok (none, s) else
  let (slot, s) := pyrionGetFreeCtxSlot s
  if slot > MAX_PYRION_CONTEXTS then .ok (none, s) else
  match s.contexts[slot]? with
  | none => .error .outside
  | some none => .error .null
  | some (some ctx) =>
      match mem with
      | none =>
          .ok (none, s.put slot
            { ctx with cmdStream := { ctx.cmdStream with streamCap := 0x1000, stream := 0 } })
      | some (virt, phys) =>
          let s := s.put slot
            { ctx with
              cmdStream :=
                { ctx.cmdStream with
                  streamCap := 0x1000, stream := virt, streamPhys := phys, words := fun _ => 0 }
              viewport := {}
              valid := true
              usable := false
              flushNeeded := true }
          .ok (some slot, s.send (.create ctx.ctxId (ctxName name)))

-- Without a device that is set nothing of the context's is left to undo.
def pyrionDestroyCtxVirtio (slot : Nat) (s : Pyrion) : Pyrion :=
  match s.contexts[slot]? with
  | some (some ctx) =>
      if !ctx.valid then s
      else if ctx.controllerIdx ≥ s.controllerCount then s
      else
        let s := (s.send .resetScanout).send (.destroy ctx.ctxId)
        { s.put slot {} with nxtCtx := ctx.ctxId }
  | _ => s

end AosKernel.Gpu
