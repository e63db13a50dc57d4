import Mathlib.Data.Int.Order.Basic
import AosKernel.Gpu.Pyrion
import AosKernel.Lib.Frames

namespace AosKernel.Gpu

open Verif

-- The operations of the Virgl command stream and the one object type in use.
def VIRTIO_VIRGL_OBJECT_NULL : UInt32 := 0
def VIRTIO_VIRGL_CCMD_CLEAR : UInt32 := 7
def VIRTIO_VIRGL_CCMD_SET_SCISSOR_STATE : UInt32 := 15
def VIRTIO_VIRGL_CCMD_BLIT : UInt32 := 16
def VIRTIO_VIRGL_CCMD_RESOURCE_COPY_REGION : UInt32 := 17

def PIPE_CLEAR_COLOR : UInt32 := 0x3FC
def PIPE_MASK_RGBA : UInt32 := 0xF
def PIPE_FORMAT_R8G8B8A8_UNORM : UInt32 := 67

def VIRGL_CMD_HEADER (op obj len : UInt32) : UInt32 := op ||| (obj <<< 8) ||| (len <<< 16)

-- How many arguments a header announces.
def virglLength (header : UInt32) : Nat := (header >>> 16).toNat

structure VirglCommand where
  opcode : UInt32
  objType : UInt32
  args : List UInt32
  deriving DecidableEq

namespace VirglCommand

def header (c : VirglCommand) : UInt32 :=
  VIRGL_CMD_HEADER c.opcode c.objType (UInt32.ofNat c.args.length &&& 0xFF)

def frame (c : VirglCommand) : UInt32 × List UInt32 := (c.header, c.args)

-- In bytes.
def size (c : VirglCommand) : Nat := (c.args.length + 1) * 4

-- Its header announces the arguments that it has.
def Framed (c : VirglCommand) : Prop := c.args.length = virglLength c.header

end VirglCommand

def setScissorState (minX minY maxX maxY : UInt32) : VirglCommand where
  opcode := VIRTIO_VIRGL_CCMD_SET_SCISSOR_STATE
  objType := VIRTIO_VIRGL_OBJECT_NULL
  args := [0, ((minY &&& 0xFFFF) <<< 16) ||| (minX &&& 0xFFFF),
    ((maxY &&& 0xFFFF) <<< 16) ||| (maxX &&& 0xFFFF)]

-- The colours are the bits of floats.
def clearCommand (r g b a : UInt32) : VirglCommand where
  opcode := VIRTIO_VIRGL_CCMD_CLEAR
  objType := VIRTIO_VIRGL_OBJECT_NULL
  args := [PIPE_CLEAR_COLOR, r, g, b, a, 0, 0, 0]

def copyRegion (dst x y src srcX srcY srcW srcH : UInt32) : VirglCommand where
  opcode := VIRTIO_VIRGL_CCMD_RESOURCE_COPY_REGION
  objType := VIRTIO_VIRGL_OBJECT_NULL
  args := [dst, 0, x, y, 0, src, 0, srcX, srcY, 0, srcW, srcH, 1]

def blitCommand (dst src width height : UInt32) : VirglCommand where
  opcode := VIRTIO_VIRGL_CCMD_BLIT
  objType := VIRTIO_VIRGL_OBJECT_NULL
  args := [PIPE_MASK_RGBA, 0, (height <<< 16) ||| width,
    dst, 0, PIPE_FORMAT_R8G8B8A8_UNORM, 0, 0, 0, width, height, 1,
    src, 0, PIPE_FORMAT_R8G8B8A8_UNORM, 0, 0, 0, width, height, 1]

theorem framed_of_length {c : VirglCommand} (op : UInt32) (n : Nat) (hop : c.opcode = op)
    (hobj : c.objType = VIRTIO_VIRGL_OBJECT_NULL) (hlen : c.args.length = n)
    (h : virglLength
      (VIRGL_CMD_HEADER op VIRTIO_VIRGL_OBJECT_NULL (UInt32.ofNat n &&& 0xFF)) = n) :
    c.Framed := by
  rw [VirglCommand.Framed, VirglCommand.header, hop, hobj, hlen, h]

theorem setScissorState_framed (minX minY maxX maxY : UInt32) :
    (setScissorState minX minY maxX maxY).Framed :=
  framed_of_length VIRTIO_VIRGL_CCMD_SET_SCISSOR_STATE 3 rfl rfl rfl (by decide)

theorem clearCommand_framed (r g b a : UInt32) : (clearCommand r g b a).Framed :=
  framed_of_length VIRTIO_VIRGL_CCMD_CLEAR 8 rfl rfl rfl (by decide)

theorem copyRegion_framed (dst x y src srcX srcY srcW srcH : UInt32) :
    (copyRegion dst x y src srcX srcY srcW srcH).Framed :=
  framed_of_length VIRTIO_VIRGL_CCMD_RESOURCE_COPY_REGION 13 rfl rfl rfl (by decide)

theorem blitCommand_framed (dst src width height : UInt32) :
    (blitCommand dst src width height).Framed :=
  framed_of_length VIRTIO_VIRGL_CCMD_BLIT 21 rfl rfl rfl (by decide)

-- Words stored from the `pos`-th on.
def storeWords (words : Nat → UInt32) (pos : Nat) (data : List UInt32) : Nat → UInt32 :=
  fun i => if i < pos then words i else (data[i - pos]?).getD (words i)

namespace PyrionCmdStream

-- What the device reads of the stream.
def content (s : PyrionCmdStream) : List UInt32 := (List.range (s.streamCount / 4)).map s.words

def push (s : PyrionCmdStream) (c : VirglCommand) : PyrionCmdStream :=
  if s.stream = 0 ∨ s.streamPhys = 0 then s
  else if s.streamCap < 1 ∨ s.streamCap < s.streamCount then s
  else
    let currentSize := s.streamCount % 2 ^ 32
    if currentSize + c.size > s.streamCap then s
    else
      { s with
        words := storeWords s.words (currentSize / 4) (c.header :: c.args)
        streamCount := s.streamCount + c.size }

end PyrionCmdStream

structure PyrionGlyph where
  codepoint : UInt32
  atlasX : UInt16
  atlasY : UInt16
  width : UInt16
  height : UInt16
  bearingX : Int
  bearingY : Int
  valid : Bool

-- font_size is a float, of which these are the bits.
structure PyrionFont where
  resId : UInt32
  baseFontSize : UInt32
  fontSize : UInt32
  valid : Bool

-- What pyrion_draw_char_virtio computes with floats: whether the scale of the
-- font is positive, and the bearings and the size of the glyph in that scale.
structure GlyphPlacement where
  scaled : Bool
  bearingX : Int
  bearingY : Int
  width : UInt32
  height : UInt32

-- The controllers, all of which are accelerated, and the arithmetic of
-- floats: `unorm` gives the bits of c / 255.0f.
structure VirglEnv where
  controllerCount : Nat
  unorm : UInt8 → UInt32
  place : PyrionFont → PyrionGlyph → GlyphPlacement

-- A context with the resources of its viewport. `submitted` is a history: the
-- streams that the device has been handed.
structure VirglCtx extends PyrionCtx where
  resId2d : Nat := 0
  resId3d : Nat := 0
  submitted : List (List UInt32) := []

-- How the device takes a stream: virtio_send_ex finds no descriptor for it,
-- the device does not answer in time, or it is done with it.
inductive SubmitAnswer
  | refused
  | timedOut
  | done
  deriving DecidableEq

structure FlushAnswers where
  submit : SubmitAnswer
  transfer : Bool
  flush : Bool

namespace VirglCtx

def push (ctx : VirglCtx) (c : VirglCommand) : VirglCtx :=
  { ctx with cmdStream := ctx.cmdStream.push c }

def viewportRight (ctx : VirglCtx) : UInt32 := UInt32.ofNat (ctx.viewport.x + ctx.viewport.width)

def viewportBottom (ctx : VirglCtx) : UInt32 := UInt32.ofNat (ctx.viewport.y + ctx.viewport.height)

-- The scissor that pixels and rectangles leave behind.
def viewportScissor (ctx : VirglCtx) : VirglCommand :=
  setScissorState (UInt32.ofNat ctx.viewport.x) (UInt32.ofNat ctx.viewport.y)
    ctx.viewportRight ctx.viewportBottom

-- The stream is handed to the device.
def hand (ctx : VirglCtx) : VirglCtx :=
  { ctx with submitted := ctx.submitted ++ [ctx.cmdStream.content] }

def emptyStream (ctx : VirglCtx) : VirglCtx :=
  { ctx with cmdStream := { ctx.cmdStream with streamCount := 0 } }

end VirglCtx

def pyrionPushVirgl (c : VirglCommand) (ctx : VirglCtx) : VirglCtx :=
  if !ctx.valid then ctx else { ctx.push c with flushNeeded := true }

section
variable (env : VirglEnv)

def VirglCtx.ready (ctx : VirglCtx) : Bool :=
  ctx.valid && ctx.usable && ctx.deviceSet && decide (ctx.controllerIdx < env.controllerCount)

def pyrionSubmitCmdStreamVirtio (answer : SubmitAnswer) (ctx : VirglCtx) : Bool × VirglCtx :=
  let s := ctx.cmdStream
  if !ctx.valid ∨ s.stream = 0 ∨ s.streamPhys = 0 then (false, ctx)
  else if ctx.controllerIdx ≥ env.controllerCount then (false, ctx)
  else if s.streamCap < 1 ∨ s.streamCap < s.streamCount then (false, ctx)
  else if s.streamCount < 1 then (true, ctx)
  else
    match answer with
    | .refused => (false, ctx)
    | .timedOut => (false, ctx.hand)
    | .done => (true, ctx.hand.emptyStream)

def pyrionClearVirtio (r g b a : UInt8) (ctx : VirglCtx) : Bool × VirglCtx :=
  if !ctx.ready env then (false, ctx)
  else
    (true, pyrionPushVirgl (clearCommand (env.unorm r) (env.unorm g) (env.unorm b) (env.unorm a))
      ctx)

-- The rectangle from (x, y) to (right, bottom) is cleared under a scissor.
def clearScissored (x y right bottom : UInt32) (r g b a : UInt8) (ctx : VirglCtx) :
    Bool × VirglCtx :=
  if !ctx.ready env then (false, ctx)
  else if x > ctx.viewportRight ∨ y > ctx.viewportBottom then (false, ctx)
  else
    let ctx := pyrionPushVirgl (setScissorState x y right bottom) ctx
    let ctx := pyrionPushVirgl
      (clearCommand (env.unorm r) (env.unorm g) (env.unorm b) (env.unorm a)) ctx
    (true, pyrionPushVirgl ctx.viewportScissor ctx)

def pyrionPixelVirtio (x y : UInt32) : UInt8 → UInt8 → UInt8 → UInt8 → VirglCtx → Bool × VirglCtx :=
  clearScissored env x y (x + 1) (y + 1)

def pyrionRectVirtio (x y w h : UInt32) :
    UInt8 → UInt8 → UInt8 → UInt8 → VirglCtx → Bool × VirglCtx :=
  clearScissored env x y (x + w) (y + h)

-- Where a glyph is drawn, unless that is outside the viewport.
def charPosition (x y : UInt32) (font : PyrionFont) (glyph : PyrionGlyph) (ctx : VirglCtx) :
    Option (UInt32 × UInt32) :=
  let p := env.place font glyph
  if !p.scaled then none else
  let drawXI := (x.toNat : Int) + p.bearingX
  let drawYI := (y.toNat : Int) - p.bearingY
  if drawXI < 0 then none
  else if drawYI < 0 then none
  else
    let drawX := UInt32.ofNat drawXI.toNat
    let drawY := UInt32.ofNat drawYI.toNat
    if drawX < UInt32.ofNat ctx.viewport.x ∨ drawY < UInt32.ofNat ctx.viewport.y ∨
        drawX + p.width > ctx.viewportRight ∨ drawY + p.height > ctx.viewportBottom then none
    else some (drawX, drawY)

def pyrionDrawCharVirtio (x y codepoint : UInt32) (font : PyrionFont) (glyph : PyrionGlyph)
    (ctx : VirglCtx) : Bool × VirglCtx :=
  if !(ctx.valid && ctx.usable && ctx.deviceSet) then (false, ctx)
  else if !font.valid then (false, ctx)
  else if !glyph.valid || glyph.codepoint != codepoint then (false, ctx)
  else if ctx.controllerIdx ≥ env.controllerCount then (false, ctx)
  else
    match charPosition env x y font glyph ctx with
    | none => (false, ctx)
    | some (drawX, drawY) =>
        (true, pyrionPushVirgl
          (copyRegion (UInt32.ofNat ctx.resId3d) drawX drawY font.resId glyph.atlasX.toUInt32
            glyph.atlasY.toUInt32 glyph.width.toUInt32 glyph.height.toUInt32) ctx)

def pyrionBlitVirtio (dst src width height : UInt32) (ctx : VirglCtx) : Bool × VirglCtx :=
  if !ctx.ready env then (false, ctx)
  else (true, pyrionPushVirgl (blitCommand dst src width height) ctx)

def pyrionFlushVirtio (answers : FlushAnswers) (ctx : VirglCtx) : Bool × VirglCtx :=
  if !(ctx.valid && ctx.usable && ctx.deviceSet && ctx.viewportSet) then (false, ctx)
  else if ctx.controllerIdx ≥ env.controllerCount then (false, ctx)
  else if !ctx.flushNeeded then (true, ctx)
  else
    match pyrionBlitVirtio env (UInt32.ofNat ctx.resId2d) (UInt32.ofNat ctx.resId3d)
        (UInt32.ofNat ctx.viewport.width) (UInt32.ofNat ctx.viewport.height) ctx with
    | (false, ctx) => (false, ctx)
    | (true, ctx) =>
        match pyrionSubmitCmdStreamVirtio env answers.submit ctx with
        | (false, ctx) => (false, ctx)
        | (true, ctx) =>
            if !answers.transfer then (false, ctx)
            else (answers.flush, { ctx with flushNeeded := false })

end

end AosKernel.Gpu
