import Mathlib.Algebra.GroupWithZero.Nat
import AosKernel.Gpu.CommandStream
import AosKernel.Lib.Trace

namespace AosKernel.Gpu

open Verif

inductive PyrionOp
  | clear (r g b a : UInt8)
  | pixel (x y : UInt32) (r g b a : UInt8)
  | rect (x y w h : UInt32) (r g b a : UInt8)
  | drawChar (x y codepoint : UInt32) (font : PyrionFont) (glyph : PyrionGlyph)
  | blit (dst src width height : UInt32)
  | flush (answers : FlushAnswers)

def wordsOf (cs : List VirglCommand) : List UInt32 := unframe (cs.map VirglCommand.frame)

def bytesOf (cs : List VirglCommand) : Nat := (cs.map VirglCommand.size).sum

def pushAll (cs : List VirglCommand) (ctx : VirglCtx) : VirglCtx :=
  cs.foldl (fun ctx c => pyrionPushVirgl c ctx) ctx

namespace PyrionOp

def isFlush : PyrionOp → Bool
  | .flush _ => true
  | _ => false

section
variable (env : VirglEnv)

def run : PyrionOp → VirglCtx → Bool × VirglCtx
  | .clear r g b a => pyrionClearVirtio env r g b a
  | .pixel x y r g b a => pyrionPixelVirtio env x y r g b a
  | .rect x y w h r g b a => pyrionRectVirtio env x y w h r g b a
  | .drawChar x y codepoint font glyph => pyrionDrawCharVirtio env x y codepoint font glyph
  | .blit dst src width height => pyrionBlitVirtio env dst src width height
  | .flush answers => pyrionFlushVirtio env answers

-- The operation passes its own checks and has something to put in the stream.
def accepted (ctx : VirglCtx) : PyrionOp → Bool
  | .clear .. => ctx.ready env
  | .pixel x y .. => ctx.ready env && decide (x ≤ ctx.viewportRight ∧ y ≤ ctx.viewportBottom)
  | .rect x y .. => ctx.ready env && decide (x ≤ ctx.viewportRight ∧ y ≤ ctx.viewportBottom)
  | .drawChar x y codepoint font glyph =>
      ctx.ready env && font.valid && glyph.valid && glyph.codepoint == codepoint &&
        (charPosition env x y font glyph ctx).isSome
  | .blit .. => ctx.ready env
  | .flush _ => ctx.ready env && ctx.viewportSet && ctx.flushNeeded

-- The commands of a pixel and of a rectangle.
def scissored (x y right bottom : UInt32) (r g b a : UInt8) (ctx : VirglCtx) : List VirglCommand :=
  [setScissorState x y right bottom,
    clearCommand (env.unorm r) (env.unorm g) (env.unorm b) (env.unorm a), ctx.viewportScissor]

-- The commands that the operation is made of.
def commands (ctx : VirglCtx) : PyrionOp → List VirglCommand
  | .clear r g b a => [clearCommand (env.unorm r) (env.unorm g) (env.unorm b) (env.unorm a)]
  | .pixel x y r g b a => scissored env x y (x + 1) (y + 1) r g b a ctx
  | .rect x y w h r g b a => scissored env x y (x + w) (y + h) r g b a ctx
  | .drawChar x y _ font glyph =>
      match charPosition env x y font glyph ctx with
      | none => []
      | some (drawX, drawY) =>
          [copyRegion (UInt32.ofNat ctx.resId3d) drawX drawY font.resId glyph.atlasX.toUInt32
            glyph.atlasY.toUInt32 glyph.width.toUInt32 glyph.height.toUInt32]
  | .blit dst src width height => [blitCommand dst src width height]
  | .flush _ =>
      if ctx.flushNeeded then
        [blitCommand (UInt32.ofNat ctx.resId2d) (UInt32.ofNat ctx.resId3d)
          (UInt32.ofNat ctx.viewport.width) (UInt32.ofNat ctx.viewport.height)]
      else []

theorem framed_of_mem_commands {ctx : VirglCtx} {op : PyrionOp} {c : VirglCommand}
    (hc : c ∈ op.commands env ctx) : c.Framed := by
  cases op with
  | clear r g b a =>
      rw [List.mem_singleton.mp hc]
      exact clearCommand_framed ..
  | blit dst src width height =>
      rw [List.mem_singleton.mp hc]
      exact blitCommand_framed ..
  | pixel x y r g b a | rect x y w h r g b a =>
      simp only [commands, scissored, List.mem_cons, List.not_mem_nil, or_false] at hc
      rcases hc with rfl | rfl | rfl
      · exact setScissorState_framed ..
      · exact clearCommand_framed ..
      · exact setScissorState_framed ..
  | drawChar x y codepoint font glyph =>
      rw [commands] at hc
      split at hc
      · cases hc
      · rw [List.mem_singleton.mp hc]
        exact copyRegion_framed ..
  | flush answers =>
      rw [commands] at hc
      split at hc
      · rw [List.mem_singleton.mp hc]
        exact blitCommand_framed ..
      · cases hc

end

end PyrionOp

@[simp] theorem viewportScissor_pushVirgl (c : VirglCommand) (ctx : VirglCtx) :
    (pyrionPushVirgl c ctx).viewportScissor = ctx.viewportScissor := by
  unfold pyrionPushVirgl
  split <;> rfl

theorem pushVirgl_valid {ctx : VirglCtx} (h : ctx.valid = true) (c : VirglCommand) :
    pyrionPushVirgl c ctx = { ctx.push c with flushNeeded := true } := by
  rw [pyrionPushVirgl, if_neg (by rw [h]; nofun)]

theorem clearScissored_eq (env : VirglEnv) (x y right bottom : UInt32) (r g b a : UInt8)
    (ctx : VirglCtx) :
    clearScissored env x y right bottom r g b a ctx =
      if ctx.ready env && decide (x ≤ ctx.viewportRight ∧ y ≤ ctx.viewportBottom) then
        (true, pushAll (PyrionOp.scissored env x y right bottom r g b a ctx) ctx)
      else (false, ctx) := by
  unfold clearScissored
  cases hready : ctx.ready env
  · simp
  · by_cases hin : x ≤ ctx.viewportRight ∧ y ≤ ctx.viewportBottom
    · simp [hin, pushAll, PyrionOp.scissored]
    · have hout : x > ctx.viewportRight ∨ y > ctx.viewportBottom := by
        simpa only [not_and_or, UInt32.not_le] using hin
      simp [hin, hout]

-- An operation other than a flush puts all of its commands in the stream, one
-- after the other, or does nothing.
theorem run_drawing (env : VirglEnv) {op : PyrionOp} (hop : op.isFlush = false) (ctx : VirglCtx) :
    op.run env ctx =
      if op.accepted env ctx then (true, pushAll (op.commands env ctx) ctx) else (false, ctx) := by
  cases op with
  | clear r g b a =>
      cases hready : ctx.ready env <;>
        simp [PyrionOp.run, PyrionOp.accepted, pyrionClearVirtio, hready, pushAll,
          PyrionOp.commands]
  | blit dst src width height =>
      cases hready : ctx.ready env <;>
        simp [PyrionOp.run, PyrionOp.accepted, pyrionBlitVirtio, hready, pushAll,
          PyrionOp.commands]
  | pixel x y r g b a => exact clearScissored_eq env x y (x + 1) (y + 1) r g b a ctx
  | rect x y w h r g b a => exact clearScissored_eq env x y (x + w) (y + h) r g b a ctx
  | drawChar x y codepoint font glyph =>
      simp only [PyrionOp.run, PyrionOp.accepted, pyrionDrawCharVirtio, PyrionOp.commands,
        VirglCtx.ready]
      rcases Bool.eq_false_or_eq_true (ctx.valid && ctx.usable && ctx.deviceSet) with hctx | hctx
      swap
      · simp [hctx]
      rcases Bool.eq_false_or_eq_true font.valid with hfont | hfont
      swap
      · simp [hctx, hfont]
      by_cases hglyph : glyph.valid ∧ glyph.codepoint = codepoint
      swap
      · have hout : (!glyph.valid || glyph.codepoint != codepoint) = true := by
          simpa only [Bool.or_eq_true, Bool.not_eq_true', bne_iff_ne, ← Bool.not_eq_true,
            not_and_or] using hglyph
        have hno : (glyph.valid && glyph.codepoint == codepoint) = false := by simpa using hglyph
        simp [hctx, hfont, hout, hno, Bool.and_assoc]
      by_cases hidx : ctx.controllerIdx < env.controllerCount
      swap
      · simp [hctx, hfont, hglyph, hidx, Nat.not_lt.mp hidx]
      have hidx' : ¬ ctx.controllerIdx ≥ env.controllerCount := Nat.not_le.mpr hidx
      obtain ⟨pos, hpos⟩ : ∃ pos, charPosition env x y font glyph ctx = pos := ⟨_, rfl⟩
      cases pos with
      | none => simp [hctx, hfont, hglyph, hidx', hpos]
      | some pos => simp [hctx, hfont, hglyph, hidx, hidx', hpos, pushAll]
  | flush answers => cases hop

theorem map_storeWords (words : Nat → UInt32) (pos : Nat) (data : List UInt32) :
    (List.range (pos + data.length)).map (storeWords words pos data) =
      (List.range pos).map words ++ data := by
  rw [List.range_add, List.map_append, List.map_map]
  congr 1
  · apply List.map_congr_left
    intro i hi
    rw [storeWords, if_pos (List.mem_range.mp hi)]
  · apply List.ext_getElem
    · rw [List.length_map, List.length_range]
    · intro i _ hi
      have hge : ¬ pos + i < pos := by omega
      simp [storeWords, hi, hge]

@[simp] theorem wordsOf_nil : wordsOf [] = [] := rfl

theorem wordsOf_append (cs ds : List VirglCommand) :
    wordsOf (cs ++ ds) = wordsOf cs ++ wordsOf ds := by
  rw [wordsOf, List.map_append, unframe_append]
  rfl

theorem wordsOf_singleton (c : VirglCommand) : wordsOf [c] = c.header :: c.args := by
  rw [wordsOf, List.map_singleton, unframe_cons, unframe_nil, List.append_nil]
  rfl

theorem wordsOf_flatten (css : List (List VirglCommand)) :
    wordsOf css.flatten = (css.map wordsOf).flatten := by
  rw [wordsOf, List.map_flatten, unframe_flatten, List.map_map]
  rfl

@[simp] theorem bytesOf_nil : bytesOf [] = 0 := rfl

theorem bytesOf_append (cs ds : List VirglCommand) :
    bytesOf (cs ++ ds) = bytesOf cs + bytesOf ds := by
  rw [bytesOf, List.map_append, List.sum_append]
  rfl

theorem bytesOf_cons (c : VirglCommand) (cs : List VirglCommand) :
    bytesOf (c :: cs) = c.size + bytesOf cs :=
  rfl

theorem bytesOf_eq (cs : List VirglCommand) : bytesOf cs = 4 * (wordsOf cs).length := by
  induction cs with
  | nil => rfl
  | cons c cs ih =>
      rw [bytesOf_cons, ih, ← List.singleton_append, wordsOf_append, wordsOf_singleton,
        VirglCommand.size, List.length_append, List.length_cons]
      omega

theorem frames_wordsOf {cs : List VirglCommand} (h : ∀ c ∈ cs, c.Framed) :
    frames virglLength (wordsOf cs) = some (cs.map VirglCommand.frame) :=
  frames_unframe (List.forall_mem_map.mpr h)

-- The device has been handed `sent`, one list of commands for each stream, and
-- the stream of the context holds `pending`.
structure StreamHolds (ctx : VirglCtx) (sent : List (List VirglCommand))
    (pending : List VirglCommand) : Prop where
  valid : ctx.valid = true
  stream : ctx.cmdStream.stream ≠ 0
  streamPhys : ctx.cmdStream.streamPhys ≠ 0
  cap : ctx.cmdStream.streamCap < 2 ^ 32
  within : ctx.cmdStream.streamCount ≤ ctx.cmdStream.streamCap
  count : ctx.cmdStream.streamCount = bytesOf pending
  content : ctx.cmdStream.content = wordsOf pending
  submitted : ctx.submitted = sent.map wordsOf
  framed : ∀ c ∈ sent.flatten ++ pending, c.Framed
  clean : ctx.flushNeeded = false → pending = []

namespace StreamHolds

variable {ctx : VirglCtx} {sent : List (List VirglCommand)} {pending : List VirglCommand}

theorem push_fits (h : StreamHolds ctx sent pending) {c : VirglCommand} (hc : c.Framed)
    (hfits : ctx.cmdStream.streamCount + c.size ≤ ctx.cmdStream.streamCap) :
    StreamHolds (pyrionPushVirgl c ctx) sent (pending ++ [c]) ∧
      (pyrionPushVirgl c ctx).cmdStream.streamCount = ctx.cmdStream.streamCount + c.size ∧
      (pyrionPushVirgl c ctx).cmdStream.streamCap = ctx.cmdStream.streamCap := by
  have hsize : 0 < c.size := by unfold VirglCommand.size; omega
  have hcap := h.cap
  have hcount : ctx.cmdStream.streamCount % 2 ^ 32 = ctx.cmdStream.streamCount :=
    Nat.mod_eq_of_lt (by omega)
  have hpush : pyrionPushVirgl c ctx = { ctx with
      cmdStream := { ctx.cmdStream with
        words := storeWords ctx.cmdStream.words (ctx.cmdStream.streamCount / 4) (c.header :: c.args)
        streamCount := ctx.cmdStream.streamCount + c.size }
      flushNeeded := true } := by
    rw [pushVirgl_valid h.valid, VirglCtx.push, PyrionCmdStream.push,
      if_neg (not_or.mpr ⟨h.stream, h.streamPhys⟩), if_neg (by omega)]
    dsimp only
    rw [hcount, if_neg (by omega)]
  have hwords := bytesOf_eq pending
  have hdiv : (ctx.cmdStream.streamCount + c.size) / 4 =
      ctx.cmdStream.streamCount / 4 + (c.header :: c.args).length := by
    rw [h.count, hwords, VirglCommand.size, List.length_cons]
    omega
  rw [hpush]
  refine ⟨⟨h.valid, h.stream, h.streamPhys, h.cap, hfits, ?_, ?_, h.submitted, ?_, nofun⟩, rfl, rfl⟩
  · rw [bytesOf_append, ← h.count]
    rfl
  · rw [PyrionCmdStream.content, hdiv, map_storeWords, wordsOf_append, wordsOf_singleton]
    exact congrArg (· ++ _) h.content
  · rw [← List.append_assoc]
    exact List.forall_mem_append.mpr ⟨h.framed, List.forall_mem_singleton.mpr hc⟩

-- A command for which there is no room is left out.
theorem push_full_eq (h : StreamHolds ctx sent pending) {c : VirglCommand}
    (hfull : ctx.cmdStream.streamCap < ctx.cmdStream.streamCount + c.size) :
    pyrionPushVirgl c ctx = { ctx with flushNeeded := true } := by
  have hcap := h.cap
  have hwithin := h.within
  have hpush : ctx.cmdStream.push c = ctx.cmdStream := by
    rw [PyrionCmdStream.push, if_neg (not_or.mpr ⟨h.stream, h.streamPhys⟩)]
    split
    · rfl
    · rw [Nat.mod_eq_of_lt (by omega), if_pos hfull]
  rw [pushVirgl_valid h.valid, VirglCtx.push, hpush]

theorem push_full (h : StreamHolds ctx sent pending) {c : VirglCommand}
    (hfull : ctx.cmdStream.streamCap < ctx.cmdStream.streamCount + c.size) :
    StreamHolds (pyrionPushVirgl c ctx) sent pending := by
  rw [h.push_full_eq hfull]
  exact { h with clean := nofun }

-- Of commands that are pushed one after the other some are left out.
theorem pushes (h : StreamHolds ctx sent pending) {cs : List VirglCommand}
    (hcs : ∀ c ∈ cs, c.Framed) :
    ∃ kept, StreamHolds (pushAll cs ctx) sent (pending ++ kept) := by
  induction cs generalizing ctx pending with
  | nil => exact ⟨[], by rwa [List.append_nil]⟩
  | cons c cs ih =>
      obtain ⟨hc, hcs⟩ := List.forall_mem_cons.mp hcs
      by_cases hfits : ctx.cmdStream.streamCount + c.size ≤ ctx.cmdStream.streamCap
      · obtain ⟨kept, hkept⟩ := ih (h.push_fits hc hfits).1 hcs
        rw [List.append_assoc] at hkept
        exact ⟨_, hkept⟩
      · exact ih (h.push_full (Nat.lt_of_not_le hfits)) hcs

-- None is where there is room for all of them.
theorem pushes_fit (h : StreamHolds ctx sent pending) {cs : List VirglCommand}
    (hcs : ∀ c ∈ cs, c.Framed)
    (hfits : ctx.cmdStream.streamCount + bytesOf cs ≤ ctx.cmdStream.streamCap) :
    StreamHolds (pushAll cs ctx) sent (pending ++ cs) := by
  induction cs generalizing ctx pending with
  | nil => rwa [List.append_nil]
  | cons c cs ih =>
      obtain ⟨hc, hcs⟩ := List.forall_mem_cons.mp hcs
      rw [bytesOf_cons] at hfits
      obtain ⟨hone, hcount, hcap⟩ := h.push_fits hc (by omega)
      have hrest := ih hone hcs (by rw [hcount, hcap]; omega)
      rwa [List.append_assoc] at hrest

theorem hand (h : StreamHolds ctx sent pending) :
    StreamHolds ctx.hand (sent ++ [pending]) pending := by
  refine { h with submitted := ?_, framed := ?_ }
  · rw [VirglCtx.hand, h.submitted, h.content, List.map_append, List.map_singleton]
  · rw [List.flatten_append, List.flatten_singleton]
    have hframed := List.forall_mem_append.mp h.framed
    exact List.forall_mem_append.mpr ⟨List.forall_mem_append.mpr hframed, hframed.2⟩

theorem emptyStream (h : StreamHolds ctx sent pending) (hsent : ∀ c ∈ sent.flatten, c.Framed) :
    StreamHolds ctx.emptyStream sent [] where
  valid := h.valid
  stream := h.stream
  streamPhys := h.streamPhys
  cap := h.cap
  within := Nat.zero_le _
  count := rfl
  content := by simp [VirglCtx.emptyStream, PyrionCmdStream.content]
  submitted := h.submitted
  framed := by rwa [List.append_nil]
  clean := fun _ => rfl

-- A stream that is done is empty, and the device has been handed what it held.
-- One that is refused is kept. One that is not answered in time is kept as
-- well, although the device has been handed it.
theorem submit (h : StreamHolds ctx sent pending) (env : VirglEnv) (answer : SubmitAnswer) :
    (pyrionSubmitCmdStreamVirtio env answer ctx = (false, ctx)) ∨
      (answer = .timedOut ∧ (pyrionSubmitCmdStreamVirtio env answer ctx).1 = false ∧
        StreamHolds (pyrionSubmitCmdStreamVirtio env answer ctx).2 (sent ++ [pending]) pending) ∨
      ((pyrionSubmitCmdStreamVirtio env answer ctx).1 = true ∧
        ∃ sent', sent'.flatten = sent.flatten ++ pending ∧
          StreamHolds (pyrionSubmitCmdStreamVirtio env answer ctx).2 sent' []) := by
  unfold pyrionSubmitCmdStreamVirtio
  dsimp only
  split
  · exact .inl rfl
  split
  · exact .inl rfl
  split
  · exact .inl rfl
  split
  · rename_i hnone
    have hwords := bytesOf_eq pending
    have hcount := h.count
    have hpending : pending = [] := by
      cases pending with
      | nil => rfl
      | cons c cs =>
          rw [bytesOf_cons, VirglCommand.size] at hcount
          omega
    subst hpending
    exact .inr (.inr ⟨rfl, sent, (List.append_nil _).symm, h⟩)
  cases answer with
  | refused => exact .inl rfl
  | timedOut => exact .inr (.inl ⟨rfl, rfl, h.hand⟩)
  | done =>
      have hflat : (sent ++ [pending]).flatten = sent.flatten ++ pending := by
        rw [List.flatten_append, List.flatten_singleton]
      exact .inr (.inr ⟨rfl, _, hflat, h.hand.emptyStream (hflat ▸ h.framed)⟩)

end StreamHolds

-- How a flush that has put its blit in the stream returns.
inductive FlushEffect (answer : SubmitAnswer) (sent : List (List VirglCommand))
    (pending : List VirglCommand) : Bool × VirglCtx → Prop
  | kept {ctx} : StreamHolds ctx sent pending → FlushEffect answer sent pending (false, ctx)
  | timedOut {ctx} : answer = .timedOut → StreamHolds ctx (sent ++ [pending]) pending →
      FlushEffect answer sent pending (false, ctx)
  | handed {returned ctx sent'} : sent'.flatten = sent.flatten ++ pending →
      StreamHolds ctx sent' [] → FlushEffect answer sent pending (returned, ctx)

theorem flush_accepted {env : VirglEnv} {answers : FlushAnswers} {ctx : VirglCtx}
    {sent : List (List VirglCommand)} {pending : List VirglCommand}
    (haccepted : (PyrionOp.flush answers).accepted env ctx = true)
    (h : StreamHolds (pushAll ((PyrionOp.flush answers).commands env ctx) ctx) sent pending) :
    FlushEffect answers.submit sent pending (pyrionFlushVirtio env answers ctx) := by
  simp only [PyrionOp.accepted, Bool.and_eq_true] at haccepted
  obtain ⟨⟨hready, hviewport⟩, hneeded⟩ := haccepted
  have hchecks := hready
  simp only [VirglCtx.ready, Bool.and_eq_true, decide_eq_true_eq] at hchecks
  obtain ⟨hflags, hidx⟩ := hchecks
  have hcommands : (PyrionOp.flush answers).commands env ctx =
      [blitCommand (UInt32.ofNat ctx.resId2d) (UInt32.ofNat ctx.resId3d)
        (UInt32.ofNat ctx.viewport.width) (UInt32.ofNat ctx.viewport.height)] :=
    if_pos hneeded
  rw [hcommands] at h
  rw [pyrionFlushVirtio, if_neg (by simp [hflags, hviewport]), if_neg (Nat.not_le.mpr hidx),
    if_neg (by simp [hneeded]), pyrionBlitVirtio, if_neg (by simp [hready])]
  dsimp only
  have hsubmit := h.submit env answers.submit
  rw [pushAll, List.foldl_cons, List.foldl_nil] at h hsubmit
  generalize hr : pyrionSubmitCmdStreamVirtio env answers.submit _ = r at hsubmit ⊢
  obtain ⟨returned, after⟩ := r
  rcases hsubmit with hkept | ⟨hanswer, rfl, hheld⟩ | ⟨rfl, sent', hsent', hheld⟩
  · cases hkept
    exact .kept h
  · exact .timedOut hanswer hheld
  · dsimp only
    split
    · exact .handed hsent' hheld
    · exact .handed hsent' { hheld with clean := fun _ => rfl }

theorem flush_not_accepted {env : VirglEnv} {answers : FlushAnswers} {ctx : VirglCtx}
    (h : (PyrionOp.flush answers).accepted env ctx = false) :
    pyrionFlushVirtio env answers ctx = (false, ctx) ∨
      pyrionFlushVirtio env answers ctx = (true, ctx) ∧ ctx.flushNeeded = false := by
  unfold pyrionFlushVirtio
  split
  · exact .inl rfl
  split
  · exact .inl rfl
  rename_i hflags hidx
  split
  · rename_i hneeded
    exact .inr ⟨rfl, by simpa using hneeded⟩
  · rename_i hneeded
    simp only [Bool.not_eq_true, Bool.not_eq_false', Bool.and_eq_true, ge_iff_le,
      Nat.not_le] at hflags hidx hneeded
    simp [PyrionOp.accepted, VirglCtx.ready, hflags, hidx, hneeded] at h

-- A call, with the commands that its operation is made of.
structure OpCall where
  op : PyrionOp
  commands : List VirglCommand
  returned : Bool

-- A context that is drawn in. The calls are those up to the last flush that
-- has returned TRUE, and the later ones.
structure VirglSession where
  ctx : VirglCtx
  flushed : List OpCall
  later : List OpCall

def VirglSession.call (env : VirglEnv) (u : VirglSession) (op : PyrionOp) : VirglSession :=
  let (returned, ctx) := op.run env u.ctx
  let c : OpCall := ⟨op, op.commands env u.ctx, returned⟩
  if op.isFlush && returned then ⟨ctx, u.flushed ++ u.later ++ [c], []⟩
  else ⟨ctx, u.flushed, u.later ++ [c]⟩

def VirglStep (env : VirglEnv) (u : VirglSession) (op : PyrionOp) (v : VirglSession) : Prop :=
  v = u.call env op

-- The commands of the calls that returned TRUE, in order. A flush that failed
-- may have left its blit among them.
inductive Delivers : List OpCall → List VirglCommand → Prop
  | nil : Delivers [] []
  | returned {calls cs c} : Delivers calls cs → c.returned = true →
      Delivers (calls ++ [c]) (cs ++ c.commands)
  | failed {calls cs c} : Delivers calls cs → c.returned = false → Delivers (calls ++ [c]) cs
  | failedFlush {calls cs c} : Delivers calls cs → c.returned = false → c.op.isFlush = true →
      Delivers (calls ++ [c]) (cs ++ c.commands)

theorem Delivers.append {calls calls' : List OpCall} {cs cs' : List VirglCommand}
    (h : Delivers calls cs) (h' : Delivers calls' cs') : Delivers (calls ++ calls') (cs ++ cs') := by
  induction h' with
  | nil => rwa [List.append_nil, List.append_nil]
  | returned _ hc ih =>
      rw [← List.append_assoc, ← List.append_assoc]
      exact ih.returned hc
  | failed _ hc ih =>
      rw [← List.append_assoc]
      exact ih.failed hc
  | failedFlush _ hc hflush ih =>
      rw [← List.append_assoc, ← List.append_assoc]
      exact ih.failedFlush hc hflush

theorem Delivers.eq_commands {calls : List OpCall} {cs : List VirglCommand}
    (h : Delivers calls cs) (hcalls : ∀ c ∈ calls, c.returned = true) :
    cs = calls.flatMap OpCall.commands := by
  induction h with
  | nil => rfl
  | @returned calls cs c _ _ ih =>
      rw [List.flatMap_append, ← ih fun c hc => hcalls c (List.mem_append_left _ hc),
        List.flatMap_singleton]
  | failed _ hc | failedFlush _ hc =>
      have hlast := hcalls _ (List.mem_append_right _ (List.mem_singleton_self _))
      rw [hc] at hlast
      cases hlast

-- The bytes in the stream, and those the device has been handed, are commands
-- that cover them.
structure WellFormed (ctx : VirglCtx) : Prop where
  within : ctx.cmdStream.streamCount ≤ ctx.cmdStream.streamCap
  aligned : 4 ∣ ctx.cmdStream.streamCount
  parses : ∀ s ∈ ctx.submitted, ∃ fs, frames virglLength s = some fs

-- What the device has been handed are the commands of the calls up to the last
-- flush that returned TRUE, and some of those of the later calls. `first` is
-- what was in the stream before the first call.
def Complete (first : List VirglCommand) (u : VirglSession) : Prop :=
  ∃ fs cs more, frames virglLength u.ctx.submitted.flatten = some fs ∧
    Delivers u.flushed cs ∧ Delivers u.later more ∧
    (u.flushed ≠ [] → (first ++ cs).map VirglCommand.frame <+: fs) ∧
    fs <+: (first ++ cs ++ more).map VirglCommand.frame

-- There is room for the commands of an operation that is accepted, and the
-- device answers its flush in time.
structure CallOk (env : VirglEnv) (u : VirglSession) (op : PyrionOp) : Prop where
  fits : op.accepted env u.ctx = true →
    u.ctx.cmdStream.streamCount + bytesOf (op.commands env u.ctx) ≤ u.ctx.cmdStream.streamCap
  answered : ∀ answers, op = .flush answers → op.accepted env u.ctx = true →
    answers.submit ≠ .timedOut

theorem StreamHolds.wellFormed {ctx : VirglCtx} {sent : List (List VirglCommand)}
    {pending : List VirglCommand} (h : StreamHolds ctx sent pending) : WellFormed ctx where
  within := h.within
  aligned := by
    rw [h.count, bytesOf_eq]
    exact Nat.dvd_mul_right ..
  parses := by
    rw [h.submitted]
    refine List.forall_mem_map.mpr fun cs hcs => ⟨_, frames_wordsOf fun c hc => ?_⟩
    exact h.framed c (List.mem_append_left _ (List.mem_flatten_of_mem hcs hc))

theorem VirglSession.call_ctx (env : VirglEnv) (u : VirglSession) (op : PyrionOp) :
    (u.call env op).ctx = (op.run env u.ctx).2 := by
  unfold VirglSession.call
  split
  rename_i hrun
  rw [hrun]
  dsimp only
  split <;> rfl

-- Whatever happens to the commands, the stream and those submitted are made of
-- whole ones.
theorem StreamHolds.run {env : VirglEnv} {ctx : VirglCtx} {sent : List (List VirglCommand)}
    {pending : List VirglCommand} (h : StreamHolds ctx sent pending) (op : PyrionOp) :
    ∃ sent' pending', StreamHolds (op.run env ctx).2 sent' pending' := by
  have hframed : ∀ c ∈ op.commands env ctx, c.Framed :=
    fun _ hc => PyrionOp.framed_of_mem_commands env hc
  obtain ⟨kept, hkept⟩ := h.pushes hframed
  cases hflush : op.isFlush with
  | false =>
      rw [run_drawing env hflush]
      split
      · exact ⟨_, _, hkept⟩
      · exact ⟨_, _, h⟩
  | true =>
      cases op with
      | flush answers =>
          cases haccepted : (PyrionOp.flush answers).accepted env ctx with
          | false =>
              rw [PyrionOp.run]
              rcases flush_not_accepted haccepted with hrun | ⟨hrun, -⟩
              · rw [hrun]
                exact ⟨_, _, h⟩
              · rw [hrun]
                exact ⟨_, _, h⟩
          | true =>
              have heffect := flush_accepted haccepted hkept
              rw [PyrionOp.run]
              generalize pyrionFlushVirtio env answers ctx = r at heffect
              cases heffect with
              | kept hheld => exact ⟨_, _, hheld⟩
              | timedOut _ hheld => exact ⟨_, _, hheld⟩
              | handed _ hheld => exact ⟨_, _, hheld⟩
      | clear | pixel | rect | drawChar | blit => cases hflush

-- Every command of the calls is accounted for.
def Accounted (first : List VirglCommand) (u : VirglSession) (sent : List (List VirglCommand))
    (pending : List VirglCommand) : Prop :=
  ∃ cs more, Delivers u.flushed cs ∧ Delivers u.later more ∧
    sent.flatten ++ pending = first ++ cs ++ more ∧
    (u.flushed ≠ [] → first ++ cs <+: sent.flatten)

namespace Accounted

variable {first : List VirglCommand} {ctx : VirglCtx} {flushed later : List OpCall} {c : OpCall}
  {sent : List (List VirglCommand)} {pending : List VirglCommand}

theorem complete {u : VirglSession} (h : Accounted first u sent pending)
    (hholds : StreamHolds u.ctx sent pending) : Complete first u := by
  obtain ⟨cs, more, hcs, hmore, hall, hflushed⟩ := h
  refine ⟨sent.flatten.map VirglCommand.frame, cs, more, ?_, hcs, hmore, ?_, ?_⟩
  · rw [hholds.submitted, ← wordsOf_flatten]
    exact frames_wordsOf fun c hc => hholds.framed c (List.mem_append_left _ hc)
  · exact fun hne => (hflushed hne).map _
  · rw [← hall]
    exact (List.prefix_append ..).map _

theorem called (h : Accounted first ⟨ctx, flushed, later⟩ sent pending) (ctx' : VirglCtx)
    {cs : List VirglCommand}
    (hc : ∀ more, Delivers later more → Delivers (later ++ [c]) (more ++ cs)) :
    Accounted first ⟨ctx', flushed, later ++ [c]⟩ sent (pending ++ cs) := by
  obtain ⟨ds, more, hds, hmore, hall, hflushed⟩ := h
  refine ⟨ds, more ++ cs, hds, hc more hmore, ?_, hflushed⟩
  rw [← List.append_assoc, hall, List.append_assoc]

theorem returned (h : Accounted first ⟨ctx, flushed, later⟩ sent pending) (ctx' : VirglCtx)
    (op : PyrionOp) (cs : List VirglCommand) :
    Accounted first ⟨ctx', flushed, later ++ [⟨op, cs, true⟩]⟩ sent (pending ++ cs) :=
  h.called ctx' fun _ hmore => hmore.returned (c := ⟨op, cs, true⟩) rfl

theorem failed (h : Accounted first ⟨ctx, flushed, later⟩ sent pending) (ctx' : VirglCtx)
    (op : PyrionOp) (cs : List VirglCommand) :
    Accounted first ⟨ctx', flushed, later ++ [⟨op, cs, false⟩]⟩ sent pending := by
  have hfailed (more : List VirglCommand) (hmore : Delivers later more) :
      Delivers (later ++ [⟨op, cs, false⟩]) (more ++ []) := by
    rw [List.append_nil]
    exact hmore.failed rfl
  have hcalled := h.called ctx' hfailed
  rwa [List.append_nil] at hcalled

theorem failedFlush (h : Accounted first ⟨ctx, flushed, later⟩ sent pending) (ctx' : VirglCtx)
    (answers : FlushAnswers) (cs : List VirglCommand) :
    Accounted first ⟨ctx', flushed, later ++ [⟨.flush answers, cs, false⟩]⟩ sent (pending ++ cs) :=
  h.called ctx' fun _ hmore => hmore.failedFlush (c := ⟨.flush answers, cs, false⟩) rfl rfl

theorem handed {u : VirglSession} (h : Accounted first u sent pending)
    {sent' : List (List VirglCommand)} (hsent : sent'.flatten = sent.flatten ++ pending) :
    Accounted first u sent' [] := by
  obtain ⟨cs, more, hcs, hmore, hall, hflushed⟩ := h
  refine ⟨cs, more, hcs, hmore, by rw [List.append_nil, hsent, hall], fun hne => ?_⟩
  rw [hsent]
  exact (hflushed hne).trans (List.prefix_append ..)

theorem settled (h : Accounted first ⟨ctx, flushed, later ++ [c]⟩ sent []) :
    Accounted first ⟨ctx, flushed ++ later ++ [c], []⟩ sent [] := by
  obtain ⟨cs, more, hcs, hmore, hall, -⟩ := h
  rw [List.append_nil, List.append_assoc] at hall
  have hcalls : Delivers (flushed ++ later ++ [c]) (cs ++ more) := by
    rw [List.append_assoc]
    exact hcs.append hmore
  refine ⟨cs ++ more, [], hcalls, .nil, ?_, fun _ => ?_⟩
  · rw [List.append_nil, List.append_nil, hall]
  · exact hall ▸ List.prefix_rfl

end Accounted

-- An operation that has room, and whose flush is answered in time, delivers its
-- commands exactly when it returns TRUE.
theorem accounted_call {env : VirglEnv} {first : List VirglCommand} {u : VirglSession}
    {sent : List (List VirglCommand)} {pending : List VirglCommand} {op : PyrionOp}
    (hholds : StreamHolds u.ctx sent pending) (h : Accounted first u sent pending)
    (hok : CallOk env u op) :
    ∃ sent' pending', StreamHolds (u.call env op).ctx sent' pending' ∧
      Accounted first (u.call env op) sent' pending' := by
  have hframed : ∀ c ∈ op.commands env u.ctx, c.Framed :=
    fun _ hc => PyrionOp.framed_of_mem_commands env hc
  obtain ⟨ctx, flushed, later⟩ := u
  cases hflush : op.isFlush with
  | false =>
      rw [VirglSession.call, run_drawing env hflush]
      cases haccepted : op.accepted env ctx with
      | false =>
          rw [hflush]
          exact ⟨_, _, hholds, h.failed ..⟩
      | true =>
          rw [hflush]
          exact ⟨_, _, hholds.pushes_fit hframed (hok.fits haccepted),
            h.returned ..⟩
  | true =>
      cases op with
      | flush answers =>
          rw [VirglSession.call, PyrionOp.run]
          cases haccepted : (PyrionOp.flush answers).accepted env ctx with
          | false =>
              rcases flush_not_accepted haccepted with hrun | ⟨hrun, hneeded⟩
              · rw [hrun]
                exact ⟨_, _, hholds, h.failed ..⟩
              · rw [hrun]
                have hcommands : (PyrionOp.flush answers).commands env ctx = [] :=
                  if_neg (by simp [hneeded])
                rw [hholds.clean hneeded] at h hholds
                rw [hcommands]
                exact ⟨_, _, hholds, (h.returned ctx (.flush answers) []).settled⟩
          | true =>
              have hpushed := hholds.pushes_fit hframed (hok.fits haccepted)
              have heffect := flush_accepted haccepted hpushed
              generalize pyrionFlushVirtio env answers ctx = r at heffect
              cases heffect with
              | kept hheld =>
                  exact ⟨_, _, hheld, h.failedFlush ..⟩
              | timedOut hanswer => exact absurd hanswer (hok.answered answers rfl haccepted)
              | @handed returned after sent' hsent hheld =>
                  cases returned with
                  | false => exact ⟨_, _, hheld, (h.failedFlush after answers _).handed hsent⟩
                  | true =>
                      exact ⟨_, _, hheld, ((h.returned after (.flush answers) _).handed hsent).settled⟩
      | clear | pixel | rect | drawChar | blit => cases hflush

-- In every run the stream stays in its memory and is made of whole commands.
-- It is complete as long as the commands of every operation find room and the
-- device answers each flush in time.
theorem stream_complete {env : VirglEnv} {first : List VirglCommand} {ctx : VirglCtx}
    {past : List (VirglSession × PyrionOp)} {u : VirglSession} (hstart : StreamHolds ctx [] first)
    (hrun : Trace (VirglStep env) ⟨ctx, [], []⟩ past u) :
    WellFormed u.ctx ∧ (Trace.Admits (CallOk env) past → Complete first u) := by
  constructor
  · have hinv := hrun.invariant
      (I := fun u : VirglSession => ∃ sent pending, StreamHolds u.ctx sent pending)
      ⟨_, _, hstart⟩ (by
        rintro u op v ⟨sent, pending, hholds⟩ rfl
        rw [VirglSession.call_ctx]
        exact hholds.run op)
    obtain ⟨sent, pending, hholds⟩ := hinv
    exact hholds.wellFormed
  · intro hok
    have haccounted : Accounted first ⟨ctx, [], []⟩ [] first :=
      ⟨[], [], .nil, .nil, by simp, fun hne => absurd rfl hne⟩
    have hinv := hrun.invariant_of_admits
      (I := fun u : VirglSession => ∃ sent pending, StreamHolds u.ctx sent pending ∧
        Accounted first u sent pending)
      ⟨_, _, hstart, haccounted⟩ (by
        rintro u op v ⟨sent, pending, hholds, haccounted⟩ hop rfl
        exact accounted_call hholds haccounted hop) hok
    obtain ⟨sent, pending, hholds, haccounted⟩ := hinv
    exact haccounted.complete hholds

-- Floats for black and white, and fonts in their own size.
def plainEnv : VirglEnv where
  controllerCount := 1
  unorm c := if c = 0xFF then 0x3F800000 else 0
  place _ glyph :=
    ⟨true, glyph.bearingX, glyph.bearingY, glyph.width.toUInt32, glyph.height.toUInt32⟩

-- A context whose stream holds `cs`.
def holding (cs : List VirglCommand) : VirglCtx where
  ctxId := 1
  cmdStream := ⟨0x1000, 0x200000, 0x1000, bytesOf cs, storeWords (fun _ => 0) 0 (wordsOf cs)⟩
  viewport := ⟨0, 0, 640, 480, 0⟩
  viewportSet := true
  flushNeeded := true
  deviceSet := true
  valid := true
  usable := true
  resId2d := 257
  resId3d := 513

theorem holding_holds {cs : List VirglCommand} (hcs : ∀ c ∈ cs, c.Framed)
    (hbytes : bytesOf cs ≤ 0x1000) : StreamHolds (holding cs) [] cs := by
  refine ⟨rfl, Nat.succ_ne_zero _, Nat.succ_ne_zero _, ?_, hbytes, rfl, ?_, rfl, hcs, nofun⟩
  · exact show 0x1000 < 2 ^ 32 by decide
  have hlen : bytesOf cs / 4 = 0 + (wordsOf cs).length := by
    rw [bytesOf_eq]
    omega
  rw [PyrionCmdStream.content, holding, hlen, map_storeWords]
  rfl

def clearBlack : PyrionOp := .clear 0 0 0 0xFF

def flushDone : PyrionOp := .flush ⟨.done, true, true⟩

def frameDrawn (cs : List VirglCommand) : VirglSession :=
  ((⟨holding cs, [], []⟩ : VirglSession).call plainEnv clearBlack).call plainEnv flushDone

theorem frameDrawn_run (cs : List VirglCommand) :
    Trace (VirglStep plainEnv) ⟨holding cs, [], []⟩
      [(⟨holding cs, [], []⟩, clearBlack),
        ((⟨holding cs, [], []⟩ : VirglSession).call plainEnv clearBlack, flushDone)]
      (frameDrawn cs) :=
  .snoc (.snoc .nil rfl) rfl

theorem stream_complete_frame : WellFormed (frameDrawn []).ctx ∧ Complete [] (frameDrawn []) := by
  have hempty : StreamHolds (holding []) [] [] := holding_holds nofun (by decide)
  have hcomplete := stream_complete hempty (frameDrawn_run [])
  refine ⟨hcomplete.1, hcomplete.2 (List.forall_mem_cons.mpr ⟨?_, List.forall_mem_singleton.mpr ?_⟩)⟩
  · exact ⟨fun _ => by decide, nofun⟩
  · exact ⟨fun _ => by decide, by rintro answers ⟨rfl⟩ _; nofun⟩

-- Where there is no room for them, the clear and the blit of the flush are lost.
theorem frameDrawn_full {cs : List VirglCommand} (hcs : ∀ c ∈ cs, c.Framed)
    (hbytes : bytesOf cs = 4068) :
    (frameDrawn cs).ctx.submitted = [wordsOf cs] ∧
      (frameDrawn cs).flushed =
        [⟨clearBlack, clearBlack.commands plainEnv (holding cs), true⟩,
          ⟨flushDone, flushDone.commands plainEnv (holding cs), true⟩] := by
  have hholds := holding_holds hcs (by omega)
  have hpush (c : VirglCommand) (hc : 28 < c.size) : pyrionPushVirgl c (holding cs) = holding cs :=
    hholds.push_full_eq (show 0x1000 < bytesOf cs + c.size by omega)
  have hclear : (⟨holding cs, [], []⟩ : VirglSession).call plainEnv clearBlack =
      ⟨holding cs, [], [⟨clearBlack, clearBlack.commands plainEnv (holding cs), true⟩]⟩ := by
    have hrun : clearBlack.run plainEnv (holding cs) = (true, holding cs) :=
      congrArg (Prod.mk true) (hpush _ (by decide))
    rw [VirglSession.call, hrun]
    rfl
  have hcount : (holding cs).cmdStream.streamCount = 4068 := hbytes
  have hsubmit : pyrionSubmitCmdStreamVirtio plainEnv .done (holding cs) =
      (true, (holding cs).hand.emptyStream) := by
    rw [pyrionSubmitCmdStreamVirtio, hcount, if_neg (by simp [holding]),
      if_neg (by simp [holding, plainEnv]), if_neg (by simp [holding]), if_neg (by decide)]
  have hflush : flushDone.run plainEnv (holding cs) =
      (true, { (holding cs).hand.emptyStream with flushNeeded := false }) := by
    rw [flushDone, PyrionOp.run, pyrionFlushVirtio, if_neg (by simp [holding]),
      if_neg (by simp [holding, plainEnv]), if_neg (by simp [holding]), pyrionBlitVirtio,
      if_neg (by simp [VirglCtx.ready, holding, plainEnv])]
    dsimp only
    rw [hpush (blitCommand ..) (show 28 < 22 * 4 by decide), hsubmit]
    rfl
  rw [frameDrawn, hclear, VirglSession.call, hflush]
  exact ⟨congrArg (fun s => [] ++ [s]) hholds.content, rfl⟩

-- What is left of a stream of 0x1000 bytes behind 113 clears is too little for
-- one more.
theorem clear_lost :
    StreamHolds (holding (List.replicate 113 (clearCommand 0 0 0 0x3F800000))) []
        (List.replicate 113 (clearCommand 0 0 0 0x3F800000)) ∧
      Reachable (VirglStep plainEnv)
        ⟨holding (List.replicate 113 (clearCommand 0 0 0 0x3F800000)), [], []⟩
        (frameDrawn (List.replicate 113 (clearCommand 0 0 0 0x3F800000))) ∧
      ¬ Complete (List.replicate 113 (clearCommand 0 0 0 0x3F800000))
        (frameDrawn (List.replicate 113 (clearCommand 0 0 0 0x3F800000))) := by
  have hframed : ∀ c ∈ List.replicate 113 (clearCommand 0 0 0 0x3F800000), c.Framed :=
    fun c hc => List.eq_of_mem_replicate hc ▸ clearCommand_framed ..
  have hbytes : bytesOf (List.replicate 113 (clearCommand 0 0 0 0x3F800000)) = 4068 := by decide
  generalize List.replicate 113 (clearCommand 0 0 0 0x3F800000) = cs at hframed hbytes ⊢
  refine ⟨holding_holds hframed (by omega), ⟨_, frameDrawn_run cs⟩, ?_⟩
  obtain ⟨hsubmitted, hflushed⟩ := frameDrawn_full hframed hbytes
  rintro ⟨fs, ds, more, hfs, hds, -, hpre, -⟩
  rw [hflushed] at hpre hds
  rw [hsubmitted, List.flatten_singleton, frames_wordsOf hframed] at hfs
  cases hfs
  have hlen := (hpre (by simp)).length_le
  rw [hds.eq_commands (by simp), List.length_map, List.length_map, List.length_append] at hlen
  exact absurd hlen (Nat.not_le.mpr (Nat.lt_add_of_pos_right (Nat.succ_pos _)))

end AosKernel.Gpu
