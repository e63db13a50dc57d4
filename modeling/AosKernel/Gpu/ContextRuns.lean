import AosKernel.Gpu.Pyrion
import AosKernel.Lib.Trace

namespace AosKernel.Gpu

open Verif

namespace Pyrion

def ctxAt (s : Pyrion) (slot : Nat) : Option PyrionCtx := s.contexts[slot]?.join

def ctxId (s : Pyrion) (slot : Nat) : Nat := ((s.ctxAt slot).map PyrionCtx.ctxId).getD 0

end Pyrion

-- The numbers that a context gives to its resources.
inductive ResourceKind
  | texture2d
  | texture3d
  | scanout
  | rast
  | blend
  | font

def ResourceKind.base : ResourceKind → Nat
  | .texture2d => RES_ID_2D_BASE
  | .texture3d => RES_ID_3D_BASE
  | .scanout => RES_ID_SCANOUT_BASE
  | .rast => RES_ID_RAST_BASE
  | .blend => RES_ID_BLEND_BASE
  | .font => RES_ID_FONT_BASE

def resId (kind : ResourceKind) (ctxId : Nat) : Nat := ctxId + kind.base

-- The contexts, and the ones that their callers hold.
structure ContextUse where
  pyrion : Pyrion
  live : List Nat

inductive ContextCall
  | create (name : List UInt8) (mem : Nat × Nat)
  | destroy (slot : Nat)

-- Only live contexts are destroyed, and there is memory for every one that is made.
inductive ContextStep : ContextUse → ContextCall → ContextUse → Prop
  | created {w name mem slot s} :
      pyrionCreateCtxVirtio name (some mem) w.pyrion = .ok (some slot, s) →
      ContextStep w (.create name mem) ⟨s, slot :: w.live⟩
  | refused {w name mem s} :
      pyrionCreateCtxVirtio name (some mem) w.pyrion = .ok (none, s) →
      ContextStep w (.create name mem) ⟨s, w.live⟩
  | destroyed {w slot} : slot ∈ w.live →
      ContextStep w (.destroy slot) ⟨pyrionDestroyCtxVirtio slot w.pyrion, w.live.erase slot⟩

def ContextUse.start (controllerCount : Nat) : ContextUse :=
  ⟨(pyrionInitVirtio (fun _ => true) (Pyrion.boot controllerCount)).2, []⟩

structure ContextUse.Unique (w : ContextUse) : Prop where
  inRange : ∀ name mem, ∃ r, pyrionCreateCtxVirtio name (some mem) w.pyrion = .ok r
  nodup : w.live.Nodup
  nonzero : ∀ p ∈ w.live, w.pyrion.ctxId p ≠ 0
  distinct : ∀ p ∈ w.live, ∀ q ∈ w.live, w.pyrion.ctxId p = w.pyrion.ctxId q → p = q
  resources : ∀ p ∈ w.live, ∀ q ∈ w.live, ∀ k l,
    resId k (w.pyrion.ctxId p) = resId l (w.pyrion.ctxId q) → p = q ∧ k = l

-- The remembered slot, or else the first one without a valid context.
def Pyrion.IsNext (s : Pyrion) (slot : Nat) : Prop :=
  s.nxtCtx = slot ∨ MAX_PYRION_CONTEXTS ≤ s.nxtCtx ∧
    (∀ ctx, s.ctxAt slot = some ctx → ctx.valid = false) ∧
    ∀ j < slot, ∀ ctx, s.ctxAt j = some ctx → ctx.valid = true

-- The slot that is next has a context that is not valid and was never destroyed.
def NextFresh (w : ContextUse) : ContextCall → Prop
  | .create _ _ => w.pyrion.controllerCount ≠ 0 → ∀ slot ctx, w.pyrion.IsNext slot →
      w.pyrion.ctxAt slot = some ctx → ctx.valid = false ∧ ctx.ctxId ≠ 0
  | .destroy _ => True

-- The contexts whatever was called.
structure ContextUse.Inv (w : ContextUse) : Prop where
  size : w.pyrion.contexts.length = MAX_PYRION_CONTEXTS
  ctx : ∀ i < MAX_PYRION_CONTEXTS, ∃ ctx, w.pyrion.ctxAt i = some ctx ∧
    (ctx.valid = true ↔ i ∈ w.live) ∧ ctx.controllerIdx = 0 ∧
    (ctx.ctxId = i + 1 ∨ ctx.ctxId = 0 ∧ ctx.valid = false)
  inRange : ∀ p ∈ w.live, p < MAX_PYRION_CONTEXTS
  nodup : w.live.Nodup
  controllers : w.live ≠ [] → 0 < w.pyrion.controllerCount

section Slots

variable {s : Pyrion} {slot i : Nat} {ctx : PyrionCtx}

theorem Pyrion.ctxAt_put (hslot : slot < s.contexts.length) :
    (s.put slot ctx).ctxAt i = if i = slot then some ctx else s.ctxAt i := by
  unfold Pyrion.ctxAt Pyrion.put
  rw [List.getElem?_set]
  by_cases hi : i = slot
  · rw [if_pos hi, if_pos hi.symm, if_pos hslot]
    rfl
  · rw [if_neg hi, if_neg (Ne.symm hi)]

theorem Pyrion.ctxId_eq (h : s.ctxAt slot = some ctx) : s.ctxId slot = ctx.ctxId := by
  rw [Pyrion.ctxId, h]
  rfl

theorem Pyrion.getElem?_of_ctxAt (h : s.ctxAt slot = some ctx) :
    s.contexts[slot]? = some (some ctx) := Option.join_eq_some_iff.mp h

-- Slots of pyrion_init_virtio up to `k`.
structure InitTo (controllerCount k : Nat) (s : Pyrion) : Prop where
  size : s.contexts.length = MAX_PYRION_CONTEXTS
  done : ∀ i < k, s.ctxAt i = some { ctxId := i + 1, flushNeeded := true }
  nxt : s.nxtCtx = if k = 0 then noContext else 0
  controllers : s.controllerCount = controllerCount

theorem initTo (controllerCount : Nat) {k : Nat} (hk : k ≤ MAX_PYRION_CONTEXTS) :
    InitTo controllerCount k
      ((List.range k).foldl (initSlot fun _ => true) (false, Pyrion.boot controllerCount)).2 := by
  induction k with
  | zero => exact ⟨List.length_replicate, by simp, rfl, rfl⟩
  | succ k ih =>
      have h := ih (Nat.le_of_succ_le hk)
      rw [List.range_succ, List.foldl_append, List.foldl_cons, List.foldl_nil]
      generalize (List.range k).foldl _ _ = r at h
      obtain ⟨done, s⟩ := r
      rw [initSlot, if_neg (by simp)]
      dsimp only at h ⊢
      have hput : ∀ i < k + 1, (s.put k { ctxId := k + 1, flushNeeded := true }).ctxAt i =
          some { ctxId := i + 1, flushNeeded := true } := fun i hi => by
        rw [Pyrion.ctxAt_put (by rw [h.size]; omega)]
        by_cases hik : i = k
        · rw [if_pos hik, hik]
        · rw [if_neg hik, h.done i (by omega)]
      have hsize : (s.put k { ctxId := k + 1, flushNeeded := true }).contexts.length =
          MAX_PYRION_CONTEXTS := List.length_set.trans h.size
      have hnxt : (s.put k { ctxId := k + 1, flushNeeded := true }).nxtCtx =
          if k = 0 then noContext else 0 := h.nxt
      rw [hnxt]
      by_cases hk0 : k = 0
      · rw [if_pos hk0, if_pos (by decide)]
        exact ⟨hsize, hput, by simp [hk0], h.controllers⟩
      · rw [if_neg hk0, if_neg (by simp)]
        exact ⟨hsize, hput, by rw [hnxt, if_neg hk0, if_neg (by omega)], h.controllers⟩

end Slots

theorem start_initTo (controllerCount : Nat) :
    InitTo controllerCount MAX_PYRION_CONTEXTS (ContextUse.start controllerCount).pyrion := by
  rw [ContextUse.start, pyrionInitVirtio]
  generalize hk : MAX_PYRION_CONTEXTS = k
  exact initTo controllerCount (Nat.le_of_eq hk.symm)

theorem start_inv (controllerCount : Nat) : (ContextUse.start controllerCount).Inv := by
  have h := start_initTo controllerCount
  exact ⟨h.size, fun i hi => ⟨_, h.done i hi, by simp [ContextUse.start], rfl, .inl rfl⟩,
    by simp [ContextUse.start], List.nodup_nil, fun hno => absurd rfl hno⟩

section Create

variable {w : ContextUse} {name : List UInt8} {mem : Nat × Nat}

-- The context as pyrion_create_ctx_virtio leaves it.
def PyrionCtx.opened (ctx : PyrionCtx) (mem : Nat × Nat) : PyrionCtx :=
  { ctx with
    cmdStream :=
      { ctx.cmdStream with
        streamCap := 0x1000, stream := mem.1, streamPhys := mem.2, words := fun _ => 0 }
    viewport := {}
    valid := true
    usable := false
    flushNeeded := true }

theorem isNext_of_hint (h : w.pyrion.nxtCtx < MAX_PYRION_CONTEXTS) {p : Nat} :
    w.pyrion.IsNext p ↔ p = w.pyrion.nxtCtx := by
  refine ⟨fun hp => ?_, fun hp => .inl hp.symm⟩
  obtain rfl | ⟨hno, -⟩ := hp
  · rfl
  · omega

-- Where pyrion_get_free_ctx_slot looks.
theorem freeCtxSlot_spec (h : w.Inv) :
    (∃ slot n, pyrionGetFreeCtxSlot w.pyrion = (slot, { w.pyrion with nxtCtx := n }) ∧
      slot < MAX_PYRION_CONTEXTS ∧
      ∀ p < MAX_PYRION_CONTEXTS, w.pyrion.IsNext p ↔ p = slot) ∨
    pyrionGetFreeCtxSlot w.pyrion = (noContext, w.pyrion) ∧
      ∀ p < MAX_PYRION_CONTEXTS, ¬ w.pyrion.IsNext p := by
  unfold pyrionGetFreeCtxSlot
  by_cases hhint : w.pyrion.nxtCtx < MAX_PYRION_CONTEXTS
  · rw [if_pos hhint]
    exact .inl ⟨_, noContext, rfl, hhint, fun p _ => isNext_of_hint hhint⟩
  rw [if_neg hhint]
  -- without a hint the first slot whose context is not valid is next
  have hfree : ∀ p < MAX_PYRION_CONTEXTS, w.pyrion.IsNext p ↔
      (∀ ctx, w.pyrion.ctxAt p = some ctx → ctx.valid = false) ∧
        ∀ j < p, ∀ ctx, w.pyrion.ctxAt j = some ctx → ctx.valid = true := fun p hp => by
    refine ⟨fun hnext => ?_, fun hfirst => .inr ⟨Nat.not_lt.mp hhint, hfirst⟩⟩
    obtain heq | ⟨-, hfirst⟩ := hnext
    · omega
    · exact hfirst
  have hany : ∀ {p : Nat} {ctx : PyrionCtx}, w.pyrion.ctxAt p = some ctx →
      ∀ hp : p < w.pyrion.contexts.length,
        w.pyrion.contexts[p].any (fun ctx => !ctx.valid) = !ctx.valid := fun hctx hp => by
    have hget := Pyrion.getElem?_of_ctxAt hctx
    rw [List.getElem?_eq_getElem hp] at hget
    rw [Option.some.inj hget]
    rfl
  cases hfind : w.pyrion.contexts.findIdx? fun ctx => ctx.any fun ctx => !ctx.valid with
  | some slot =>
      obtain ⟨hlt, hhere, hbefore⟩ := List.findIdx?_eq_some_iff_getElem.mp hfind
      have hslot : slot < MAX_PYRION_CONTEXTS := h.size ▸ hlt
      refine .inl ⟨slot, w.pyrion.nxtCtx, rfl, hslot, fun p hp => ?_⟩
      have hat : w.pyrion.IsNext slot := by
        refine (hfree slot hslot).mpr ⟨fun ctx hctx => ?_, fun j hj ctx hctx => ?_⟩
        · rw [hany hctx hlt] at hhere
          simpa using hhere
        · have hj' := hbefore j hj
          rw [hany hctx (Nat.lt_trans hj hlt)] at hj'
          simpa using hj'
      refine ⟨fun hnext => ?_, fun heq => heq ▸ hat⟩
      obtain ⟨hpfree, hpfirst⟩ := (hfree p hp).mp hnext
      obtain ⟨hsfree, hsfirst⟩ := (hfree slot hslot).mp hat
      obtain ⟨cp, hcp, -⟩ := h.ctx p hp
      obtain ⟨cs, hcs, -⟩ := h.ctx slot hslot
      obtain hlt' | heq | hgt := Nat.lt_trichotomy p slot
      · exact absurd (hpfree cp hcp) (by simp [hsfirst p hlt' cp hcp])
      · exact heq
      · exact absurd (hsfree cs hcs) (by simp [hpfirst slot hgt cs hcs])
  | none =>
      refine .inr ⟨rfl, fun p hp hnext => ?_⟩
      obtain ⟨ctx, hctx, -⟩ := h.ctx p hp
      have hlt : p < w.pyrion.contexts.length := h.size ▸ hp
      have hno := List.findIdx?_eq_none_iff.mp hfind _ (List.getElem_mem hlt)
      rw [hany hctx hlt, ((hfree p hp).mp hnext).1 ctx hctx] at hno
      cases hno

theorem lt_of_ctxAt (h : w.Inv) {p : Nat} {ctx : PyrionCtx} (hctx : w.pyrion.ctxAt p = some ctx) :
    p < MAX_PYRION_CONTEXTS := by
  obtain ⟨hlt, -⟩ := List.getElem?_eq_some_iff.mp (Pyrion.getElem?_of_ctxAt hctx)
  exact h.size ▸ hlt

theorem create_none (h : w.pyrion.controllerCount = 0) :
    pyrionCreateCtxVirtio name (some mem) w.pyrion = .ok (none, w.pyrion) := if_pos h

-- pyrion_create_ctx_virtio takes the slot that is next.
theorem create_spec (h : w.Inv) (hcount : w.pyrion.controllerCount ≠ 0) (name : List UInt8)
    (mem : Nat × Nat) :
    (∃ slot n ctx, slot < MAX_PYRION_CONTEXTS ∧ w.pyrion.ctxAt slot = some ctx ∧
      (∀ p < MAX_PYRION_CONTEXTS, w.pyrion.IsNext p ↔ p = slot) ∧
      pyrionCreateCtxVirtio name (some mem) w.pyrion = .ok (some slot,
        ({ w.pyrion with nxtCtx := n }.put slot (ctx.opened mem)).send
          (.create ctx.ctxId (ctxName name)))) ∨
    pyrionCreateCtxVirtio name (some mem) w.pyrion = .ok (none, w.pyrion) ∧
      ∀ p < MAX_PYRION_CONTEXTS, ¬ w.pyrion.IsNext p := by
  rw [pyrionCreateCtxVirtio, if_neg hcount]
  obtain ⟨slot, n, hfree, hslot, hnext⟩ | ⟨hfree, hnone⟩ := freeCtxSlot_spec h
  · obtain ⟨ctx, hctx, -⟩ := h.ctx slot hslot
    refine .inl ⟨slot, n, ctx, hslot, hctx, hnext, ?_⟩
    rw [hfree]
    dsimp only
    rw [if_neg (Nat.not_lt.mpr (Nat.le_of_lt hslot)), Pyrion.getElem?_of_ctxAt hctx]
    rfl
  · refine .inr ⟨?_, hnone⟩
    rw [hfree]
    exact if_pos (by decide)

end Create

section Steps

variable {w t : ContextUse} {c : ContextCall}

theorem inv_unique (h : w.Inv) : w.Unique := by
  have hid : ∀ p ∈ w.live, w.pyrion.ctxId p = p + 1 ∧ p < MAX_PYRION_CONTEXTS := fun p hp => by
    obtain ⟨ctx, hctx, hlive, -, hctxId⟩ := h.ctx p (h.inRange p hp)
    refine ⟨?_, h.inRange p hp⟩
    rw [Pyrion.ctxId_eq hctx]
    obtain heq | ⟨-, hno⟩ := hctxId
    · exact heq
    · rw [hlive.mpr hp] at hno
      cases hno
  refine ⟨fun name mem => ?_, h.nodup, fun p hp => ?_, fun p hp q hq heq => ?_,
    fun p hp q hq k l heq => ?_⟩
  · by_cases hcount : w.pyrion.controllerCount = 0
    · exact ⟨_, create_none hcount⟩
    · obtain ⟨slot, n, ctx, -, -, -, hrun⟩ | ⟨hrun, -⟩ := create_spec h hcount name mem
      · exact ⟨_, hrun⟩
      · exact ⟨_, hrun⟩
  · rw [(hid p hp).1]
    exact Nat.succ_ne_zero p
  · rw [(hid p hp).1, (hid q hq).1] at heq
    exact Nat.succ.inj heq
  · have hplt := (hid p hp).2
    have hqlt := (hid q hq).2
    rw [resId, resId, (hid p hp).1, (hid q hq).1] at heq
    -- every kind has `MAX_PYRION_CONTEXTS` numbers of its own
    cases k <;> cases l <;>
      simp only [ResourceKind.base, RES_ID_2D_BASE, RES_ID_3D_BASE, RES_ID_SCANOUT_BASE,
        RES_ID_RAST_BASE, RES_ID_BLEND_BASE, RES_ID_FONT_BASE, MAX_PYRION_CONTEXTS, and_true,
        reduceCtorEq, and_false] at heq hplt hqlt ⊢ <;>
      omega

theorem created_inv (h : w.Inv) {slot n : Nat} {ctx : PyrionCtx} {mem : Nat × Nat}
    {cmd : ContextCommand} (hslot : slot < MAX_PYRION_CONTEXTS)
    (hctx : w.pyrion.ctxAt slot = some ctx) (hvalid : ctx.valid = false) (hid : ctx.ctxId ≠ 0)
    (hcount : w.pyrion.controllerCount ≠ 0) :
    ContextUse.Inv
      ⟨({ w.pyrion with nxtCtx := n }.put slot (ctx.opened mem)).send cmd, slot :: w.live⟩ := by
  obtain ⟨ctx', hctx', hlive, hidx, hctxId⟩ := h.ctx slot hslot
  rw [hctx] at hctx'
  obtain rfl := Option.some.inj hctx'
  have hnot : slot ∉ w.live := fun hmem => by
    rw [hlive.mpr hmem] at hvalid
    cases hvalid
  have hat : ∀ i, (({ w.pyrion with nxtCtx := n }.put slot (ctx.opened mem)).send cmd).ctxAt i =
      if i = slot then some (ctx.opened mem) else w.pyrion.ctxAt i := fun i =>
    Pyrion.ctxAt_put (h.size ▸ hslot)
  refine ⟨List.length_set.trans h.size, fun i hi => ?_,
    List.forall_mem_cons.mpr ⟨hslot, h.inRange⟩, List.nodup_cons.mpr ⟨hnot, h.nodup⟩,
    fun _ => Nat.pos_of_ne_zero hcount⟩
  dsimp only
  rw [hat i]
  by_cases hi' : i = slot
  · rw [if_pos hi', hi']
    exact ⟨_, rfl, by simp [PyrionCtx.opened], hidx, .inl (hctxId.resolve_right fun hno => hid hno.1)⟩
  · obtain ⟨ci, hci, hlivei, hrest⟩ := h.ctx i hi
    rw [if_neg hi']
    exact ⟨ci, hci, by rw [hlivei, List.mem_cons, or_iff_right hi'], hrest⟩

theorem destroyed_inv (h : w.Inv) {slot : Nat} (hslot : slot ∈ w.live) :
    ContextUse.Inv ⟨pyrionDestroyCtxVirtio slot w.pyrion, w.live.erase slot⟩ := by
  have hlt := h.inRange slot hslot
  obtain ⟨ctx, hctx, hlive, hidx, -⟩ := h.ctx slot hlt
  have hcount := h.controllers (List.ne_nil_of_mem hslot)
  have hrun : pyrionDestroyCtxVirtio slot w.pyrion =
      { ((w.pyrion.send .resetScanout).send (.destroy ctx.ctxId)).put slot {} with
        nxtCtx := ctx.ctxId } := by
    rw [pyrionDestroyCtxVirtio, Pyrion.getElem?_of_ctxAt hctx]
    dsimp only
    rw [if_neg (by simp [hlive.mpr hslot]), if_neg (by rw [hidx]; omega)]
  have hat : ∀ i, (pyrionDestroyCtxVirtio slot w.pyrion).ctxAt i =
      if i = slot then some {} else w.pyrion.ctxAt i := fun i => by
    rw [hrun]
    exact Pyrion.ctxAt_put (h.size ▸ hlt)
  refine ⟨?_, fun i hi => ?_, fun p hp => h.inRange p (List.mem_of_mem_erase hp),
    h.nodup.erase slot, fun _ => ?_⟩
  · rw [hrun]
    exact List.length_set.trans h.size
  · dsimp only
    rw [hat i]
    by_cases hi' : i = slot
    · rw [if_pos hi', hi']
      refine ⟨_, rfl, ?_, rfl, .inr ⟨rfl, rfl⟩⟩
      simp [List.Nodup.not_mem_erase h.nodup]
    · obtain ⟨ci, hci, hlivei, hrest⟩ := h.ctx i hi
      rw [if_neg hi']
      exact ⟨ci, hci, by rw [hlivei, List.mem_erase_of_ne hi'], hrest⟩
  · rw [hrun]
    exact hcount

theorem step_inv (h : w.Inv) (hs : ContextStep w c t) (hok : NextFresh w c) : t.Inv := by
  cases hs with
  | @created name mem slot s hrun =>
      by_cases hcount : w.pyrion.controllerCount = 0
      · rw [create_none hcount] at hrun
        cases hrun
      obtain ⟨slot', n, ctx, hslot, hctx, hnext, hrun'⟩ | ⟨hrun', -⟩ := create_spec h hcount name mem
      · rw [hrun'] at hrun
        cases hrun
        obtain ⟨hvalid, hid⟩ := hok hcount slot ctx ((hnext slot hslot).mpr rfl) hctx
        exact created_inv h hslot hctx hvalid hid hcount
      · rw [hrun'] at hrun
        cases hrun
  | @refused name mem s hrun =>
      have hsame : s = w.pyrion := by
        by_cases hcount : w.pyrion.controllerCount = 0
        · rw [create_none hcount] at hrun
          cases hrun
          rfl
        obtain ⟨slot', n, ctx, -, -, -, hrun'⟩ | ⟨hrun', -⟩ := create_spec h hcount name mem
        · rw [hrun'] at hrun
          cases hrun
        · rw [hrun'] at hrun
          cases hrun
          rfl
      rw [hsame]
      exact h
  | destroyed hslot => exact destroyed_inv h hslot

-- A context that is handed out although it is live, or that lost its number, shows.
theorem nextFresh_of_unique (h : w.Inv) (hs : ContextStep w c t) (ht : t.Unique) :
    NextFresh w c := by
  cases c with
  | destroy slot => exact trivial
  | create name mem =>
      intro hcount slot ctx hnext hctx
      have hslot := lt_of_ctxAt h hctx
      obtain ⟨slot', n, ctx', hslot', hctx', hnext', hrun⟩ | ⟨-, hnone⟩ := create_spec h hcount name mem
      · obtain rfl := (hnext' slot hslot).mp hnext
        rw [hctx] at hctx'
        obtain rfl := Option.some.inj hctx'
        cases hs with
        | created hrun' =>
            rw [hrun] at hrun'
            cases hrun'
            obtain ⟨ctx'', hctx'', hlive, -⟩ := h.ctx slot hslot
            rw [hctx] at hctx''
            obtain rfl := Option.some.inj hctx''
            have hnot := (List.nodup_cons.mp ht.nodup).1
            refine ⟨Bool.eq_false_iff.mpr fun hyes => hnot (hlive.mp hyes), ?_⟩
            have hid := ht.nonzero slot List.mem_cons_self
            have hat : (({ w.pyrion with nxtCtx := n }.put slot (ctx.opened mem)).send
                (.create ctx.ctxId (ctxName name))).ctxAt slot = some (ctx.opened mem) :=
              (Pyrion.ctxAt_put (h.size ▸ hslot)).trans (if_pos rfl)
            rwa [Pyrion.ctxId_eq hat] at hid
        | refused hrun' =>
            rw [hrun] at hrun'
            cases hrun'
      · exact absurd hnext (hnone slot hslot)

end Steps

section Runs

-- The step that a call takes.
def ContextUse.next (w : ContextUse) : ContextCall → Except Unit ContextUse
  | .create name mem =>
      match pyrionCreateCtxVirtio name (some mem) w.pyrion with
      | .ok (some slot, s) => .ok ⟨s, slot :: w.live⟩
      | .ok (none, s) => .ok ⟨s, w.live⟩
      | .error _ => .error ()
  | .destroy slot =>
      if slot ∈ w.live then .ok ⟨pyrionDestroyCtxVirtio slot w.pyrion, w.live.erase slot⟩
      else .error ()

theorem next_step (w : ContextUse) (c : ContextCall) (t : ContextUse) (h : w.next c = .ok t) :
    ContextStep w c t := by
  cases c with
  | create name mem =>
      rw [ContextUse.next] at h
      split at h
      · rename_i hrun
        cases h
        exact .created hrun
      · rename_i hrun
        cases h
        exact .refused hrun
      · cases h
  | destroy slot =>
      rw [ContextUse.next] at h
      split at h
      · rename_i hslot
        cases h
        exact .destroyed hslot
      · cases h

-- A run of calls that leaves `live`.
theorem run_of_live (controllerCount : Nat) (calls : List ContextCall) {live : List Nat}
    (h : ((calls.foldlM ContextUse.next (ContextUse.start controllerCount)).toOption.map
      ContextUse.live) = some live) :
    ∃ past w, Trace ContextStep (ContextUse.start controllerCount) past w ∧
      past.map Prod.snd = calls ∧ w.live = live := by
  cases hrun : calls.foldlM ContextUse.next (ContextUse.start controllerCount) with
  | error e =>
      rw [hrun] at h
      cases h
  | ok w =>
      obtain ⟨past, htrace, hcalls⟩ := Trace.of_foldlM next_step calls .nil hrun
      rw [hrun] at h
      exact ⟨past, w, htrace, hcalls, Option.some.inj h⟩

end Runs

-- Exactly then contexts stay unique: no context that was destroyed is made again, and no
-- hint names one that is live.
theorem contexts_unique_iff {controllerCount : Nat} {past : List (ContextUse × ContextCall)}
    {w : ContextUse} (h : Trace ContextStep (ContextUse.start controllerCount) past w) :
    Trace.Always ContextUse.Unique past w ↔ Trace.Admits NextFresh past :=
  Trace.always_iff_admits (start_inv controllerCount) (inv_unique (start_inv controllerCount))
    (fun _ _ _ hI _ hs ht => step_inv hI hs (nextFresh_of_unique hI hs ht))
    (fun _ _ _ hI _ hs =>
      ⟨nextFresh_of_unique hI hs, fun hok => inv_unique (step_inv hI hs hok)⟩) h


theorem contexts_unique_iff_two :
    ∃ past w, Trace ContextStep (ContextUse.start 1) past w ∧
      past.map Prod.snd = [.create [] (1, 1), .create [] (2, 2)] ∧ w.live = [1, 0] ∧
      (Trace.Always ContextUse.Unique past w ↔ Trace.Admits NextFresh past) := by
  obtain ⟨past, w, h, hcalls, hlive⟩ := run_of_live 1 [.create [] (1, 1), .create [] (2, 2)]
    (show _ = some [1, 0] by decide +kernel)
  exact ⟨past, w, h, hcalls, hlive, contexts_unique_iff h⟩

-- The number of the first context is the slot of the second one.
theorem contexts_collide :
    ∃ past w, Trace ContextStep (ContextUse.start 1) past w ∧
      past.map Prod.snd = [.create [] (1, 1), .create [] (2, 2), .destroy 0, .create [] (3, 3)] ∧
      ¬ Trace.Always ContextUse.Unique past w := by
  obtain ⟨past, w, h, hcalls, hlive⟩ := run_of_live 1
    [.create [] (1, 1), .create [] (2, 2), .destroy 0, .create [] (3, 3)]
    (show _ = some [1, 1] by decide +kernel)
  refine ⟨past, w, h, hcalls, fun hall => ?_⟩
  have hnodup := hall.2.nodup
  rw [hlive] at hnodup
  exact absurd hnodup (by decide)

end AosKernel.Gpu
