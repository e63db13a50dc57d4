import AosKernel.Io.SataTransfer
import AosKernel.Lib.Trace
import Mathlib.Data.Nat.Bitwise

namespace AosKernel.Io

open Verif

-- A port: the bits of PxCMD that the driver writes, PxCI, and the buffers that
-- sata_exec_cmd_internal has from avmf_alloc and has not freed.
structure SataPort where
  cmd : BitVec 32
  ci : Nat
  buffers : List Nat
  deriving DecidableEq

namespace SataPort

-- ST and FRE
def Running (p : SataPort) : Prop := p.cmd.getLsbD 0 = true ∧ p.cmd.getLsbD 4 = true

-- The controller leaves the commands of `keep` issued. It takes none without ST.
def advance (p : SataPort) (keep : Nat) : SataPort :=
  if p.cmd.getLsbD 0 then { p with ci := p.ci &&& keep } else p

-- A write to PxCMD. The controller drops all commands when ST goes from 1 to 0.
def writeCmd (p : SataPort) (cmd : BitVec 32) : SataPort :=
  { p with cmd := cmd, ci := if p.cmd.getLsbD 0 && !cmd.getLsbD 0 then 0 else p.ci }

def free (p : SataPort) (virt : Nat) : SataPort := { p with buffers := p.buffers.erase virt }

end SataPort

-- A pass of the wait for a command: what the controller has left issued before it, and
-- what is read of PxIS and the clock.
structure SataLook where
  keep : Nat
  irq : Nat
  ms : Nat
  deriving DecidableEq

-- The waits of sata_port_stop for CR and FR: the clock before, and in each pass the bit
-- and the clock.
structure StopLooks where
  msCr : Nat
  cr : List (Bool × Nat)
  msFr : Nat
  fr : List (Bool × Nat)
  deriving DecidableEq

deriving instance DecidableEq for SataReading

-- What the controller, the clock and the allocator do during one command. avmf_alloc
-- gives a virtual and a physical address or none.
structure PortRun where
  msBusy : Nat
  busy : List SataReading
  sact : Nat
  dma : Option Nat
  ms : Nat
  looks : List SataLook
  stop : StopLooks
  deriving DecidableEq

-- As above, `none` is a wait that goes on.
def waitClear (timeout : Nat) : List (Bool × Nat) → Option Bool
  | [] => none
  | (set, ms) :: rest =>
      if !set then some true else if elapsed ms timeout > 1000 then some false
      else waitClear timeout rest

def sataPortStop (p : SataPort) (looks : StopLooks) : Option (Bool × SataPort) :=
  let p := p.writeCmd (p.cmd &&& ~~~(1#32 <<< 0 ||| 1#32 <<< 4))
  match waitClear looks.msCr looks.cr with
  | none => none
  | some false => some (false, p)
  | some true => (waitClear looks.msFr looks.fr).map fun ok => (ok, p)

-- PxIS and PxSERR are cleared after the stop, which no later wait depends on.
def sataAbortCommand (p : SataPort) (looks : StopLooks) : Option (Bool × SataPort) :=
  sataPortStop p looks

-- The loop behind the write to PxCI. FALSE is a disk error or a timeout.
def waitCommand (slot timeout : Nat) : List SataLook → SataPort → Option (Bool × SataPort)
  | [], _ => none
  | l :: rest, p =>
      let p := p.advance l.keep
      if elapsed l.ms timeout > 1000 then some (false, p)
      else if p.ci &&& (1 <<< slot) = 0 then some (true, p)
      else if l.irq &&& (1 <<< 30) ≠ 0 then some (false, p)
      else waitCommand slot timeout rest p

-- sata_exec_cmd_internal, as far as the port and the buffer go.
def execInternal (state : SataPortState) (hasData : Bool) (run : PortRun) (count : Nat)
    (p : SataPort) : Option (Bool × SataPort) :=
  if !state.active then some (false, p) else
  let bytes := count * 512
  if prdtCount bytes > 0xFFFF ∨ prdtCount bytes > SATA_MAX_PRDT_STATIC_ENTRIES then
    some (false, p)
  else
  match sataBusyWait run.msBusy run.msBusy run.busy with
  | none => none
  | some false => some (false, p)
  | some true =>
  match sataFindCmdslot state run.sact p.ci with
  | none => some (false, p)
  | some slot =>
  -- avmf_alloc has nothing for no bytes
  if hasData ∧ (bytes = 0 ∨ run.dma = none) then some (false, p) else
  let virt := if hasData then run.dma else none
  let p := { p with ci := p.ci ||| (1 <<< slot), buffers := virt.toList ++ p.buffers }
  let freed := fun p : SataPort => virt.elim p p.free
  match waitCommand slot run.ms run.looks p with
  | none => none
  | some (true, p) => some (true, freed p)
  | some (false, p) =>
      match sataAbortCommand p run.stop with
      | none => none
      | some (false, p) => some (false, p)
      | some (true, p) => some (false, freed p)

-- The loop of sata_exec_cmd. The result has the runs that are left.
def execCommands (state : SataPortState) (hasData : Bool) :
    List PortRun → Nat → SataPort → Option (Bool × List PortRun × SataPort)
  | [], remaining, p => if remaining = 0 then some (true, [], p) else none
  | run :: runs, remaining, p =>
      if remaining = 0 then some (true, run :: runs, p) else
      let sectors := if remaining > maxSectorsPerCmd then maxSectorsPerCmd else remaining
      match execInternal state hasData run (sectors % 2 ^ 32) p with
      | none => none
      | some (false, p) => some (false, runs, p)
      | some (true, p) => execCommands state hasData runs (remaining - sectors) p

def execCommand (state : SataPortState) (hasData : Bool) (runs : List PortRun) (count : Nat)
    (p : SataPort) : Option (Bool × List PortRun × SataPort) :=
  if !state.active then some (false, runs, p) else
  let bytes := count * 512
  if prdtCount bytes > 0xFFFF ∨ prdtCount bytes > SATA_MAX_PRDT_STATIC_ENTRIES then
    execCommands state hasData runs count p
  else
    match runs with
    | [] => none
    | run :: runs => (execInternal state hasData run count p).map fun r => (r.1, runs, r.2)

-- A call of sata_exec_cmd, with what happens during its commands.
structure SataCall where
  hasData : Bool
  count : Nat
  runs : List PortRun

def SataPort.Takes (state : SataPortState) (p : SataPort) (c : SataCall) (p' : SataPort) : Prop :=
  ∃ ok, execCommand state c.hasData c.runs c.count p = some (ok, [], p')

-- The port runs, no command is issued, and no buffer is left.
structure SataPort.Ready (p : SataPort) : Prop where
  running : p.Running
  idle : p.ci = 0
  freed : p.buffers = []

-- In the wait for its command the driver sees an error, or that a second has passed,
-- before it sees that the command is done.
def FailsIn (slot timeout : Nat) : List SataLook → Prop
  | [] => False
  | l :: rest => elapsed l.ms timeout > 1000 ∨
      l.keep &&& (1 <<< slot) ≠ 0 ∧ (l.irq &&& (1 <<< 30) ≠ 0 ∨ FailsIn slot timeout rest)

-- The slot in which a command is issued on an idle port, if it is.
def PortRun.slot (state : SataPortState) (hasData : Bool) (count : Nat) (run : PortRun) :
    Option Nat :=
  if sataBusyWait run.msBusy run.msBusy run.busy = some true ∧
      ¬ (hasData ∧ (count = 0 ∨ run.dma = none)) then
    sataFindCmdslot state run.sact 0
  else none

-- No command of the call that is issued fails.
def SataCall.Completes (state : SataPortState) (c : SataCall) : Prop :=
  state.active = true → ∀ run ∈ c.runs, ∀ slot, run.slot state c.hasData c.count = some slot →
    ¬ FailsIn slot run.ms run.looks

theorem and_bit_eq_zero {n k : Nat} : n &&& (1 <<< k) = 0 ↔ n.testBit k = false := by
  rw [Nat.one_shiftLeft, Nat.and_two_pow]
  cases n.testBit k <;> simp

namespace SataPort

theorem advance_buffers (p : SataPort) (keep : Nat) : (p.advance keep).buffers = p.buffers := by
  unfold advance
  split <;> rfl

theorem advance_cmd (p : SataPort) (keep : Nat) : (p.advance keep).cmd = p.cmd := by
  unfold advance
  split <;> rfl

end SataPort

section Wait

variable {slot timeout : Nat} {p p' : SataPort} {ok : Bool}

theorem waitCommand_frame {looks : List SataLook}
    (h : waitCommand slot timeout looks p = some (ok, p')) :
    p'.cmd = p.cmd ∧ p'.buffers = p.buffers := by
  induction looks generalizing p with
  | nil => cases h
  | cons l rest ih =>
      have hcmd := p.advance_cmd l.keep
      have hbuffers := p.advance_buffers l.keep
      have hhere (ok' : Bool) (h : some (ok', p.advance l.keep) = some (ok, p')) :
          p'.cmd = p.cmd ∧ p'.buffers = p.buffers := by
        obtain ⟨-, rfl⟩ := Prod.mk.inj (Option.some.inj h)
        exact ⟨hcmd, hbuffers⟩
      unfold waitCommand at h
      dsimp only at h
      split at h
      · exact hhere false h
      · split at h
        · exact hhere true h
        · split at h
          · exact hhere false h
          · obtain ⟨hcmd', hbuffers'⟩ := ih h
            exact ⟨hcmd'.trans hcmd, hbuffers'.trans hbuffers⟩

-- The wait on a running port whose only command is the one in `slot`.
theorem waitCommand_running {looks : List SataLook} (hrun : p.Running)
    (hbit : p.ci.testBit slot = true) (honly : ∀ i, p.ci.testBit i = true → i = slot)
    (h : waitCommand slot timeout looks p = some (ok, p')) :
    (ok = true → p'.ci = 0) ∧ (ok = false ↔ FailsIn slot timeout looks) := by
  induction looks generalizing p with
  | nil => cases h
  | cons l rest ih =>
      have hadvance : p.advance l.keep = { p with ci := p.ci &&& l.keep } := if_pos hrun.1
      have hpending : (p.ci &&& l.keep) &&& (1 <<< slot) = 0 ↔ l.keep &&& (1 <<< slot) = 0 := by
        rw [and_bit_eq_zero, and_bit_eq_zero, Nat.testBit_and, hbit, Bool.true_and]
      unfold waitCommand at h
      rw [hadvance] at h
      dsimp only at h
      unfold FailsIn
      by_cases hlate : elapsed l.ms timeout > 1000
      · rw [if_pos hlate] at h
        obtain ⟨rfl, -⟩ := Prod.mk.inj (Option.some.inj h)
        exact ⟨nofun, fun _ => .inl hlate, fun _ => rfl⟩
      rw [if_neg hlate] at h
      by_cases hdone : l.keep &&& (1 <<< slot) = 0
      · rw [if_pos (hpending.mpr hdone)] at h
        obtain ⟨rfl, rfl⟩ := Prod.mk.inj (Option.some.inj h)
        refine ⟨fun _ => Nat.eq_of_testBit_eq fun i => ?_, nofun, fun hfails => ?_⟩
        · rw [Nat.testBit_and, Nat.zero_testBit, Bool.and_eq_false_iff]
          by_cases hi : i = slot
          · exact .inr (hi ▸ and_bit_eq_zero.mp hdone)
          · exact .inl (Bool.eq_false_of_not_eq_true fun hset => hi (honly i hset))
        · exact (hfails.elim hlate fun hboth => hboth.1 hdone).elim
      rw [if_neg (mt hpending.mp hdone)] at h
      by_cases herror : l.irq &&& (1 <<< 30) ≠ 0
      · rw [if_pos herror] at h
        obtain ⟨rfl, -⟩ := Prod.mk.inj (Option.some.inj h)
        exact ⟨nofun, fun _ => .inr ⟨hdone, .inl herror⟩, fun _ => rfl⟩
      rw [if_neg herror] at h
      have hbit' : (p.ci &&& l.keep).testBit slot = true := by
        rw [Nat.testBit_and, hbit, Bool.true_and]
        exact Bool.eq_true_of_not_eq_false fun hclear => hdone (and_bit_eq_zero.mpr hclear)
      have honly' (i : Nat) (hi : (p.ci &&& l.keep).testBit i = true) : i = slot := by
        rw [Nat.testBit_and, Bool.and_eq_true] at hi
        exact honly i hi.1
      have hrest := ih (p := { p with ci := p.ci &&& l.keep }) hrun hbit' honly' h
      refine ⟨hrest.1, hrest.2.trans ⟨fun hfails => .inr ⟨hdone, .inr hfails⟩, fun hfails => ?_⟩⟩
      obtain ⟨-, hcase⟩ := hfails.resolve_left hlate
      exact hcase.resolve_left herror

-- On a port that does not run no command is ever done.
theorem waitCommand_stopped {looks : List SataLook} (hstop : p.cmd.getLsbD 0 = false)
    (hbit : p.ci.testBit slot = true) (h : waitCommand slot timeout looks p = some (ok, p')) :
    ok = false := by
  induction looks with
  | nil => cases h
  | cons l rest ih =>
      have hadvance : p.advance l.keep = p := if_neg (by rw [hstop]; nofun)
      unfold waitCommand at h
      rw [hadvance] at h
      dsimp only at h
      have hpending : ¬ p.ci &&& (1 <<< slot) = 0 := by
        rw [and_bit_eq_zero, hbit]
        nofun
      rw [if_neg hpending] at h
      split at h
      · exact (Prod.mk.inj (Option.some.inj h)).1.symm
      · split at h
        · exact (Prod.mk.inj (Option.some.inj h)).1.symm
        · exact ih h

end Wait

-- After sata_port_stop, however it ends, the port does not run.
theorem sataPortStop_cmd {p p' : SataPort} {looks : StopLooks} {ok : Bool}
    (h : sataPortStop p looks = some (ok, p')) : p'.cmd.getLsbD 0 = false := by
  have hclear : (p.cmd &&& ~~~(1#32 <<< 0 ||| 1#32 <<< 4)).getLsbD 0 = false := by simp
  unfold sataPortStop at h
  dsimp only at h
  split at h
  · cases h
  · obtain ⟨-, rfl⟩ := Prod.mk.inj (Option.some.inj h)
    exact hclear
  · obtain ⟨_, -, hpair⟩ := Option.map_eq_some_iff.mp h
    obtain ⟨-, rfl⟩ := Prod.mk.inj hpair
    exact hclear

section Command

variable {state : SataPortState} {hasData : Bool} {run : PortRun} {count : Nat}
  {p p' : SataPort} {ok : Bool}

def PrdtFits (count : Nat) : Prop :=
  ¬ (prdtCount (count * 512) > 0xFFFF ∨ prdtCount (count * 512) > SATA_MAX_PRDT_STATIC_ENTRIES)

-- A failed command leaves the port stopped, also where its buffer is freed.
theorem abort_cmd {q : SataPort} {looks : StopLooks} (virt : Option Nat)
    (h : (match sataAbortCommand q looks with
      | none => none
      | some (false, p) => some (false, p)
      | some (true, p) => some (false, virt.elim p p.free)) = some (ok, p')) :
    ok = false ∧ p'.cmd.getLsbD 0 = false := by
  split at h
  · cases h
  · rename_i hstop
    obtain ⟨rfl, rfl⟩ := Prod.mk.inj (Option.some.inj h)
    exact ⟨rfl, sataPortStop_cmd hstop⟩
  · rename_i hstop
    obtain ⟨rfl, rfl⟩ := Prod.mk.inj (Option.some.inj h)
    have hcmd := sataPortStop_cmd hstop
    cases virt with
    | none => exact ⟨rfl, hcmd⟩
    | some virt => exact ⟨rfl, hcmd⟩

-- What sata_exec_cmd_internal comes to: it gives up before it issues a command, or the
-- wait for the command decides.
theorem execInternal_cases (hactive : state.active = true) (hfits : PrdtFits count)
    (h : execInternal state hasData run count p = some (ok, p')) :
    ok = false ∧ p' = p ∧ (p.ci = 0 → run.slot state hasData count = none) ∨
      ∃ slot done q, sataFindCmdslot state run.sact p.ci = some slot ∧
        (p.ci = 0 → run.slot state hasData count = some slot) ∧
        waitCommand slot run.ms run.looks
          { p with
            ci := p.ci ||| (1 <<< slot)
            buffers := (if hasData then run.dma else none).toList ++ p.buffers } =
          some (done, q) ∧
        (done = true ∧ ok = true ∧ p' = (if hasData then run.dma else none).elim q q.free ∨
          done = false ∧ ok = false ∧ p'.cmd.getLsbD 0 = false) := by
  have hbytes : count * 512 = 0 ↔ count = 0 := by omega
  unfold execInternal at h
  rw [hactive, Bool.not_true, if_neg nofun] at h
  dsimp only at h
  rw [if_neg hfits] at h
  unfold PortRun.slot
  split at h
  · cases h
  · rename_i hbusy
    obtain ⟨rfl, rfl⟩ := Prod.mk.inj (Option.some.inj h)
    exact .inl ⟨rfl, rfl, fun _ => if_neg (by rw [hbusy]; nofun)⟩
  · rename_i hbusy
    split at h
    · rename_i hnone
      obtain ⟨rfl, rfl⟩ := Prod.mk.inj (Option.some.inj h)
      refine .inl ⟨rfl, rfl, fun hidle => ?_⟩
      rw [hidle] at hnone
      rw [hnone, ite_self]
    · rename_i slot hslot
      by_cases hmemory : hasData = true ∧ (count * 512 = 0 ∨ run.dma = none)
      · rw [if_pos hmemory] at h
        obtain ⟨rfl, rfl⟩ := Prod.mk.inj (Option.some.inj h)
        refine .inl ⟨rfl, rfl, fun _ => if_neg fun hboth => hboth.2 ?_⟩
        rwa [hbytes] at hmemory
      · rw [if_neg hmemory] at h
        refine .inr ⟨slot, ?_⟩
        have hissued : p.ci = 0 → (if sataBusyWait run.msBusy run.msBusy run.busy = some true ∧
            ¬ (hasData = true ∧ (count = 0 ∨ run.dma = none)) then
              sataFindCmdslot state run.sact 0 else none) = some slot := by
          intro hidle
          rw [hbytes] at hmemory
          rw [if_pos ⟨hbusy, hmemory⟩, ← hidle]
          exact hslot
        split at h
        · cases h
        · rename_i q hwait
          obtain ⟨rfl, rfl⟩ := Prod.mk.inj (Option.some.inj h)
          exact ⟨true, q, hslot, hissued, hwait, .inl ⟨rfl, rfl, rfl⟩⟩
        · rename_i q hwait
          exact ⟨false, q, hslot, hissued, hwait, .inr ⟨rfl, abort_cmd _ h⟩⟩

-- What the driver reads of the port in the wait.
def seen (p : SataPort) : List SataLook → List SataReading
  | [] => []
  | l :: rest => ⟨0, (p.advance l.keep).ci, l.irq, l.ms⟩ :: seen (p.advance l.keep) rest

theorem waitCommand_seen (slot timeout : Nat) (looks : List SataLook) (p : SataPort) :
    (waitCommand slot timeout looks p).map Prod.fst = sataWait slot timeout (seen p looks) := by
  induction looks generalizing p with
  | nil => rfl
  | cons l rest ih =>
      unfold waitCommand seen sataWait
      dsimp only
      split
      · rfl
      · split
        · rfl
        · split
          · rfl
          · exact ih (p.advance l.keep)

-- A run of the transfer model in which the same is read and allocated.
structure PortRun.SameAs (n : PortRun) (p : SataPort) (hasData : Bool) (r : SataRun) : Prop where
  msBusy : r.msBusy = n.msBusy
  busy : r.busy = n.busy
  sact : r.sact = n.sact
  ci : r.ci = p.ci
  block : ∀ bytes, (r.block bytes).virt = 0 ∨ (r.block bytes).phys = 0 ↔
    bytes = 0 ∨ n.dma = none
  ms : r.ms = n.ms
  polls : ∀ slot, r.polls = seen { p with
    ci := p.ci ||| (1 <<< slot)
    buffers := (if hasData then n.dma else none).toList ++ p.buffers } n.looks

-- The result is the one that the transfer model has.
theorem execInternal_result {req : SataRequest} {r : SataRun} {lba buffer : Nat} {s : SataState}
    (hsame : run.SameAs p req.hasData r)
    (h : execInternal state req.hasData run count p = some (ok, p')) :
    ∃ s', sataExecCmdInternal state req r lba count buffer s = some (ok, s') := by
  unfold execInternal at h
  unfold sataExecCmdInternal
  split at h
  · rename_i hinactive
    obtain ⟨rfl, -⟩ := Prod.mk.inj (Option.some.inj h)
    exact ⟨s, if_pos hinactive⟩
  rename_i hactive
  rw [if_neg hactive]
  dsimp only at h ⊢
  split at h
  · rename_i hmany
    obtain ⟨rfl, -⟩ := Prod.mk.inj (Option.some.inj h)
    exact ⟨s, if_pos hmany⟩
  rename_i hfits
  rw [if_neg hfits, hsame.msBusy, hsame.busy, hsame.sact, hsame.ci]
  rcases hbusy : sataBusyWait run.msBusy run.msBusy run.busy with _ | _ | _
  · simp only [hbusy] at h
    cases h
  · simp only [hbusy] at h ⊢
    obtain ⟨rfl, -⟩ := Prod.mk.inj (Option.some.inj h)
    exact ⟨s, rfl⟩
  simp only [hbusy] at h ⊢
  rcases hslot : sataFindCmdslot state run.sact p.ci with _ | slot
  · simp only [hslot] at h ⊢
    obtain ⟨rfl, -⟩ := Prod.mk.inj (Option.some.inj h)
    exact ⟨s, rfl⟩
  simp only [hslot] at h ⊢
  have hblock := and_congr_right (a := req.hasData = true) fun _ => hsame.block (count * 512)
  by_cases hmemory : req.hasData = true ∧ (count * 512 = 0 ∨ run.dma = none)
  · rw [if_pos hmemory] at h
    obtain ⟨rfl, -⟩ := Prod.mk.inj (Option.some.inj h)
    exact ⟨s, if_pos (hblock.mpr hmemory)⟩
  have hwait := waitCommand_seen slot run.ms run.looks { p with
    ci := p.ci ||| (1 <<< slot)
    buffers := (if req.hasData then run.dma else none).toList ++ p.buffers }
  rw [← hsame.polls slot] at hwait
  rw [if_neg (mt hblock.mp hmemory), hsame.ms, ← hwait]
  rw [if_neg hmemory] at h
  rcases hdone : waitCommand slot run.ms run.looks { p with
    ci := p.ci ||| (1 <<< slot)
    buffers := (if req.hasData then run.dma else none).toList ++ p.buffers } with _ | ⟨_ | _, q⟩
  · simp only [hdone] at h
    cases h
  · rcases hstop : sataAbortCommand q run.stop with _ | ⟨_ | _, q'⟩
    · simp only [hdone, hstop] at h
      cases h
    · simp only [hdone, hstop] at h
      obtain ⟨rfl, -⟩ := Prod.mk.inj (Option.some.inj h)
      exact ⟨_, rfl⟩
    · simp only [hdone, hstop] at h
      obtain ⟨rfl, -⟩ := Prod.mk.inj (Option.some.inj h)
      exact ⟨_, rfl⟩
  · simp only [hdone] at h
    obtain ⟨rfl, -⟩ := Prod.mk.inj (Option.some.inj h)
    dsimp only [Option.map_some]
    split
    · exact ⟨_, rfl⟩
    · exact ⟨_, rfl⟩

-- The only buffer that is left is the one that is freed.
theorem freed_ready {q : SataPort} {virt : Option Nat} (hrun : q.Running) (hidle : q.ci = 0)
    (hbuffers : q.buffers = virt.toList) : (virt.elim q q.free).Ready := by
  cases virt with
  | none => exact ⟨hrun, hidle, hbuffers⟩
  | some virt =>
      refine ⟨hrun, hidle, ?_⟩
      change q.buffers.erase virt = []
      rw [hbuffers]
      exact List.erase_cons_head virt []

-- The port is ready after a command exactly where the command does not fail.
theorem execInternal_ready (hactive : state.active = true) (hfits : PrdtFits count)
    (hp : p.Ready) (h : execInternal state hasData run count p = some (ok, p')) :
    (ok = true → p'.Ready) ∧ (p'.Ready ↔
      ∀ slot, run.slot state hasData count = some slot → ¬ FailsIn slot run.ms run.looks) := by
  obtain ⟨rfl, rfl, hnone⟩ | ⟨slot, done, q, hfind, hslot, hwait, hcase⟩ :=
    execInternal_cases hactive hfits h
  · refine ⟨fun _ => hp, fun _ slot hslot => ?_, fun _ => hp⟩
    rw [hnone hp.idle] at hslot
    cases hslot
  · have hslot := hslot hp.idle
    have hbits (i : Nat) : (p.ci ||| (1 <<< slot)).testBit i = decide (slot = i) := by
      rw [hp.idle, Nat.zero_or, Nat.one_shiftLeft, Nat.testBit_two_pow]
    obtain ⟨hidle, hfails⟩ := waitCommand_running (by exact hp.running)
      ((hbits slot).trans (decide_eq_true rfl))
      (fun i hi => (of_decide_eq_true ((hbits i).symm.trans hi)).symm) hwait
    obtain ⟨hcmd, hbuffers⟩ := waitCommand_frame hwait
    have honly : (∀ slot, run.slot state hasData count = some slot →
        ¬ FailsIn slot run.ms run.looks) ↔ ¬ FailsIn slot run.ms run.looks := by
      constructor
      · intro hall
        exact hall slot hslot
      · intro hno slot' hslot'
        obtain rfl := Option.some.inj (hslot.symm.trans hslot')
        exact hno
    rw [honly, ← hfails]
    obtain ⟨rfl, rfl, rfl⟩ | ⟨rfl, rfl, hstopped⟩ := hcase
    · have hrunning : q.Running := by
        unfold SataPort.Running
        rw [hcmd]
        exact hp.running
      rw [hp.freed, List.append_nil] at hbuffers
      have hready := freed_ready hrunning (hidle rfl) hbuffers
      exact ⟨fun _ => hready, fun _ => nofun, fun _ => hready⟩
    · refine ⟨nofun, fun hready => ?_, fun hno => absurd rfl hno⟩
      rw [hready.running.1] at hstopped
      cases hstopped

theorem slot_of_pos (hcount : count ≠ 0) :
    run.slot state hasData count = run.slot state hasData 1 := by
  unfold PortRun.slot
  simp only [hcount, Nat.one_ne_zero]

theorem sectors_fit (remaining : Nat) (hpos : remaining ≠ 0) :
    let sectors := if remaining > maxSectorsPerCmd then maxSectorsPerCmd else remaining
    sectors % 2 ^ 32 ≠ 0 ∧ PrdtFits (sectors % 2 ^ 32) := by
  intro sectors
  have hsectors : 0 < sectors ∧ sectors ≤ 65535 := by
    change 0 < (if remaining > 65535 then 65535 else remaining) ∧
      (if remaining > 65535 then 65535 else remaining) ≤ 65535
    by_cases hmany : remaining > 65535
    · rw [if_pos hmany]
      decide
    · rw [if_neg hmany]
      omega
  rw [Nat.mod_eq_of_lt (by omega)]
  have hprdts := (prdtCount_le_iff sectors).mpr (by omega)
  refine ⟨by omega, ?_⟩
  unfold PrdtFits
  change ¬ (_ > 65535 ∨ _ > 256)
  omega

-- The same for the commands of a large transfer, by induction over them.
theorem execCommands_ready (hactive : state.active = true) {runs : List PortRun} {remaining : Nat}
    (hp : p.Ready) (h : execCommands state hasData runs remaining p = some (ok, [], p')) :
    p'.Ready ↔ ∀ run ∈ runs, ∀ slot, run.slot state hasData 1 = some slot →
      ¬ FailsIn slot run.ms run.looks := by
  induction runs generalizing remaining p with
  | nil =>
      unfold execCommands at h
      split at h
      · obtain ⟨-, hrest⟩ := Prod.mk.inj (Option.some.inj h)
        obtain ⟨-, rfl⟩ := Prod.mk.inj hrest
        exact ⟨fun _ _ hrun => absurd hrun List.not_mem_nil, fun _ => hp⟩
      · cases h
  | cons run runs ih =>
      unfold execCommands at h
      split at h
      · cases h
      · rename_i hpos
        obtain ⟨hcount, hfits⟩ := sectors_fit remaining hpos
        rw [List.forall_mem_cons]
        dsimp only at h
        split at h
        · cases h
        · rename_i q hfirst
          obtain ⟨-, hrest⟩ := Prod.mk.inj (Option.some.inj h)
          obtain ⟨rfl, rfl⟩ := Prod.mk.inj hrest
          have hready := (execInternal_ready hactive hfits hp hfirst).2
          rw [slot_of_pos hcount] at hready
          refine hready.trans ⟨fun hrun => ⟨hrun, ?_⟩, fun hall => hall.1⟩
          exact fun _ hmem => absurd hmem List.not_mem_nil
        · rename_i q hfirst
          obtain ⟨hsucceeds, hready⟩ := execInternal_ready hactive hfits hp hfirst
          rw [slot_of_pos hcount] at hready
          have hq := hsucceeds rfl
          rw [ih hq h]
          exact ⟨fun hall => ⟨hready.mp hq, hall⟩, fun hall => hall.2⟩

end Command

theorem takes_ready {state : SataPortState} {p p' : SataPort} {c : SataCall} (hp : p.Ready)
    (h : p.Takes state c p') : p'.Ready ↔ c.Completes state := by
  obtain ⟨ok, h⟩ := h
  unfold execCommand at h
  unfold SataCall.Completes
  by_cases hactive : state.active = true
  · rw [hactive, Bool.not_true, if_neg nofun] at h
    dsimp only at h
    rw [forall_prop_of_true hactive]
    split at h
    · rename_i hmany
      have hcount : c.count ≠ 0 := by
        intro hzero
        rw [hzero] at hmany
        exact absurd hmany (by decide)
      rw [execCommands_ready hactive hp h]
      refine forall₂_congr fun run _ => ?_
      rw [slot_of_pos hcount]
    · rename_i hfits
      split at h
      · cases h
      · rename_i run runs hruns
        obtain ⟨⟨done, q⟩, hexec, hpair⟩ := Option.map_eq_some_iff.mp h
        obtain ⟨rfl, hrest⟩ := Prod.mk.inj hpair
        obtain ⟨rfl, rfl⟩ := Prod.mk.inj hrest
        rw [hruns, List.forall_mem_singleton]
        exact (execInternal_ready hactive hfits hp hexec).2
  · rw [Bool.eq_false_of_not_eq_true hactive, Bool.not_false, if_pos rfl] at h
    obtain ⟨-, hrest⟩ := Prod.mk.inj (Option.some.inj h)
    obtain ⟨-, rfl⟩ := Prod.mk.inj hrest
    exact ⟨fun _ hno => absurd hno hactive, fun _ => hp⟩

-- On a port that has been stopped every later call fails, and leaves it stopped.
theorem execInternal_stopped {state : SataPortState} {hasData ok : Bool} {run : PortRun}
    {count : Nat} {p p' : SataPort} (hactive : state.active = true) (hfits : PrdtFits count)
    (hstop : p.cmd.getLsbD 0 = false)
    (h : execInternal state hasData run count p = some (ok, p')) :
    ok = false ∧ p'.cmd.getLsbD 0 = false := by
  obtain ⟨rfl, rfl, -⟩ | ⟨slot, done, q, -, -, hwait, hcase⟩ := execInternal_cases hactive hfits h
  · exact ⟨rfl, hstop⟩
  · obtain ⟨rfl, -⟩ | ⟨-, rfl, hstopped⟩ := hcase
    · have hbit : (p.ci ||| (1 <<< slot)).testBit slot = true := by
        rw [Nat.testBit_or, Nat.one_shiftLeft, Nat.testBit_two_pow, decide_eq_true rfl,
          Bool.or_true]
      have hnot : true = false := by
        apply waitCommand_stopped _ _ hwait
        · exact hstop
        · exact hbit
      cases hnot
    · exact ⟨rfl, hstopped⟩

theorem stopped_for_good {state : SataPortState} {hasData ok : Bool} {runs rest : List PortRun}
    {count : Nat} {p p' : SataPort} (hstop : p.cmd.getLsbD 0 = false)
    (h : execCommand state hasData runs count p = some (ok, rest, p')) :
    ok = false ∧ p'.cmd.getLsbD 0 = false := by
  unfold execCommand at h
  by_cases hactive : state.active = true
  · rw [hactive, Bool.not_true, if_neg nofun] at h
    dsimp only at h
    split at h
    · rename_i hmany
      have hpos : count ≠ 0 := by
        intro hzero
        rw [hzero] at hmany
        exact absurd hmany (by decide)
      unfold execCommands at h
      split at h
      · rw [if_neg hpos] at h
        cases h
      · rw [if_neg hpos] at h
        dsimp only at h
        have hfits := (sectors_fit count hpos).2
        split at h
        · cases h
        · rename_i hfirst
          obtain ⟨rfl, hrest⟩ := Prod.mk.inj (Option.some.inj h)
          obtain ⟨-, rfl⟩ := Prod.mk.inj hrest
          exact execInternal_stopped hactive hfits hstop hfirst
        · rename_i hfirst
          cases (execInternal_stopped hactive hfits hstop hfirst).1
    · rename_i hfits
      split at h
      · cases h
      · obtain ⟨⟨done, q⟩, hexec, hpair⟩ := Option.map_eq_some_iff.mp h
        obtain ⟨rfl, hrest⟩ := Prod.mk.inj hpair
        obtain ⟨-, rfl⟩ := Prod.mk.inj hrest
        exact execInternal_stopped hactive hfits hstop hexec
  · rw [Bool.eq_false_of_not_eq_true hactive, Bool.not_false, if_pos rfl] at h
    obtain ⟨rfl, hrest⟩ := Prod.mk.inj (Option.some.inj h)
    obtain ⟨-, rfl⟩ := Prod.mk.inj hrest
    exact ⟨rfl, hstop⟩

-- Over a run of calls on an initialised port.
theorem sata_run_iff {state : SataPortState} {start p : SataPort}
    {past : List (SataPort × SataCall)} (hstart : start.Ready)
    (h : Trace (SataPort.Takes state) start past p) :
    Trace.Always SataPort.Ready past p ↔ Trace.Admits (fun _ c => c.Completes state) past :=
  Trace.always_iff_admits trivial hstart (fun _ _ _ _ _ _ _ => trivial)
    (fun _ _ _ _ hready hstep => takes_ready hready hstep) h

-- A port as sata_port_start leaves it, with 32 slots.
def readyPort : SataPort := ⟨0x17, 0, []⟩

def slots32 : SataPortState := ⟨true, 32⟩

theorem readyPort_ready : readyPort.Ready := ⟨by unfold SataPort.Running; decide, rfl, rfl⟩

-- A flush of a device that answers with `looks`.
def flushCall (looks : List SataLook) : SataCall :=
  ⟨false, 0, [⟨0, [⟨0, 0, 0, 0⟩], 0, none, 0, looks, ⟨2, [(false, 2)], 2, [(false, 2)]⟩⟩]⟩

-- Done in the second pass.
def flushed : SataCall := flushCall [⟨1, 0, 1⟩, ⟨0, 0, 2⟩]

theorem sata_run_iff_flushed :
    Trace.Always SataPort.Ready [(readyPort, flushed)] readyPort ↔
      Trace.Admits (fun _ c => SataCall.Completes slots32 c) [(readyPort, flushed)] :=
  sata_run_iff readyPort_ready (Trace.nil.snoc ⟨true, by decide +kernel⟩)

-- A flush that ends in an error, and one that the device would finish at once.
def brokenFlush : SataCall := flushCall [⟨1, 2 ^ 30, 1⟩]

def laterFlush : SataCall := flushCall [⟨0, 0, 1⟩, ⟨0, 0, 1001⟩]

-- The error leaves the port stopped, on which the next command times out.
theorem error_stops_port :
    Trace (SataPort.Takes slots32) readyPort [(readyPort, brokenFlush)] ⟨0x06, 0, []⟩ ∧
      ¬ SataPort.Ready ⟨0x06, 0, []⟩ ∧
      (execCommand slots32 false laterFlush.runs 0 ⟨0x06, 0, []⟩).map Prod.fst = some false ∧
      (execCommand slots32 false laterFlush.runs 0 readyPort).map Prod.fst = some true := by
  refine ⟨Trace.nil.snoc ⟨false, by decide +kernel⟩, fun hready => ?_, by decide +kernel,
    by decide +kernel⟩
  exact absurd hready.running.1 (by decide)

end AosKernel.Io
