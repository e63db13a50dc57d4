import Mathlib.Logic.Function.Basic
import AosKernel.Lib.Trace
import AosKernel.Smp.CoreResources

namespace AosKernel.Smp

open Verif

def SMP_CMD_SHUTDOWN : Nat := 1 <<< 0
def SMP_CMD_RESERVE : Nat := 1 <<< 1
def SMP_CMD_UNRESERVE : Nat := 1 <<< 2
def SMP_RESP_INV_CMD : Nat := 1 <<< 8
def SMP_RESP_ACK_SHUTDOWN : Nat := 1 <<< 9
def SMP_RESP_ACK_RESERVE : Nat := 1 <<< 10
def SMP_RESP_ACK_UNRESERVE : Nat := 1 <<< 11

-- smp_shutdown_core, smp_reserve_core and smp_unreserve_core.
inductive SmpCommand
  | shutdown
  | reserve
  | unreserve
  deriving DecidableEq

def SmpCommand.code : SmpCommand → Nat
  | .shutdown => SMP_CMD_SHUTDOWN
  | .reserve => SMP_CMD_RESERVE
  | .unreserve => SMP_CMD_UNRESERVE

-- Where the target is in the loop of ap_kernel_entry. Once it has left it
-- stands still with interrupts off.
inductive TargetPhase
  | command
  | tasks
  | halted
  | left
  deriving DecidableEq

-- Where a calling core is: past the checks, waiting with its command stored,
-- in the timed wait of smp_shutdown_core, past that wait, and freeing.
inductive CallPhase
  | idle
  | entered (cmd : SmpCommand)
  | stored (cmd : SmpCommand) (tag : Nat)
  | timed (tag timeout : Nat)
  | exited (tag timeout : Nat)
  | freeing
  deriving DecidableEq

-- One target core, at `cores[core_idx]` while it is listed, and its callers.
-- The rest are histories: the number of stores, which is the tag of the
-- command in place, the commands the target has executed and those whose
-- calls have returned, with their tags, and where the target was when its
-- structures were freed.
structure CommandState where
  command : Nat
  response : Nat
  status : CoreStatus
  idleStatus : CoreStatus
  target : TargetPhase
  listed : Bool
  now : Nat
  calls : Nat → CallPhase
  stores : Nat
  executed : List (Nat × Nat)
  returned : List (Nat × Nat)
  freedAt : List TargetPhase

def CommandState.setCall (s : CommandState) (k : Nat) (ph : CallPhase) : CommandState :=
  { s with calls := Function.update s.calls k ph }

inductive CommandAction
  | enter (k : Nat) (cmd : SmpCommand)
  | store (k : Nat)
  | clock (k : Nat)
  | poll (k : Nat)
  | invalid (k : Nat)
  | check (k : Nat)
  | unlist (k : Nat)
  | loop
  | work
  | halt
  | wake
  | tick (ms : Nat)

def CommandState.execute (s : CommandState) : CommandState :=
  { s with executed := (s.stores, s.command) :: s.executed }

-- The section of the loop under command_lock.
def CommandState.apCommand (s : CommandState) : CommandState :=
  if s.command ≠ 0 then
    if s.command = SMP_CMD_SHUTDOWN then
      { s.execute with response := SMP_RESP_ACK_SHUTDOWN, target := .left }
    else if s.command = SMP_CMD_RESERVE then
      { s.execute with
        idleStatus := .reserved, response := SMP_RESP_ACK_RESERVE, target := .tasks }
    else if s.command = SMP_CMD_UNRESERVE then
      { s.execute with
        idleStatus := .ready, response := SMP_RESP_ACK_UNRESERVE, target := .tasks }
    else { s.execute with response := SMP_RESP_INV_CMD, target := .tasks }
  else { s with target := .tasks }

-- The section of a call under command_lock.
def CommandState.storeCommand (s : CommandState) (k : Nat) (cmd : SmpCommand) : CommandState :=
  { s.setCall k (.stored cmd (s.stores + 1)) with
    command := cmd.code, response := 0, stores := s.stores + 1 }

-- Each step of a call or of the target, with no step where the code has none
-- to take. A halted target wakes at the next timer interrupt at the latest.
def CommandState.act (s : CommandState) : CommandAction → Option CommandState
  | .enter k cmd =>
      if s.calls k = .idle ∧ s.listed = true then some (s.setCall k (.entered cmd)) else none
  | .store k =>
      match s.calls k with
      | .entered cmd => some (s.storeCommand k cmd)
      | _ => none
  | .clock k =>
      match s.calls k with
      | .stored .shutdown tag => some (s.setCall k (.timed tag s.now))
      | _ => none
  | .poll k =>
      match s.calls k with
      | .stored .shutdown _ => none
      | .stored cmd tag =>
          if s.response ≠ 0 then
            some { s.setCall k .idle with returned := (tag, cmd.code) :: s.returned }
          else some s
      | .timed tag timeout =>
          if s.response ≠ 0 ∨ s.now - timeout ≥ 10000 then some (s.setCall k (.exited tag timeout))
          else some s
      | _ => none
  | .invalid k =>
      match s.calls k with
      | .timed _ _ => if s.response = SMP_RESP_INV_CMD then some (s.setCall k .idle) else none
      | _ => none
  | .check k =>
      match s.calls k with
      | .exited _ timeout =>
          if s.now - timeout > 1000 then some (s.setCall k .idle)
          else some { s.setCall k .freeing with freedAt := s.target :: s.freedAt }
      | _ => none
  | .unlist k =>
      match s.calls k with
      | .freeing => some { s.setCall k .idle with listed := false }
      | _ => none
  | .loop => if s.target = .command then some s.apCommand else none
  | .work => if s.target = .tasks then some { s with target := .command } else none
  | .halt =>
      if s.target = .tasks then some { s with status := s.idleStatus, target := .halted } else none
  | .wake =>
      if s.target = .halted then some { s with status := .running, target := .command } else none
  | .tick ms => some { s with now := s.now + ms }

def CommandStep (s : CommandState) (a : CommandAction) (t : CommandState) : Prop := s.act a = some t

-- A call that has returned had its command executed, and structures were freed
-- when the target had left its loop.
structure ProtocolKept (s : CommandState) : Prop where
  returned : ∀ r ∈ s.returned, r ∈ s.executed
  freed : ∀ p ∈ s.freedAt, p = .left

-- The call waits for the response to the command it stored.
def CallPhase.Awaits (ph : CallPhase) (tag : Nat) : Prop :=
  (∃ cmd, ph = .stored cmd tag) ∨ ∃ timeout, ph = .timed tag timeout

-- A call stores its command when nobody waits for the one in place, unless
-- that has been executed.
def StoresAlone (s : CommandState) : CommandAction → Prop
  | .store _ => (s.stores, s.command) ∈ s.executed ∨ ∀ k, ¬ (s.calls k).Awaits s.stores
  | _ => True

-- The target is online and nobody has called.
structure Uncalled (s : CommandState) : Prop where
  command : s.command = 0
  response : s.response = 0
  idle : ∀ k, s.calls k = .idle
  executed : s.executed = []
  returned : s.returned = []
  freedAt : s.freedAt = []

-- What is known of the command that a call has stored: it is in place, or it
-- has been executed.
def CommandState.Known (s : CommandState) (tag code : Nat) : Prop :=
  tag = s.stores ∧ code = s.command ∨ (tag, code) ∈ s.executed

def CallInv (s : CommandState) : CallPhase → Prop
  | .stored cmd tag => s.Known tag cmd.code
  | .timed tag _ => s.Known tag SMP_CMD_SHUTDOWN
  | .exited tag timeout => (tag, SMP_CMD_SHUTDOWN) ∈ s.executed ∨ s.now - timeout ≥ 10000
  | .idle | .entered _ | .freeing => True

structure CommandInv (s : CommandState) : Prop where
  response : s.response ≠ 0 → (s.stores, s.command) ∈ s.executed
  calls : ∀ k, CallInv s (s.calls k)
  left : ∀ tag, (tag, SMP_CMD_SHUTDOWN) ∈ s.executed → s.target = .left
  kept : ProtocolKept s

theorem Uncalled.inv {s : CommandState} (h : Uncalled s) : CommandInv s := by
  refine ⟨fun hr => absurd h.response hr, fun k => ?_, fun tag ht => ?_, ?_, ?_⟩
  · rw [h.idle]
    trivial
  · simp [h.executed] at ht
  · simp [h.returned]
  · simp [h.freedAt]

section Steps

variable {s t : CommandState} {k tag timeout code : Nat} {cmd : SmpCommand} {ph : CallPhase}

theorem CommandState.Known.executed (h : s.Known tag code) (hinv : CommandInv s)
    (hresponse : s.response ≠ 0) : (tag, code) ∈ s.executed := by
  obtain ⟨rfl, rfl⟩ | hmem := h
  · exact hinv.response hresponse
  · exact hmem

theorem CallInv.mono (h : CallInv s ph) (hknown : ∀ tag code, s.Known tag code → t.Known tag code)
    (hexecuted : s.executed ⊆ t.executed) (hnow : s.now ≤ t.now) : CallInv t ph := by
  cases ph with
  | idle | entered cmd | freeing => trivial
  | stored cmd tag => exact hknown _ _ h
  | timed tag timeout => exact hknown _ _ h
  | exited tag timeout =>
      obtain hmem | htime := h
      · exact .inl (hexecuted hmem)
      · exact .inr (htime.trans (Nat.sub_le_sub_right hnow timeout))

-- A step of core `k` that leaves the command and the response.
theorem CommandInv.call (hinv : CommandInv s) (k : Nat) (ph : CallPhase)
    (hph : CallInv (s.setCall k ph) ph) :
    CommandInv (s.setCall k ph) := by
  refine ⟨hinv.response, fun k' => ?_, hinv.left, hinv.kept.returned, hinv.kept.freed⟩
  by_cases hk : k' = k
  · subst hk
    simpa only [CommandState.setCall, Function.update_self] using hph
  · simpa only [CommandState.setCall, Function.update_of_ne hk] using
      (hinv.calls k').mono (t := s.setCall k ph) (fun _ _ h => h) (List.Subset.refl _) (le_refl _)

theorem CommandInv.storeCommand (hinv : CommandInv s)
    (halone : (s.stores, s.command) ∈ s.executed ∨ ∀ k, ¬ (s.calls k).Awaits s.stores) :
    CommandInv (s.storeCommand k cmd) := by
  -- a command that somebody waits for is overwritten only once it has been executed
  have hknown : ∀ tag code k', (s.calls k').Awaits tag → s.Known tag code →
      (s.storeCommand k cmd).Known tag code := by
    rintro tag code k' hawaits (⟨rfl, rfl⟩ | hmem)
    · exact .inr (halone.resolve_right fun hnone => hnone k' hawaits)
    · exact .inr hmem
  refine ⟨fun h => absurd rfl h, fun k' => ?_, hinv.left, hinv.kept.returned, hinv.kept.freed⟩
  by_cases hk : k' = k
  · subst hk
    simp only [CommandState.storeCommand, CommandState.setCall, Function.update_self]
    exact .inl ⟨rfl, rfl⟩
  · have hcall := hinv.calls k'
    simp only [CommandState.storeCommand, CommandState.setCall, Function.update_of_ne hk]
    cases hph : s.calls k' with
    | idle | entered cmd | freeing => trivial
    | stored cmd tag =>
        rw [hph] at hcall
        exact hknown _ _ k' (.inl ⟨cmd, hph⟩) hcall
    | timed tag timeout =>
        rw [hph] at hcall
        exact hknown _ _ k' (.inr ⟨timeout, hph⟩) hcall
    | exited tag timeout =>
        rw [hph] at hcall
        exact hcall

-- The target executes the command in place.
theorem CommandInv.execute (hinv : CommandInv s) (hstores : t.stores = s.stores)
    (hcommand : t.command = s.command) (hcalls : t.calls = s.calls) (hnow : t.now = s.now)
    (hexecuted : t.executed = (s.stores, s.command) :: s.executed)
    (hreturned : t.returned = s.returned) (hfreed : t.freedAt = s.freedAt)
    (htarget : s.target = .command) (hleft : s.command = SMP_CMD_SHUTDOWN → t.target = .left) :
    CommandInv t := by
  have hgrows : s.executed ⊆ t.executed := by
    rw [hexecuted]
    exact List.subset_cons_self _ _
  refine ⟨fun _ => ?_, fun k => ?_, fun tag htag => ?_, fun r hr => ?_, ?_⟩
  · rw [hstores, hcommand, hexecuted]
    exact List.mem_cons_self
  · rw [hcalls]
    refine (hinv.calls k).mono (fun tag code h => ?_) hgrows hnow.ge
    rw [CommandState.Known, hstores, hcommand]
    exact h.imp_right fun hmem => hgrows hmem
  · rw [hexecuted, List.mem_cons, Prod.mk.injEq] at htag
    obtain ⟨-, hshutdown⟩ | htag := htag
    · exact hleft hshutdown.symm
    · have := hinv.left tag htag
      rw [htarget] at this
      cases this
  · rw [hreturned] at hr
    exact hgrows (hinv.kept.returned r hr)
  · rw [hfreed]
    exact hinv.kept.freed

theorem CommandInv.apCommand (hinv : CommandInv s) (htarget : s.target = .command) :
    CommandInv s.apCommand := by
  unfold CommandState.apCommand
  split
  · split
    · exact hinv.execute rfl rfl rfl rfl rfl rfl rfl htarget fun _ => rfl
    · rename_i hne
      split
      · exact hinv.execute rfl rfl rfl rfl rfl rfl rfl htarget fun h => absurd h hne
      · split
        · exact hinv.execute rfl rfl rfl rfl rfl rfl rfl htarget fun h => absurd h hne
        · exact hinv.execute rfl rfl rfl rfl rfl rfl rfl htarget fun h => absurd h hne
  · refine ⟨hinv.response, hinv.calls, fun tag htag => ?_, hinv.kept.returned, hinv.kept.freed⟩
    have := hinv.left tag htag
    rw [htarget] at this
    cases this

-- The target goes on in its loop.
theorem CommandInv.goOn (hinv : CommandInv s) (hleft : s.target ≠ .left) (p : TargetPhase)
    (status : CoreStatus) : CommandInv { s with target := p, status } :=
  ⟨hinv.response, hinv.calls, fun tag htag => absurd (hinv.left tag htag) hleft,
    hinv.kept.returned, hinv.kept.freed⟩

theorem CommandInv.poll (hinv : CommandInv s) (hs : s.act (.poll k) = some t) : CommandInv t := by
  have hcall := hinv.calls k
  simp only [CommandState.act] at hs
  split at hs
  · cases hs
  · rename_i cmd tag _ hph
    rw [hph] at hcall
    split at hs
    · rename_i hresponse
      cases hs
      obtain ⟨hr, hc, hl, -, hf⟩ := hinv.call k .idle trivial
      refine ⟨hr, hc, hl, fun r hmem => ?_, hf⟩
      obtain rfl | hmem := List.mem_cons.mp hmem
      · exact hcall.executed hinv hresponse
      · exact hinv.kept.returned r hmem
    · cases hs
      exact hinv
  · rename_i tag timeout hph
    rw [hph] at hcall
    split at hs
    · rename_i hexit
      cases hs
      refine hinv.call _ _ ?_
      obtain hresponse | htime := hexit
      · exact .inl (hcall.executed hinv hresponse)
      · exact .inr htime
    · cases hs
      exact hinv
  · cases hs

theorem CommandInv.check (hinv : CommandInv s) (hs : s.act (.check k) = some t) :
    CommandInv t := by
  have hcall := hinv.calls k
  simp only [CommandState.act] at hs
  split at hs
  · rename_i tag timeout hph
    rw [hph] at hcall
    split at hs
    · cases hs
      exact hinv.call _ _ trivial
    · rename_i hearly
      cases hs
      obtain ⟨hr, hc, hl, hret, -⟩ := hinv.call k .freeing trivial
      refine ⟨hr, hc, hl, hret, fun p hp => ?_⟩
      obtain rfl | hp := List.mem_cons.mp hp
      · refine hinv.left tag (hcall.resolve_right fun htime => ?_)
        omega
      · exact hinv.kept.freed p hp
  · cases hs

end Steps

theorem CommandInv.step {s t : CommandState} {a : CommandAction} (hinv : CommandInv s)
    (hs : CommandStep s a t) (halone : StoresAlone s a) : CommandInv t := by
  rw [CommandStep] at hs
  cases a with
  | poll k => exact hinv.poll hs
  | check k => exact hinv.check hs
  | enter k cmd =>
      simp only [CommandState.act] at hs
      split at hs
      · cases hs
        exact hinv.call _ _ trivial
      · cases hs
  | store k =>
      simp only [CommandState.act] at hs
      split at hs
      · cases hs
        exact hinv.storeCommand halone
      · cases hs
  | clock k =>
      have hcall := hinv.calls k
      simp only [CommandState.act] at hs
      split at hs
      · rename_i tag hph
        rw [hph] at hcall
        cases hs
        exact hinv.call _ _ hcall
      · cases hs
  | invalid k =>
      simp only [CommandState.act] at hs
      split at hs
      · split at hs
        · cases hs
          exact hinv.call _ _ trivial
        · cases hs
      · cases hs
  | unlist k =>
      simp only [CommandState.act] at hs
      split at hs
      · cases hs
        obtain ⟨hr, hc, hl, hret, hf⟩ := hinv.call k .idle trivial
        exact ⟨hr, hc, hl, hret, hf⟩
      · cases hs
  | loop =>
      simp only [CommandState.act] at hs
      split at hs
      · rename_i htarget
        cases hs
        exact hinv.apCommand htarget
      · cases hs
  | work | halt | wake =>
      simp only [CommandState.act] at hs
      split at hs
      · rename_i htarget
        cases hs
        exact hinv.goOn (by simp [htarget]) _ _
      · cases hs
  | tick ms =>
      cases hs
      exact ⟨hinv.response, fun k => (hinv.calls k).mono (fun _ _ h => h) (List.Subset.refl _)
        (Nat.le_add_right ..), hinv.left, hinv.kept.returned, hinv.kept.freed⟩

theorem protocol_kept_run {start s : CommandState} {past : List (CommandState × CommandAction)}
    (hstart : Uncalled start) (h : Trace CommandStep start past s)
    (halone : Trace.Admits StoresAlone past) : Trace.Always ProtocolKept past s :=
  h.always_of_admits hstart.inv (fun _ _ _ hinv (hok : StoresAlone _ _) hs => hinv.step hs hok)
    (fun _ hinv => hinv.kept) halone


-- A core waits in its loop.
def onlineTarget : CommandState where
  command := 0
  response := 0
  status := .ready
  idleStatus := .ready
  target := .command
  listed := true
  now := 0
  calls _ := .idle
  stores := 0
  executed := []
  returned := []
  freedAt := []

theorem onlineTarget_uncalled : Uncalled onlineTarget := ⟨rfl, rfl, fun _ => rfl, rfl, rfl, rfl⟩


-- A reservation, and after it a shutdown.
theorem protocol_kept_run_two :
    ∃ past s, Trace CommandStep onlineTarget past s ∧ s.returned = [(1, SMP_CMD_RESERVE)] ∧
      s.freedAt = [.left] ∧ Trace.Always ProtocolKept past s := by
  have hentered := Trace.nil.snoc (show CommandStep onlineTarget (.enter 1 .reserve) _ from rfl)
  have hstored := hentered.snoc (show CommandStep _ (.store 1) _ from rfl)
  have hexecuted := hstored.snoc (show CommandStep _ .loop _ from rfl)
  have hreserved := hexecuted.snoc (show CommandStep _ (.poll 1) _ from rfl)
  have hworked := hreserved.snoc (show CommandStep _ .work _ from rfl)
  have hentered' := hworked.snoc (show CommandStep _ (.enter 2 .shutdown) _ from rfl)
  have hstored' := hentered'.snoc (show CommandStep _ (.store 2) _ from rfl)
  have htimed := hstored'.snoc (show CommandStep _ (.clock 2) _ from rfl)
  have hexecuted' := htimed.snoc (show CommandStep _ .loop _ from rfl)
  have hexited := hexecuted'.snoc (show CommandStep _ (.poll 2) _ from rfl)
  have hfreed := hexited.snoc (show CommandStep _ (.check 2) _ from rfl)
  refine ⟨_, _, hfreed, rfl, rfl, protocol_kept_run onlineTarget_uncalled hfreed ?_⟩
  simp only [Trace.admits_snoc, Trace.admits_nil, StoresAlone, and_true, true_and]
  refine ⟨.inr fun k hawaits => ?_, .inl (by decide)⟩
  by_cases hk : k = 1 <;>
    simp [CallPhase.Awaits, CommandState.setCall, onlineTarget, hk] at hawaits

-- A reservation overwrites a shutdown that waits. The target acknowledges the
-- reservation, and the shutdown frees it while it runs.
theorem protocol_kept_fails :
    ¬ ∀ (start : CommandState) (past : List (CommandState × CommandAction)) (s : CommandState),
      Uncalled start → Trace CommandStep start past s → Trace.Always ProtocolKept past s := by
  intro hall
  have hentered := Trace.nil.snoc (show CommandStep onlineTarget (.enter 1 .shutdown) _ from rfl)
  have hentered' := hentered.snoc (show CommandStep _ (.enter 2 .reserve) _ from rfl)
  have hstored := hentered'.snoc (show CommandStep _ (.store 1) _ from rfl)
  have htimed := hstored.snoc (show CommandStep _ (.clock 1) _ from rfl)
  have hstored' := htimed.snoc (show CommandStep _ (.store 2) _ from rfl)
  have hexecuted := hstored'.snoc (show CommandStep _ .loop _ from rfl)
  have hexited := hexecuted.snoc (show CommandStep _ (.poll 1) _ from rfl)
  have hfreed := hexited.snoc (show CommandStep _ (.check 1) _ from rfl)
  have hkept := (hall _ _ _ onlineTarget_uncalled hfreed).2
  exact absurd (hkept.freed .tasks List.mem_cons_self) (by decide)

end AosKernel.Smp
