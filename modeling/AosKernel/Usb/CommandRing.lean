import Mathlib.Logic.Function.Iterate
import AosKernel.Lib.Trace
import AosKernel.Usb.Xhci

namespace AosKernel.Usb

open Verif

namespace XhciTrb

-- What a command TRB asks for.
def command (trb : XhciTrb) : Nat × Nat := (trb.type, trb.param)

theorem command_send (type param cycle : Nat) :
    XhciTrb.command ⟨param, 0, (type &&& 0x3F) <<< 10 ||| (cycle &&& 0x1)⟩ =
      (type &&& 0x3F, param) := by
  have hlow : (cycle &&& 0x1) >>> 10 = 0 := by
    rw [Nat.and_one_is_mod, Nat.shiftRight_eq_div_pow]
    omega
  simp only [command, XhciTrb.type, Prod.mk.injEq, and_true]
  rw [Nat.shiftRight_or_distrib, Nat.shiftLeft_shiftRight, hlow, Nat.or_zero, Nat.and_assoc,
    Nat.and_self]

theorem cycle_send (type param : Nat) (bit : Bool) :
    XhciTrb.cycle ⟨param, 0, (type &&& 0x3F) <<< 10 ||| (bit.toNat &&& 0x1)⟩ = bit := by
  have hhigh : (type &&& 0x3F) <<< 10 &&& 1 = 0 := by
    rw [Nat.and_one_is_mod, Nat.shiftLeft_eq]
    omega
  simp only [cycle, Nat.and_or_distrib_right, hhigh, Nat.zero_or, Nat.and_assoc, Nat.and_self]
  cases bit <;> rfl

end XhciTrb

-- The command ring between xhci_send_cmd and a consumer with its dequeue index and
-- consumer cycle state. The histories hold the commands sent and those executed.
structure CommandState where
  ring : CommandRing
  dequeue : Nat
  ccs : Bool
  sent : List (Nat × Nat)
  executed : List (Nat × Nat)

inductive CommandAction
  | send (type param : Nat)
  | consume

namespace CommandState

def init (cmdRingPhys : Nat) : CommandState where
  ring := CommandRing.init cmdRingPhys
  dequeue := 0
  ccs := true
  sent := []
  executed := []

def send (s : CommandState) (type param : Nat) : CommandState :=
  { s with ring := s.ring.sendCmd type param, sent := s.sent ++ [(type &&& 0x3F, param)] }

-- A TRB is executed, or a Link TRB followed, if its cycle bit is the consumer's.
def consume (s : CommandState) : CommandState :=
  let trb := s.ring.cmdRing s.dequeue
  if trb.cycle ≠ s.ccs then s
  else if trb.type = TRB_TYPE_LINK then
    { s with dequeue := 0, ccs := if trb.toggleCycle then !s.ccs else s.ccs }
  else { s with dequeue := s.dequeue + 1, executed := s.executed ++ [trb.command] }

end CommandState

-- Less than a ring of commands is pending when a command is sent.
inductive CommandStep (s : CommandState) : CommandAction → CommandState → Prop
  | send {type param} (hroom : s.sent.length < s.executed.length + (trbsPerPage - 1)) :
      CommandStep s (.send type param) (s.send type param)
  | consume : CommandStep s .consume s.consume

namespace CommandState

-- The consumer, going on, executes the commands sent, each once and in order.
def Executes (s : CommandState) : Prop :=
  (∃ n, (consume^[n] s).executed = s.sent) ∧ ∀ n, (consume^[n] s).executed <+: s.sent

-- The command is among the first two laps and is no Link TRB.
def Executable (s : CommandState) : CommandAction → Prop
  | .send type _ => s.sent.length < 2 * (trbsPerPage - 1) ∧ type &&& 0x3F ≠ TRB_TYPE_LINK
  | .consume => True

-- The consumer stands at the next command, or at the Link TRB behind a lap. The
-- cycle bit of that TRB lets it pass once.
inductive At (s : CommandState) : Prop
  | command (hfew : s.executed.length < 510) (hdequeue : s.dequeue = s.executed.length % 255)
      (hccs : s.ccs = Ring.lap 255 s.executed.length)
  | link (hlap : s.executed.length = 255 ∨ s.executed.length = 510) (hdequeue : s.dequeue = 255)
      (hccs : s.ccs = !Ring.lap 255 s.executed.length)

structure Inv (s : CommandState) : Prop where
  log : ∃ log, Ring.Marked 255 XhciTrb.cycle s.ring.cmdRing log s.executed.length ∧
    log.map XhciTrb.command = s.sent
  index : s.ring.cmdIndex = s.sent.length % 255
  cycle : s.ring.cmdCycle = (Ring.lap 255 s.sent.length).toNat
  link : ∃ phys, s.ring.cmdRing 255 = ⟨phys, 0, 1 ||| 6 <<< 10 ||| 1 <<< 1⟩
  commands : ∀ c ∈ s.sent, c.1 ≠ TRB_TYPE_LINK
  order : s.executed <+: s.sent
  position : At s

section Steps

variable {s t : CommandState}

theorem lastTrb_eq : trbsPerPage - 1 = 255 := rfl

theorem init_inv (cmdRingPhys : Nat) : Inv (init cmdRingPhys) := by
  refine ⟨⟨[], .nil fun i hi => ?_, rfl⟩, rfl, ?_, ⟨cmdRingPhys, ?_⟩, ?_, List.prefix_rfl,
    .command (Nat.zero_lt_succ _) rfl Ring.lap_zero.symm⟩
  · have hne : i ≠ trbsPerPage - 1 := by rw [lastTrb_eq]; omega
    simp only [init, CommandRing.init, Function.update_of_ne hne]
    decide
  · rw [init, List.length_nil, Ring.lap_zero]
    rfl
  · simp [init, CommandRing.init, lastTrb_eq]
  · intro c hc
    cases hc

-- Whatever is sent, the ring holds it as long as it is no Link TRB.
theorem Inv.send (h : Inv s) (hroom : s.sent.length < s.executed.length + 255) {type : Nat}
    (htype : type &&& 0x3F ≠ TRB_TYPE_LINK) (param : Nat) : Inv (s.send type param) := by
  obtain ⟨log, hlog, hsent⟩ := h.log
  have hlen : log.length = s.sent.length := by rw [← hsent, List.length_map]
  have hindex : s.ring.cmdIndex < 255 := h.index ▸ Nat.mod_lt _ (by decide)
  have hend := Ring.eq_iff_ge hindex
  have hpos : 0 < 255 := by decide
  refine ⟨⟨log ++ [⟨param, 0, (type &&& 0x3F) <<< 10 ||| (s.ring.cmdCycle &&& 0x1)⟩], ?_, ?_⟩,
    ?_, ?_, ?_, ?_, h.order.trans (List.prefix_append _ _), ?_⟩
  · have hpush := hlog.push (a := ⟨param, 0, (type &&& 0x3F) <<< 10 ||| (s.ring.cmdCycle &&& 0x1)⟩)
      (by rwa [hlen]) (by rw [h.cycle, XhciTrb.cycle_send, hlen])
    rwa [hlen, ← h.index] at hpush
  · rw [List.map_append, hsent, List.map_singleton, XhciTrb.command_send]
    rfl
  · simp only [CommandState.send, CommandRing.sendCmd, lastTrb_eq, hend, List.length_append,
      List.length_singleton]
    rw [← Ring.next_mod hpos, ← h.index]
    rfl
  · simp only [CommandState.send, CommandRing.sendCmd, lastTrb_eq, hend, List.length_append,
      List.length_singleton]
    rw [Ring.lap_succ hpos, ← h.index, h.cycle]
    cases Ring.lap 255 s.sent.length <;> split <;> rfl
  · obtain ⟨phys, hphys⟩ := h.link
    exact ⟨phys, (Function.update_of_ne (Nat.ne_of_gt hindex) ..).trans hphys⟩
  · intro c hc
    obtain hc | hc := List.mem_append.mp hc
    · exact h.commands c hc
    · rw [List.mem_singleton.mp hc]
      exact htype
  · obtain hcommand | hlink := h.position
    · exact .command ‹_› ‹_› ‹_›
    · exact .link ‹_› ‹_› ‹_›

-- The consumer follows the Link TRB with its cycle state clear or stays there.
theorem Inv.consume_link (h : Inv s) (hdequeue : s.dequeue = 255) :
    s.consume = if s.ccs then { s with dequeue := 0, ccs := false } else s := by
  obtain ⟨phys, hphys⟩ := h.link
  have hcycle : XhciTrb.cycle ⟨phys, 0, 1 ||| 6 <<< 10 ||| 1 <<< 1⟩ = true := by
    simp [XhciTrb.cycle]
  have htype : XhciTrb.type ⟨phys, 0, 1 ||| 6 <<< 10 ||| 1 <<< 1⟩ = TRB_TYPE_LINK := by
    simp [XhciTrb.type, TRB_TYPE_LINK]
  have htoggle : XhciTrb.toggleCycle ⟨phys, 0, 1 ||| 6 <<< 10 ||| 1 <<< 1⟩ = true := by
    simp [XhciTrb.toggleCycle]
  simp only [consume, hdequeue, hphys, hcycle, htype, htoggle]
  cases s.ccs <;> simp

-- At a command the consumer executes it, if one has been sent.
theorem Inv.consume_command (h : Inv s) (hdequeue : s.dequeue = s.executed.length % 255)
    (hccs : s.ccs = Ring.lap 255 s.executed.length) :
    s.consume = match s.sent[s.executed.length]? with
      | none => s
      | some c => { s with dequeue := s.dequeue + 1, executed := s.executed ++ [c] } := by
  obtain ⟨log, hlog, hsent⟩ := h.log
  have hbit := hlog.bit_iff (by decide)
  rw [← hdequeue, ← hccs] at hbit
  by_cases hlt : s.executed.length < log.length
  · have hfront := hlog.front hlt
    rw [← hdequeue] at hfront
    have hnext : s.sent[s.executed.length]? = some (s.ring.cmdRing s.dequeue).command := by
      rw [← hsent, List.getElem?_map, hfront]
      rfl
    have htype : (s.ring.cmdRing s.dequeue).type ≠ TRB_TYPE_LINK :=
      h.commands _ (List.mem_of_getElem? hnext)
    simp only [consume, hbit.mpr hlt, hnext, ne_eq, not_true_eq_false, if_false, if_neg htype]
  · have hnext : s.sent[s.executed.length]? = none := by
      rw [← hsent, List.getElem?_eq_none (by rw [List.length_map]; omega)]
    simp only [consume, hnext]
    exact if_pos fun heq => hlt (hbit.mp heq)

theorem Inv.execute (h : Inv s) (hfew : s.executed.length < 510)
    (hdequeue : s.dequeue = s.executed.length % 255)
    (hccs : s.ccs = Ring.lap 255 s.executed.length) {c : Nat × Nat}
    (hnext : s.sent[s.executed.length]? = some c) :
    Inv { s with dequeue := s.dequeue + 1, executed := s.executed ++ [c] } := by
  obtain ⟨log, hlog, hsent⟩ := h.log
  have hlt : s.executed.length < log.length := by
    have hlen := (List.getElem?_eq_some_iff.mp hnext).1
    rwa [← hsent, List.length_map] at hlen
  have hsucc := Ring.lap_succ (n := 255) (by decide) s.executed.length
  have hlen : (s.executed ++ [c]).length = s.executed.length + 1 := List.length_append
  refine ⟨⟨log, ?_, hsent⟩, h.index, h.cycle, h.link, h.commands,
    Ring.prefix_snoc h.order hnext, ?_⟩
  · rw [hlen]
    exact hlog.pop hlt
  · by_cases hend : s.executed.length % 255 + 1 ≥ 255
    · rw [if_pos hend] at hsucc
      refine .link ?_ ?_ ?_
      · dsimp only
        omega
      · dsimp only
        omega
      · dsimp only
        rw [hlen, hsucc, Bool.not_not, hccs]
    · rw [if_neg hend] at hsucc
      refine .command ?_ ?_ ?_
      · dsimp only
        omega
      · dsimp only
        omega
      · dsimp only
        rw [hlen, hsucc, hccs]

theorem Inv.follow (h : Inv s) (hlap : s.executed.length = 255) :
    Inv { s with dequeue := 0, ccs := false } := by
  refine ⟨h.log, h.index, h.cycle, h.link, h.commands, h.order, .command ?_ ?_ ?_⟩
  · dsimp only
    omega
  · dsimp only
    rw [hlap]
  · dsimp only
    rw [hlap]
    rfl

theorem Inv.consume (h : Inv s) : Inv s.consume := by
  obtain ⟨hfew, hdequeue, hccs⟩ | ⟨hlap, hdequeue, hccs⟩ := h.position
  · rw [h.consume_command hdequeue hccs]
    cases hnext : s.sent[s.executed.length]? with
    | none => exact h
    | some c => exact h.execute hfew hdequeue hccs hnext
  · rw [h.consume_link hdequeue]
    obtain hlap | hlap := hlap
    · rw [hccs, hlap]
      exact h.follow hlap
    · rw [hccs, hlap]
      exact h

theorem consume_sent (s : CommandState) : s.consume.sent = s.sent := by
  unfold CommandState.consume
  dsimp only
  split
  · rfl
  · split <;> rfl

theorem iterate_sent (s : CommandState) (n : Nat) : (CommandState.consume^[n] s).sent = s.sent := by
  induction n generalizing s with
  | zero => rfl
  | succ n ih => rw [Function.iterate_succ_apply, ih, consume_sent]

theorem Inv.iterate (h : Inv s) (n : Nat) : Inv (CommandState.consume^[n] s) := by
  induction n generalizing s with
  | zero => exact h
  | succ n ih =>
      rw [Function.iterate_succ_apply]
      exact ih h.consume

-- The consumer never gets past the second lap.
theorem Inv.executed_le (h : Inv s) : s.executed.length ≤ 510 := by
  obtain ⟨hfew, -, -⟩ | ⟨hlap, -, -⟩ := h.position
  · omega
  · omega

-- Up to there it gets to the next command, past the Link TRB if need be.
theorem Inv.progress (h : Inv s) (hlt : s.executed.length < s.sent.length)
    (hfew : s.executed.length < 510) :
    ∃ n, (CommandState.consume^[n] s).executed.length = s.executed.length + 1 := by
  obtain ⟨c, hnext⟩ : ∃ c, s.sent[s.executed.length]? = some c :=
    ⟨_, List.getElem?_eq_getElem hlt⟩
  obtain ⟨-, hdequeue, hccs⟩ | ⟨hlap, hdequeue, hccs⟩ := h.position
  · refine ⟨1, ?_⟩
    rw [Function.iterate_one, h.consume_command hdequeue hccs, hnext]
    exact List.length_append
  · have hlap : s.executed.length = 255 := by omega
    have hpass : s.consume = { s with dequeue := 0, ccs := false } := by
      rw [h.consume_link hdequeue, hccs, hlap]
      rfl
    refine ⟨2, ?_⟩
    rw [Function.iterate_succ_apply, Function.iterate_one, hpass,
      (h.follow hlap).consume_command (by rw [hlap]) (by rw [hlap]; rfl)]
    dsimp only
    rw [hnext]
    exact List.length_append

theorem Inv.catches_up (h : Inv s) (hfew : s.sent.length ≤ 510) :
    ∃ n, (CommandState.consume^[n] s).executed = s.sent := by
  induction hleft : s.sent.length - s.executed.length generalizing s with
  | zero =>
      refine ⟨0, h.order.eq_of_length_le ?_⟩
      omega
  | succ left ih =>
      obtain ⟨n, hn⟩ := h.progress (by omega) (by omega)
      have hsent := iterate_sent s n
      obtain ⟨m, hm⟩ := ih (h.iterate n) (by rwa [hsent]) (by rw [hsent, hn]; omega)
      refine ⟨m + n, ?_⟩
      rw [Function.iterate_add_apply, hm, hsent]

theorem Inv.executes_iff (h : Inv s) : Executes s ↔ s.sent.length ≤ 510 := by
  constructor
  · rintro ⟨⟨n, hn⟩, -⟩
    rw [← hn]
    exact (h.iterate n).executed_le
  · refine fun hfew => ⟨h.catches_up hfew, fun n => ?_⟩
    rw [← iterate_sent s n]
    exact (h.iterate n).order

-- A Link TRB is never executed.
theorem consume_commands (h : ∀ c ∈ s.executed, c.1 ≠ TRB_TYPE_LINK) :
    ∀ c ∈ s.consume.executed, c.1 ≠ TRB_TYPE_LINK := by
  unfold CommandState.consume
  dsimp only
  split
  · exact h
  · split
    · exact h
    · rename_i htype
      intro c hc
      obtain hc | hc := List.mem_append.mp hc
      · exact h c hc
      · rw [List.mem_singleton.mp hc]
        exact htype

theorem iterate_commands (h : ∀ c ∈ s.executed, c.1 ≠ TRB_TYPE_LINK) (n : Nat) :
    ∀ c ∈ (CommandState.consume^[n] s).executed, c.1 ≠ TRB_TYPE_LINK := by
  induction n generalizing s with
  | zero => exact h
  | succ n ih =>
      rw [Function.iterate_succ_apply]
      exact ih (consume_commands h)

theorem Inv.send_executes (h : Inv s) {type param : Nat} (ht : Executes (s.send type param)) :
    type &&& 0x3F ≠ TRB_TYPE_LINK := by
  obtain ⟨n, hn⟩ := ht.1
  have hexecuted : ∀ c ∈ s.executed, c.1 ≠ TRB_TYPE_LINK :=
    fun c hc => h.commands c (h.order.subset hc)
  have hsent : (type &&& 0x3F, param) ∈ (s.send type param).sent :=
    List.mem_append_right _ (List.mem_singleton_self _)
  rw [← hn] at hsent
  exact iterate_commands (s := s.send type param) hexecuted n _ hsent

theorem Inv.step {a : CommandAction} (h : Inv s) (ht : Executes t) (hs : CommandStep s a t) :
    Inv t := by
  cases hs with
  | send hroom => exact h.send hroom (h.send_executes ht) _
  | consume => exact h.consume

theorem Inv.step_executes_iff {a : CommandAction} (h : Inv s) (hP : Executes s)
    (hs : CommandStep s a t) : Executes t ↔ Executable s a := by
  cases hs with
  | @send type param hroom =>
      constructor
      · intro ht
        have htype := h.send_executes ht
        have hlen := (h.send hroom htype param).executes_iff.mp ht
        simp only [CommandState.send, List.length_append, List.length_singleton] at hlen
        exact ⟨hlen, htype⟩
      · rintro ⟨hfew, htype⟩
        refine (h.send hroom htype param).executes_iff.mpr ?_
        simp only [CommandState.send, List.length_append, List.length_singleton]
        exact hfew
  | consume =>
      refine iff_of_true (h.consume.executes_iff.mpr ?_) trivial
      rw [consume_sent]
      exact h.executes_iff.mp hP

end Steps

-- The consumer executes what is sent throughout a run exactly when the run sends
-- no more than two laps of commands, and no Link TRBs.
theorem commands_executed_iff {cmdRingPhys : Nat} {past : List (CommandState × CommandAction)}
    {s : CommandState} (h : Trace CommandStep (init cmdRingPhys) past s) :
    Trace.Always Executes past s ↔ Trace.Admits Executable past :=
  Trace.always_iff_admits (I := Inv) (init_inv cmdRingPhys)
    ((init_inv cmdRingPhys).executes_iff.mpr (Nat.zero_le _))
    (fun _ _ _ hinv _ hs ht => hinv.step ht hs)
    (fun _ _ _ hinv hP hs => hinv.step_executes_iff hP hs) h

-- Enable Slot is sent and executed.
theorem commands_executed_iff_enableSlot :
    ∃ past s, Trace CommandStep (init 0x200000) past s ∧ s.executed = [(9, 0)] ∧
      Trace.Always Executes past s := by
  have hsent := Trace.nil.snoc (show CommandStep (init 0x200000) (.send 9 0) _ from
    .send (by decide))
  have hexecuted := hsent.snoc (show CommandStep _ .consume _ from .consume)
  refine ⟨_, _, hexecuted, by decide, (commands_executed_iff hexecuted).mpr ?_⟩
  simp only [Trace.admits_snoc]
  exact ⟨⟨Trace.admits_nil, by decide, by decide⟩, trivial⟩

theorem trace_consume {start s : CommandState} {past : List (CommandState × CommandAction)}
    (h : Trace CommandStep start past s) (n : Nat) :
    ∃ later, Trace CommandStep start later (consume^[n] s) := by
  induction n generalizing s past with
  | zero => exact ⟨past, h⟩
  | succ n ih =>
      rw [Function.iterate_succ_apply]
      exact ih (h.snoc .consume)

-- Commands sent one by one, each executed before the next.
theorem send_one_by_one (cmdRingPhys type param : Nat) (htype : type &&& 0x3F ≠ TRB_TYPE_LINK)
    {n : Nat} (hn : n ≤ 510) :
    ∃ past s, Trace CommandStep (init cmdRingPhys) past s ∧ Inv s ∧ s.sent.length = n ∧
      s.executed = s.sent := by
  induction n with
  | zero => exact ⟨[], _, .nil, init_inv cmdRingPhys, rfl, rfl⟩
  | succ n ih =>
      obtain ⟨past, s, htrace, hinv, hlen, hall⟩ := ih (by omega)
      have hroom : s.sent.length < s.executed.length + 255 := by
        rw [hall]
        omega
      have hsent := htrace.snoc (show CommandStep _ (.send type param) _ from .send hroom)
      have hinv' := hinv.send hroom htype param
      have hlen' : (s.send type param).sent.length = n + 1 := by
        rw [← hlen]
        exact List.length_append
      obtain ⟨k, hk⟩ := hinv'.catches_up (by omega)
      obtain ⟨later, hlater⟩ := trace_consume hsent k
      refine ⟨later, _, hlater, hinv'.iterate k, ?_, ?_⟩
      · rw [iterate_sent, hlen']
      · rw [hk, iterate_sent]

-- After 510 commands the consumer stops at the Link TRB, and command 511 is
-- never executed.
theorem commands_executed_fails :
    ¬ ∀ (cmdRingPhys : Nat) (past : List (CommandState × CommandAction)) (s : CommandState),
      Trace CommandStep (init cmdRingPhys) past s → Trace.Always Executes past s := by
  intro hall
  have htype : 9 &&& 0x3F ≠ TRB_TYPE_LINK := by decide
  obtain ⟨past, s, htrace, hinv, hlen, hdone⟩ :=
    send_one_by_one 0x200000 9 0 htype (Nat.le_refl 510)
  have hroom : s.sent.length < s.executed.length + 255 := by
    rw [hdone]
    omega
  have hlast := (hall _ _ _ (htrace.snoc (show CommandStep _ (.send 9 0) _ from .send hroom))).2
  have hle := (hinv.send hroom htype 0).executes_iff.mp hlast
  simp only [CommandState.send, List.length_append, List.length_singleton, hlen] at hle
  exact absurd hle (by decide)

end CommandState

end AosKernel.Usb
