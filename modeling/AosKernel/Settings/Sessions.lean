import Mathlib.Data.List.Induction
import AosKernel.Lib.Trace
import AosKernel.Settings.Ambrc

namespace AosKernel.Settings

open Verif

-- What read_input returns: a character, or a scan code.
abbrev Key := BitVec 16

def Key.up : Key := 0x01
def Key.down : Key := 0x02
def Key.right : Key := 0x03
def Key.left : Key := 0x04
def Key.enter : Key := 0x0D
def Key.esc : Key := 0x17

def Key.yes (key : Key) : Prop := key = 0x79 ∨ key = 0x59
def Key.no (key : Key) : Prop := key = 0x6E ∨ key = 0x4E
def Key.cancel (key : Key) : Prop := key = 0x63 ∨ key = 0x43
def Key.reset (key : Key) : Prop := key = 0x72 ∨ key = 0x52

instance (key : Key) : Decidable key.yes := inferInstanceAs (Decidable (_ ∨ _))
instance (key : Key) : Decidable key.no := inferInstanceAs (Decidable (_ ∨ _))
instance (key : Key) : Decidable key.cancel := inferInstanceAs (Decidable (_ ∨ _))
instance (key : Key) : Decidable key.reset := inferInstanceAs (Decidable (_ ∨ _))

-- The call of read_input at which start_ambrc stands: in its own loop, in the
-- popup of a reset, or in the save prompt.
inductive Wait
  | loop
  | reset
  | save
  deriving DecidableEq

-- How start_ambrc has returned.
inductive Ending
  | saved
  | declined
  | unprompted
  deriving DecidableEq

-- start_ambrc between two keys; `slot` is its pointer to the configuration.
structure Session where
  memory : Memory
  slot : Slot
  selected : Nat
  withinData : Bool
  dataSelected : Nat
  wait : Wait
  ending : Option Ending

namespace Session

def ambrc (e : Session) : Ambrc := e.memory.read e.slot

def store (e : Session) (a : Ambrc) : Session := { e with memory := e.memory.store a e.slot }

def setData (e : Session) (dir : Int) : Session :=
  match ambrcSetData e.ambrc e.memory.activeKIdx e.selected e.dataSelected dir with
  | none => e
  | some (a, k) =>
      { e with memory := { e.memory.store a e.slot with activeKIdx := k, changesMade := true } }

def maxRow (tab : Nat) : Nat :=
  if tab = 0 then 10 else if tab = 1 then 4 else AMBRC_MAX_KERNELS - 1

-- ambrc_handle_data up to the popup.
def handleData (e : Session) (key : Key) : Session :=
  if key = .up then { e with dataSelected := e.dataSelected - 1 }
  else if key = .down then
    if e.dataSelected < maxRow e.selected then { e with dataSelected := e.dataSelected + 1 } else e
  else if key = .right then e.setData 1
  else if key = .left then e.setData (-1)
  else if key.reset then { e with wait := .reset }
  else e

-- The popup of ambrc_handle_data.
def answerReset (e : Session) (key : Key) : Session :=
  if key.yes then
    { e.store (ambrcResetTab e.ambrc e.memory.activeKIdx e.selected) with wait := .loop }
  else if key.no ∨ key = .esc then { e with wait := .loop }
  else e

-- ambrc_handle_changes behind its prompt.
def answerSave (e : Session) (key : Key) : Session :=
  if key.yes then
    let memory := e.memory.store e.ambrc.sign e.slot
    { e with
      memory := { memory with written := e.ambrc.sign :: memory.written }
      ending := some .saved }
  else if key.no then { e with ending := some .declined }
  else if key.cancel ∨ key = .esc then { e with wait := .loop }
  else e

-- One turn of the loop of start_ambrc.
def turn (e : Session) (key : Key) : Session :=
  if e.withinData then
    if key = .esc then { e with withinData := false, dataSelected := 0 } else e.handleData key
  else if key = .up then { e with selected := e.selected - 1 }
  else if key = .down then if e.selected < 2 then { e with selected := e.selected + 1 } else e
  else if key = .enter then { e with withinData := true, dataSelected := 0 }
  else if key = .esc then
    if e.memory.changesMade then { e with wait := .save } else { e with ending := some .unprompted }
  else e

def key (e : Session) (key : Key) : Session :=
  if e.ending.isSome then e
  else
    match e.wait with
    | .loop => e.turn key
    | .reset => e.answerReset key
    | .save => e.answerSave key

def feed (e : Session) (keys : List Key) : Session := keys.foldl Session.key e

end Session

def startAmbrc (s : Memory) : Session where
  memory := s
  slot := s.slot
  selected := 0
  withinData := false
  dataSelected := 0
  wait := .loop
  ending := none

-- A call of start_ambrc: it returns at once, or on the last of its keys.
inductive SessionCall
  | refused
  | keys (init : List Key) (last : Key)

def SessionStep (s : Memory) (call : SessionCall) (t : Memory) : Prop :=
  match call with
  | .refused => t = s
  | .keys init last => ((startAmbrc s).feed init).ending = none ∧
      (((startAmbrc s).feed init).key last).ending ≠ none ∧
      t = (((startAmbrc s).feed init).key last).memory

-- What a session promises of the configuration.
structure Transaction (s : Memory) (init : List Key) (last : Key) : Prop where
  saved : (((startAmbrc s).feed init).key last).ending = some .saved →
    ∃ w, (((startAmbrc s).feed init).key last).memory.written = w :: s.written ∧
      (((startAmbrc s).feed init).key last).memory.getAmbrc = w ∧
      { w with crc32 := 0 } = { ((startAmbrc s).feed init).ambrc with crc32 := 0 } ∧
      w.accepted = true
  unsaved : (((startAmbrc s).feed init).key last).ending ≠ some .saved →
    (((startAmbrc s).feed init).key last).memory.getAmbrc = s.getAmbrc
  prompted : (∃ pre, pre <+: init ∧ ((startAmbrc s).feed pre).ambrc ≠ s.getAmbrc) →
    (((startAmbrc s).feed init).key last).ending ≠ some .unprompted

def Transactional (s : Memory) : SessionCall → Prop
  | .refused => True
  | .keys init last => Transaction s init last

-- A reset is confirmed only where changes are noted already or it changes nothing.
def Session.ResetNoted (e : Session) (key : Key) : Prop :=
  e.wait = .reset → key.yes →
    e.memory.changesMade = true ∨ ambrcResetTab e.ambrc e.memory.activeKIdx e.selected = e.ambrc

instance (e : Session) (key : Key) : Decidable (e.ResetNoted key) := by
  unfold Session.ResetNoted
  infer_instance

-- Every reset is noted, and a session that is left without saving has nothing to take back.
def SessionOk (s : Memory) : SessionCall → Prop
  | .refused => True
  | .keys init last =>
      (∀ pre key, pre ++ [key] <+: init → ((startAmbrc s).feed pre).ResetNoted key) ∧
      (((startAmbrc s).feed init).wait = .save → last.no →
        ((startAmbrc s).feed init).ambrc = s.getAmbrc)

@[simp] theorem read_store (m : Memory) (a : Ambrc) (slot : Slot) :
    (m.store a slot).read slot = a := by
  cases slot <;> rfl

theorem store_base {m : Memory} {a : Ambrc} {slot : Slot} (h : slot = .backup) :
    (m.store a slot).base = m.base := by
  subst h
  rfl

@[simp] theorem store_changesMade (m : Memory) (a : Ambrc) (slot : Slot) :
    (m.store a slot).changesMade = m.changesMade := by
  cases slot <;> rfl

@[simp] theorem store_written (m : Memory) (a : Ambrc) (slot : Slot) :
    (m.store a slot).written = m.written := by
  cases slot <;> rfl

-- Two structures that get_ambrc takes for configurations of one kind.
structure SameKind (a b : Ambrc) : Prop where
  magic : a.magic = b.magic
  version : a.version = b.version

theorem SameKind.sign {a b : Ambrc} (h : SameKind a b) (hb : b.accepted = true) :
    a.sign.accepted = true := by
  simp only [Ambrc.accepted, Bool.and_eq_true, beq_iff_eq] at hb ⊢
  exact ⟨⟨h.magic.trans hb.1.1, rfl⟩, h.version.trans hb.2⟩

theorem ambrcResetTab_kind (a : Ambrc) (k : Fin AMBRC_MAX_KERNELS) (tab : Nat) :
    SameKind (ambrcResetTab a k tab) a := by
  unfold ambrcResetTab
  split <;> exact ⟨rfl, rfl⟩

theorem ambrcSetData_kind {a b : Ambrc} {k k' : Fin AMBRC_MAX_KERNELS} {tab row : Nat} {dir : Int}
    (h : ambrcSetData a k tab row dir = some (b, k')) : SameKind b a := by
  unfold ambrcSetData at h
  split at h
  · cases h
    exact ⟨rfl, rfl⟩
  · obtain ⟨info, -, hb⟩ := Option.map_eq_some_iff.mp h
    cases hb
    exact ⟨rfl, rfl⟩
  · dsimp only at h
    split at h <;> cases h <;> exact ⟨rfl, rfl⟩
  · cases h
    exact ⟨rfl, rfl⟩

-- Everything a key can do to a session that has not ended.
inductive KeyEffect (e : Session) (key : Key) (e' : Session) : Prop
  | moves (hslot : e'.slot = e.slot) (hmemory : e'.memory = e.memory) (hending : e'.ending = none)
  | sets (a : Ambrc) (k : Fin AMBRC_MAX_KERNELS) (hkind : SameKind a e.ambrc)
      (hslot : e'.slot = e.slot)
      (hmemory : e'.memory = { e.memory.store a e.slot with activeKIdx := k, changesMade := true })
      (hending : e'.ending = none)
  | resets (hwait : e.wait = .reset) (hyes : key.yes) (hslot : e'.slot = e.slot)
      (hmemory : e'.memory =
        e.memory.store (ambrcResetTab e.ambrc e.memory.activeKIdx e.selected) e.slot)
      (hending : e'.ending = none)
  | saves (hwait : e.wait = .save) (hyes : key.yes) (hslot : e'.slot = e.slot)
      (hmemory : e'.memory = { e.memory.store e.ambrc.sign e.slot with
        written := e.ambrc.sign :: e.memory.written })
      (hending : e'.ending = some .saved)
  | declines (hwait : e.wait = .save) (hno : key.no) (hmemory : e'.memory = e.memory)
      (hending : e'.ending = some .declined)
  | leaves (hmade : e.memory.changesMade = false) (hmemory : e'.memory = e.memory)
      (hending : e'.ending = some .unprompted)

section Effect

variable {e : Session} (h : e.ending = none) (key : Key)

include h

theorem setData_effect (dir : Int) : KeyEffect e key (e.setData dir) := by
  unfold Session.setData
  split
  · exact .moves rfl rfl h
  · rename_i a k hset
    exact .sets a k (ambrcSetData_kind hset) rfl rfl h

theorem handleData_effect : KeyEffect e key (e.handleData key) := by
  unfold Session.handleData
  split
  · exact .moves rfl rfl h
  split
  · split <;> exact .moves rfl rfl h
  split
  · exact setData_effect h key 1
  split
  · exact setData_effect h key (-1)
  split <;> exact .moves rfl rfl h

theorem turn_effect : KeyEffect e key (e.turn key) := by
  unfold Session.turn
  split
  · split
    · exact .moves rfl rfl h
    · exact handleData_effect h key
  split
  · exact .moves rfl rfl h
  split
  · split <;> exact .moves rfl rfl h
  split
  · exact .moves rfl rfl h
  split
  · split
    · exact .moves rfl rfl h
    · rename_i hmade
      exact .leaves (by simpa using hmade) rfl rfl
  · exact .moves rfl rfl h

theorem answerReset_effect (hwait : e.wait = .reset) : KeyEffect e key (e.answerReset key) := by
  unfold Session.answerReset
  split
  · exact .resets hwait ‹_› rfl rfl h
  split <;> exact .moves rfl rfl h

theorem answerSave_effect (hwait : e.wait = .save) : KeyEffect e key (e.answerSave key) := by
  unfold Session.answerSave
  split
  · refine .saves hwait ‹_› rfl ?_ rfl
    rw [← store_written e.memory e.ambrc.sign e.slot]
  split
  · exact .declines hwait ‹_› rfl rfl
  split <;> exact .moves rfl rfl h

theorem key_effect : KeyEffect e key (e.key key) := by
  unfold Session.key
  rw [h, if_neg (by simp)]
  split
  · exact turn_effect h key
  · exact answerReset_effect h key ‹_›
  · exact answerSave_effect h key ‹_›

-- changes_made is never taken back.
theorem changesMade_key (hmade : e.memory.changesMade = true) :
    (e.key key).memory.changesMade = true := by
  cases key_effect h key with
  | moves _ hmemory | declines _ _ hmemory | leaves _ hmemory => rw [hmemory, hmade]
  | sets _ _ _ _ hmemory => rw [hmemory]
  | resets _ _ _ hmemory => rw [hmemory, store_changesMade, hmade]
  | saves _ _ _ hmemory =>
      rw [hmemory]
      exact (store_changesMade e.memory _ e.slot).trans hmade

end Effect

-- What holds while a session runs that was opened in `s`.
structure Session.Inv (s : Memory) (e : Session) : Prop where
  slot : e.slot = s.slot
  base : s.slot = .backup → e.memory.base = s.base
  kind : SameKind e.ambrc s.getAmbrc
  clean : e.memory.changesMade = false → e.ambrc = s.getAmbrc
  written : e.memory.written = s.written

namespace Session.Inv

variable {s : Memory} {e : Session}

theorem start (s : Memory) : (startAmbrc s).Inv s :=
  ⟨rfl, fun _ => rfl, ⟨rfl, rfl⟩, fun _ => rfl, rfl⟩

theorem key (h : e.Inv s) {key : Key} (hending : e.ending = none) (hnoted : e.ResetNoted key)
    (hrun : (e.key key).ending = none) : (e.key key).Inv s := by
  -- a new configuration in the place of the old one
  have hedit {e' : Session} (a : Ambrc) (hslot : e'.slot = e.slot)
      (hbase : e'.memory.base = (e.memory.store a e.slot).base)
      (hread : e'.memory.read e.slot = a) (hwritten : e'.memory.written = e.memory.written)
      (hkind : SameKind a e.ambrc) (hclean : e'.memory.changesMade = false → a = s.getAmbrc) :
      e'.Inv s := by
    have hambrc : e'.ambrc = a := by rw [Session.ambrc, hslot, hread]
    refine ⟨hslot.trans h.slot, fun hs => ?_, ?_, fun hmade => ?_, hwritten.trans h.written⟩
    · rw [hbase, store_base (h.slot.trans hs), h.base hs]
    · rw [hambrc]
      exact ⟨hkind.magic.trans h.kind.magic, hkind.version.trans h.kind.version⟩
    · rw [hambrc, hclean hmade]
  cases key_effect hending key with
  | moves hslot hmemory =>
      have hambrc : (e.key key).ambrc = e.ambrc := by rw [Session.ambrc, hmemory, hslot]; rfl
      refine ⟨hslot.trans h.slot, fun hs => ?_, hambrc ▸ h.kind, fun hmade => ?_, ?_⟩
      · rw [hmemory, h.base hs]
      · rw [hambrc, h.clean (hmemory ▸ hmade)]
      · rw [hmemory, h.written]
  | sets a k hkind hslot hmemory =>
      refine hedit a hslot ?_ ?_ ?_ hkind fun hmade => ?_
      · rw [hmemory]
      · rw [hmemory]
        exact read_store e.memory a e.slot
      · rw [hmemory]
        exact store_written e.memory a e.slot
      · rw [hmemory] at hmade
        cases hmade
  | resets hwait hyes hslot hmemory =>
      refine hedit _ hslot (by rw [hmemory]) (by rw [hmemory, read_store])
        (by rw [hmemory, store_written]) (ambrcResetTab_kind _ _ _) fun hmade => ?_
      rw [hmemory, store_changesMade] at hmade
      rcases hnoted hwait hyes with hnoted | hsame
      · rw [hnoted] at hmade
        cases hmade
      · exact hsame.trans (h.clean hmade)
  | saves _ _ _ _ hend | declines _ _ _ hend | leaves _ _ hend =>
      rw [hend] at hrun
      cases hrun

end Session.Inv

theorem feed_snoc (e : Session) (keys : List Key) (key : Key) :
    e.feed (keys ++ [key]) = (e.feed keys).key key := by
  rw [Session.feed, List.foldl_append]
  rfl

theorem running_before {e : Session} {key : Key} (h : (e.key key).ending = none) :
    e.ending = none := by
  by_contra hend
  rw [Session.key, if_pos (Option.isSome_iff_ne_none.mpr hend)] at h
  exact hend h

theorem feed_inv {s : Memory} {keys : List Key}
    (hnoted : ∀ pre key, pre ++ [key] <+: keys → ((startAmbrc s).feed pre).ResetNoted key)
    (hrun : ((startAmbrc s).feed keys).ending = none) : ((startAmbrc s).feed keys).Inv s := by
  induction keys using List.reverseRecOn with
  | nil => exact .start s
  | append_singleton keys key ih =>
      rw [feed_snoc] at hrun ⊢
      have hbefore := running_before hrun
      refine (ih (fun pre key' hpre => hnoted pre key' ?_) hbefore).key hbefore
        (hnoted keys key (List.prefix_refl _)) hrun
      exact hpre.trans (List.prefix_append _ _)

-- Without a change noted at the end there was none before.
theorem changesMade_feed {e : Session} {pre keys : List Key} (hpre : pre <+: keys)
    (hrun : (e.feed keys).ending = none) (hmade : (e.feed keys).memory.changesMade = false) :
    (e.feed pre).ending = none ∧ (e.feed pre).memory.changesMade = false := by
  induction keys using List.reverseRecOn with
  | nil =>
      rw [List.prefix_nil.mp hpre]
      exact ⟨hrun, hmade⟩
  | append_singleton keys key ih =>
      rcases List.prefix_concat_iff.mp hpre with rfl | hpre
      · exact ⟨hrun, hmade⟩
      · rw [feed_snoc] at hrun hmade
        have hbefore := running_before hrun
        refine ih hpre hbefore ?_
        by_contra hnoted
        rw [Bool.not_eq_false] at hnoted
        rw [changesMade_key hbefore key hnoted] at hmade
        cases hmade

-- get_ambrc after a session in whose place `a` stands.
theorem getAmbrc_of_read {s t : Memory} {a : Ambrc} (hbase : s.slot = .backup → t.base = s.base)
    (hread : t.read s.slot = a) (ha : a.accepted = true) : t.getAmbrc = a := by
  unfold Memory.getAmbrc
  cases hslot : s.slot with
  | base =>
      rw [hslot] at hread
      have hbaseOk : t.base = a := hread
      rw [Memory.slot, hbaseOk, ha, if_pos rfl]
      exact hread
  | backup =>
      have hnot : s.base.accepted = false := by
        unfold Memory.slot at hslot
        split at hslot
        · cases hslot
        · rename_i hnot
          exact eq_false_of_ne_true hnot
      rw [Memory.slot, hbase hslot, hnot, ← hread, hslot]
      rfl

theorem transaction_of_ok {s : Memory} {init : List Key} {last : Key}
    (haccepted : s.getAmbrc.accepted = true) (hrun : ((startAmbrc s).feed init).ending = none)
    (hend : (((startAmbrc s).feed init).key last).ending ≠ none)
    (hok : SessionOk s (.keys init last)) : Transaction s init last := by
  have hinv := feed_inv hok.1 hrun
  generalize he : (startAmbrc s).feed init = e at *
  have hsame (hmemory : (e.key last).memory = e.memory) (hclean : e.ambrc = s.getAmbrc) :
      (e.key last).memory.getAmbrc = s.getAmbrc := by
    rw [hmemory]
    refine getAmbrc_of_read hinv.base ?_ haccepted
    rw [← hinv.slot]
    exact hclean
  cases key_effect hrun last with
  | moves _ _ hnone | sets _ _ _ _ _ hnone | resets _ _ _ _ hnone => exact absurd hnone hend
  | saves hwait hyes hslot hmemory hsaved =>
      have hsigned : e.ambrc.sign.accepted = true := hinv.kind.sign haccepted
      refine ⟨fun _ => ⟨e.ambrc.sign, ?_, ?_, ?_, hsigned⟩, fun hne => ?_, fun _ => ?_⟩
      · rw [he, hmemory, ← hinv.written]
      · rw [he, hmemory]
        refine getAmbrc_of_read (s := s) (fun hs => ?_) ?_ hsigned
        · exact (store_base (hinv.slot.trans hs)).trans (hinv.base hs)
        · rw [← hinv.slot]
          exact read_store e.memory _ e.slot
      · rw [he]
        rfl
      · rw [he] at hne
        exact absurd hsaved hne
      · rw [he, hsaved]
        nofun
  | declines hwait hno hmemory hdeclined =>
      refine ⟨fun hsaved => ?_, fun _ => ?_, fun _ => ?_⟩
      · rw [he, hdeclined] at hsaved
        cases hsaved
      · rw [he]
        exact hsame hmemory (he ▸ hok.2 (he ▸ hwait) hno)
      · rw [he, hdeclined]
        nofun
  | leaves hmade hmemory hleft =>
      refine ⟨fun hsaved => ?_, fun _ => ?_, ?_⟩
      · rw [he, hleft] at hsaved
        cases hsaved
      · rw [he]
        exact hsame hmemory (hinv.clean hmade)
      · rintro ⟨pre, hpre, hchanged⟩
        obtain ⟨hrunning, hclean⟩ := changesMade_feed hpre (he ▸ hrun) (he ▸ hmade)
        refine absurd ((feed_inv (fun pre' key hpre' => hok.1 pre' key (hpre'.trans hpre))
          hrunning).clean hclean) hchanged

-- After a transaction get_ambrc returns a configuration that it accepts.
theorem accepted_after {s t : Memory} {call : SessionCall}
    (haccepted : s.getAmbrc.accepted = true) (hstep : SessionStep s call t)
    (h : Transactional s call) : t.getAmbrc.accepted = true := by
  cases call with
  | refused => exact hstep ▸ haccepted
  | keys init last =>
      obtain ⟨-, -, rfl⟩ := hstep
      by_cases hsaved : (((startAmbrc s).feed init).key last).ending = some .saved
      · obtain ⟨w, -, hget, -, hw⟩ := h.saved hsaved
        rw [hget, hw]
      · rw [h.unsaved hsaved, haccepted]

theorem transactional_of_ok {s t : Memory} {call : SessionCall}
    (haccepted : s.getAmbrc.accepted = true) (hstep : SessionStep s call t)
    (hok : SessionOk s call) : Transactional s call := by
  cases call with
  | refused => trivial
  | keys init last => exact transaction_of_ok haccepted hstep.1 hstep.2.1 hok

-- In every run of sessions from a configuration that get_ambrc accepts, all
-- sessions are transactions as long as every reset is noted and nothing is
-- left to take back where the save is declined.
theorem sessions_transactional {s t : Memory} {past : List (Memory × SessionCall)}
    (haccepted : s.getAmbrc.accepted = true) (hrun : Trace SessionStep s past t)
    (hok : Trace.Admits SessionOk past) : ∀ x ∈ past, Transactional x.1 x.2 := by
  induction hrun with
  | nil => nofun
  | snoc hpast hstep ih =>
      obtain ⟨hok, hlast⟩ := Trace.admits_snoc.mp hok
      have hstays (u : Memory) (call : SessionCall) (v : Memory) (hu : u.getAmbrc.accepted = true)
          (hcall : SessionOk u call) (huv : SessionStep u call v) : v.getAmbrc.accepted = true :=
        accepted_after hu huv (transactional_of_ok hu huv hcall)
      have hbefore := hpast.invariant_of_admits (I := fun u : Memory => u.getAmbrc.accepted = true)
        haccepted hstays hok
      intro x hx
      rcases List.mem_append.mp hx with hx | hx
      · exact ih hok x hx
      · rw [List.mem_singleton.mp hx]
        exact transactional_of_ok hbefore hstep hlast

-- A configuration with a timeout in its place, and the default one behind it.
def savedMemory : Memory where
  base := Ambrc.sign { defAmbrc with bootInfo := { defAmbrc.bootInfo with timeout := 5 } }
  backup := defAmbrc.sign
  activeKIdx := ⟨0, by decide⟩
  changesMade := false
  written := []

theorem savedMemory_accepted : savedMemory.getAmbrc.accepted = true := by decide +kernel

-- The background colour is changed, and the tabs are left.
def changeColor : List Key := [.enter, .right, .esc, .esc]

theorem changeColor_wait (m : Memory) {n : Nat} (hn : n < changeColor.length) :
    ((startAmbrc m).feed (changeColor.take n)).wait = .loop := by
  match n, hn with
  | 0, _ => rfl
  | 1, _ => rfl
  | 2, _ => rfl
  | 3, _ => rfl

theorem changeColor_noted (m : Memory) {pre : List Key} {key : Key}
    (hpre : pre ++ [key] <+: changeColor) : ((startAmbrc m).feed pre).ResetNoted key := by
  have hlen := hpre.length_le
  rw [List.length_append, List.length_singleton] at hlen
  have htake := List.prefix_iff_eq_take.mp ((List.prefix_append pre [key]).trans hpre)
  intro hwait
  rw [htake, changeColor_wait m (by omega)] at hwait
  cases hwait

theorem changeColor_asks (m : Memory) :
    ((startAmbrc m).feed changeColor).wait = .save ∧
      ((startAmbrc m).feed changeColor).ending = none := ⟨rfl, rfl⟩

theorem changeColor_step (m : Memory) {last : Key} (h : last.yes ∨ last.no) :
    SessionStep m (.keys changeColor last)
      (((startAmbrc m).feed changeColor).key last).memory := by
  obtain ⟨hwait, hending⟩ := changeColor_asks m
  refine ⟨hending, ?_, rfl⟩
  rw [Session.key, hending, hwait, if_neg (by simp)]
  dsimp only
  unfold Session.answerSave
  split
  · nofun
  · rw [if_pos (h.resolve_left ‹_›)]
    nofun

theorem sessions_transactional_save :
    Transactional savedMemory (.keys changeColor 0x79) := by
  have hok : SessionOk savedMemory (.keys changeColor 0x79) :=
    ⟨fun _ _ hpre => changeColor_noted savedMemory hpre, fun _ hno => absurd hno (by decide)⟩
  have hall := sessions_transactional savedMemory_accepted
    (Trace.snoc .nil (changeColor_step savedMemory (.inl (.inl rfl))))
    (List.forall_mem_singleton.mpr hok)
  exact hall (savedMemory, .keys changeColor 0x79) (List.mem_singleton.mpr rfl)

theorem changeColor_declined {m : Memory} (h : m.slot = .base) :
    (((startAmbrc m).feed changeColor).key 0x6E).ending ≠ some .saved ∧
      (((startAmbrc m).feed changeColor).key 0x6E).memory = { m with
        base := { m.base with display := setDisplay m.base.display 0 1 }
        changesMade := true } := by
  rw [startAmbrc, h]
  exact ⟨nofun, rfl⟩

-- The same without saving: get_ambrc returns the other configuration.
theorem declined_not_restored :
    savedMemory.getAmbrc.accepted = true ∧
      (∃ t, SessionStep savedMemory (.keys changeColor 0x6E) t) ∧
      ¬ Transactional savedMemory (.keys changeColor 0x6E) := by
  refine ⟨savedMemory_accepted, ⟨_, changeColor_step _ (.inr (.inl rfl))⟩, fun h => ?_⟩
  obtain ⟨hunsaved, hmemory⟩ := changeColor_declined
    (show savedMemory.slot = .base by decide +kernel)
  have hsame := h.unsaved hunsaved
  rw [hmemory] at hsame
  revert hsame
  decide +kernel

end AosKernel.Settings
