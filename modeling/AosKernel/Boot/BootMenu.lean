import Mathlib.Algebra.Group.Int.Defs
import Mathlib.Data.Int.Basic
import AosKernel.Lib.Trace

namespace AosKernel.Boot

open Verif

def AMBRC_MAX_KERNELS : Nat := 12

-- What the menu and the selection behind it use of the configuration.
structure Ambrc where
  showSettingsAtTop : Bool
  defaultOsIdx : Nat
  safeOsIdx : Nat
  panicOsIdx : Nat
  timeout : Nat

-- current_mode: 0, 1 and 2.
inductive BootMode
  | normal
  | recovery
  | panic

-- The kernels on the disk and the rows of the screen.
structure BootEnv where
  entryCount : Nat
  uefiHeight : Nat
  few : entryCount ≤ 20

inductive MenuStatus
  | running
  | boots
  | resets
  deriving DecidableEq

-- What the menu loop keeps. `drawn` is where os_entries was read in the last turn.
structure Menu where
  ambrc : Ambrc
  currentMode : BootMode
  popupFinished : Bool
  selected : Int
  oldSelected : Int
  scrollOffset : Int
  ambrcEntry : Int
  forceRedraw : Bool
  timedOut : Bool
  status : MenuStatus
  drawn : List Int

-- The answer of the popup, after keys that are none.
inductive PopupAnswer
  | yes
  | no
  | cancel

-- What one turn of the loop meets: whether the clock has run out, the answer to the popup,
-- the key, and the configuration that the settings leave.
structure TurnInput where
  elapsed : Bool
  popup : PopupAnswer
  key : Nat
  settings : Ambrc

-- An int where a uint64_t is compared with it.
def toUint64 (x : Int) : Nat := (x % 2 ^ 64).toNat

section Menu

variable (env : BootEnv)

def uefiSettingsEntry : Int := env.entryCount + 1

def totalItems : Nat := env.entryCount + 2

def VIEWPORT_HEIGHT : Int := Int.bmod ((env.uefiHeight : Int) - 6) (2 ^ 32)

def settingsEntry (ambrc : Ambrc) : Int := if ambrc.showSettingsAtTop then 0 else env.entryCount

def Menu.start (ambrc : Ambrc) (currentMode : BootMode) : Menu where
  ambrc := ambrc
  currentMode := currentMode
  popupFinished := false
  selected := 0
  oldSelected := -1
  scrollOffset := 0
  ambrcEntry := settingsEntry env ambrc
  forceRedraw := true
  timedOut := false
  status := .running
  drawn := []

namespace Menu

variable (s : Menu)

-- The kernel of an item, where it is no entry for settings.
def kernelOf (item : Int) : Option Int :=
  if item = s.ambrcEntry then none
  else if item = uefiSettingsEntry env then none
  else some (if s.ambrcEntry = 0 then item - 1 else item)

def redraw : Menu :=
  { s with
    drawn := (List.range (VIEWPORT_HEIGHT env).toNat).filterMap fun (i : Nat) =>
      if toUint64 (s.scrollOffset + (i : Int)) < totalItems env then
        s.kernelOf env (s.scrollOffset + (i : Int))
      else none
    forceRedraw := false
    oldSelected := s.selected }

def redrawChanged : Menu :=
  { s with
    drawn := [s.oldSelected, s.selected].filterMap fun target =>
      if target < s.scrollOffset ∨ target ≥ s.scrollOffset + VIEWPORT_HEIGHT env then none
      else s.kernelOf env target
    oldSelected := s.selected }

def draw : Menu :=
  if s.forceRedraw then s.redraw env
  else if s.selected ≠ s.oldSelected then s.redrawChanged env
  else { s with drawn := [] }

def up : Menu :=
  if s.selected > 0 then
    if s.selected - 1 < s.scrollOffset then
      { s with
        selected := s.selected - 1, scrollOffset := s.scrollOffset - 1, forceRedraw := true }
    else { s with selected := s.selected - 1 }
  else s

def down : Menu :=
  if toUint64 s.selected < totalItems env - 1 then
    if s.selected + 1 ≥ s.scrollOffset + VIEWPORT_HEIGHT env then
      { s with
        selected := s.selected + 1, scrollOffset := s.scrollOffset + 1, forceRedraw := true }
    else { s with selected := s.selected + 1 }
  else s

def enter (settings : Ambrc) : Menu :=
  if s.selected = s.ambrcEntry then
    { s with ambrc := settings, ambrcEntry := settingsEntry env settings, forceRedraw := true }
  else if s.selected = uefiSettingsEntry env then { s with status := .resets }
  else { s with status := .boots }

def press (key : Nat) (settings : Ambrc) : Menu :=
  match key with
  | 0x01 => s.up
  | 0x02 => s.down env
  | 0x53 => { s with forceRedraw := true }
  | 0x0D => s.enter env settings
  | _ => s

-- The popup of mode 1, which is shown once.
def popup (answer : PopupAnswer) : Menu :=
  match s.currentMode, s.popupFinished with
  | .recovery, false =>
      { s with
        currentMode :=
          match answer with
          | .yes => .panic
          | .no => .normal
          | .cancel => .recovery
        popupFinished := true
        forceRedraw := true }
  | _, _ => s

-- Some system is configured to be booted when the time is over, and it is.
def timesOut (elapsed : Bool) : Bool :=
  (decide (s.ambrc.defaultOsIdx > 0) || decide (s.ambrc.panicOsIdx > 0) ||
    decide (s.ambrc.safeOsIdx > 0)) && s.ambrc.timeout != 0 && elapsed

def turn (i : TurnInput) : Menu :=
  if s.timesOut i.elapsed then { s with timedOut := true, status := .boots, drawn := [] }
  else ((s.popup i.popup).draw env).press env i.key i.settings

-- The number of the system to boot in a mode, from 1 on, with 0 for none.
def osIdx : Nat :=
  match s.currentMode with
  | .normal => s.ambrc.defaultOsIdx
  | .recovery => s.ambrc.safeOsIdx
  | .panic => s.ambrc.panicOsIdx

def finalKernelIdx : Int :=
  if s.timedOut then (s.osIdx : Int) - 1
  else if s.ambrcEntry = 0 then s.selected - 1
  else s.selected

end Menu

-- A turn of the loop while it runs.
def MenuStep (s : Menu) (i : TurnInput) (t : Menu) : Prop :=
  s.status = .running ∧ t = s.turn env i

-- The selection is in sight, what is drawn is there, and so is what is booted.
structure InRange (s : Menu) : Prop where
  visible : s.scrollOffset ≤ s.selected ∧ s.selected < s.scrollOffset + VIEWPORT_HEIGHT env
  item : 0 ≤ s.selected ∧ s.selected < totalItems env
  drawn : ∀ k ∈ s.drawn, 0 ≤ k ∧ k < env.entryCount
  boots : s.status = .boots →
    0 ≤ s.finalKernelIdx ∧ s.finalKernelIdx < env.entryCount ∧
      s.finalKernelIdx < AMBRC_MAX_KERNELS

-- When the time is over the mode has a system, one of those on the disk that are
-- configured, and the enter key meets no other kernel.
def TurnInRange (s : Menu) (i : TurnInput) : Prop :=
  (s.timesOut i.elapsed = true →
    1 ≤ s.osIdx ∧ s.osIdx ≤ env.entryCount ∧ s.osIdx ≤ AMBRC_MAX_KERNELS) ∧
  (s.timesOut i.elapsed = false → i.key = 0x0D →
    ∀ k, s.kernelOf env s.selected = some k → k < AMBRC_MAX_KERNELS)

-- What every turn keeps.
structure MenuInv (s : Menu) : Prop where
  scroll : 0 ≤ s.scrollOffset
  visible : s.scrollOffset ≤ s.selected ∧ s.selected < s.scrollOffset + VIEWPORT_HEIGHT env
  item : s.selected < totalItems env
  entry : s.ambrcEntry = settingsEntry env s.ambrc
  old : s.forceRedraw = true ∨ 0 ≤ s.oldSelected ∧ s.oldSelected < totalItems env
  timedOut : s.status = .running → s.timedOut = false

end Menu

section Turns

variable {env : BootEnv} {s t : Menu} {i : TurnInput}

theorem toUint64_eq {x : Int} (h0 : 0 ≤ x) (hlt : x < 2 ^ 64) : (toUint64 x : Int) = x := by
  unfold toUint64
  omega

theorem totalItems_small (env : BootEnv) : totalItems env ≤ 22 :=
  Nat.add_le_add_right env.few 2

-- An item that is no entry for settings is a kernel of the disk.
theorem kernelOf_range (hentry : s.ambrcEntry = settingsEntry env s.ambrc) {item k : Int}
    (h0 : 0 ≤ item) (hlt : item < totalItems env) (hk : s.kernelOf env item = some k) :
    0 ≤ k ∧ k < env.entryCount := by
  unfold Menu.kernelOf uefiSettingsEntry at hk
  unfold settingsEntry at hentry
  unfold totalItems at hlt
  by_cases hsettings : item = s.ambrcEntry
  · rw [if_pos hsettings] at hk
    cases hk
  by_cases huefi : item = (env.entryCount : Int) + 1
  · rw [if_neg hsettings, if_pos huefi] at hk
    cases hk
  rw [if_neg hsettings, if_neg huefi, Option.some.injEq] at hk
  rw [hentry] at hk hsettings
  -- with the settings at the top the kernels begin at item 1
  cases htop : s.ambrc.showSettingsAtTop with
  | true =>
      simp only [htop, if_true] at hk hsettings
      omega
  | false =>
      simp only [htop, Bool.false_eq_true, if_false] at hk hsettings
      by_cases hnone : (env.entryCount : Int) = 0
      · rw [if_pos hnone] at hk
        omega
      · rw [if_neg hnone] at hk
        omega

theorem popup_keeps (s : Menu) (answer : PopupAnswer) :
    (s.popup answer).selected = s.selected ∧ (s.popup answer).ambrcEntry = s.ambrcEntry ∧
      (s.popup answer).ambrc = s.ambrc ∧ (s.popup answer).timedOut = s.timedOut ∧
      (s.popup answer).status = s.status := by
  unfold Menu.popup
  split <;> exact ⟨rfl, rfl, rfl, rfl, rfl⟩

theorem popup_inv (h : MenuInv env s) (answer : PopupAnswer) : MenuInv env (s.popup answer) := by
  unfold Menu.popup
  split
  · exact ⟨h.scroll, h.visible, h.item, h.entry, .inl rfl, h.timedOut⟩
  · exact h

theorem draw_keeps (env : BootEnv) (s : Menu) :
    (s.draw env).selected = s.selected ∧ (s.draw env).ambrcEntry = s.ambrcEntry ∧
      (s.draw env).ambrc = s.ambrc ∧ (s.draw env).timedOut = s.timedOut ∧
      (s.draw env).status = s.status := by
  unfold Menu.draw
  split
  · exact ⟨rfl, rfl, rfl, rfl, rfl⟩
  split <;> exact ⟨rfl, rfl, rfl, rfl, rfl⟩

theorem MenuInv.selected_nonneg (h : MenuInv env s) : 0 ≤ s.selected :=
  Int.le_trans h.scroll h.visible.1

theorem draw_inv (h : MenuInv env s) : MenuInv env (s.draw env) := by
  unfold Menu.draw
  split
  · exact ⟨h.scroll, h.visible, h.item, h.entry, .inr ⟨h.selected_nonneg, h.item⟩, h.timedOut⟩
  split
  · exact ⟨h.scroll, h.visible, h.item, h.entry, .inr ⟨h.selected_nonneg, h.item⟩, h.timedOut⟩
  · exact ⟨h.scroll, h.visible, h.item, h.entry, h.old, h.timedOut⟩

-- os_entries is read inside while the menu is drawn.
theorem draw_range (h : MenuInv env s) :
    ∀ k ∈ (s.draw env).drawn, 0 ≤ k ∧ k < env.entryCount := by
  have hsmall := totalItems_small env
  unfold Menu.draw
  split
  · intro k hk
    obtain ⟨j, hj, hat⟩ := List.mem_filterMap.mp hk
    split at hat
    · rename_i hlt
      have hscroll := h.scroll
      have hview : VIEWPORT_HEIGHT env < (((2 ^ 32 : Nat) : Int) + 1) / 2 := Int.bmod_lt (by decide)
      have hvisible := h.visible
      have hitem := h.item
      have hj' := List.mem_range.mp hj
      rw [← Int.ofNat_lt, toUint64_eq (by omega) (by omega)] at hlt
      exact kernelOf_range h.entry (by omega) hlt hat
    · cases hat
  rename_i hforce
  split
  · intro k hk
    obtain ⟨target, htarget, hat⟩ := List.mem_filterMap.mp hk
    split at hat
    · cases hat
    · obtain hold := h.old.resolve_left hforce
      obtain rfl | hsel := List.mem_cons.mp htarget
      · exact kernelOf_range h.entry hold.1 hold.2 hat
      · rw [List.mem_singleton.mp hsel] at hat
        exact kernelOf_range h.entry h.selected_nonneg h.item hat
  · exact List.forall_mem_nil _

theorem up_inv (h : MenuInv env s) : MenuInv env s.up := by
  have hscroll := h.scroll
  have hvisible := h.visible
  have hitem := h.item
  unfold Menu.up
  split
  · split
    · exact ⟨by dsimp only; omega, by dsimp only; omega, by dsimp only; omega, h.entry, .inl rfl,
        h.timedOut⟩
    · exact ⟨hscroll, by dsimp only; omega, by dsimp only; omega, h.entry, h.old, h.timedOut⟩
  · exact h

theorem down_inv (h : MenuInv env s) : MenuInv env (s.down env) := by
  have hscroll := h.scroll
  have hvisible := h.visible
  have hitem := h.item
  have hsmall := totalItems_small env
  unfold Menu.down
  split
  · rename_i hmore
    rw [← Int.ofNat_lt, toUint64_eq h.selected_nonneg (by omega)] at hmore
    split
    · exact ⟨by dsimp only; omega, by dsimp only; omega, by dsimp only; omega, h.entry, .inl rfl,
        h.timedOut⟩
    · exact ⟨hscroll, by dsimp only; omega, by dsimp only; omega, h.entry, h.old, h.timedOut⟩
  · exact h

-- Where the enter key leads.
theorem enter_cases (env : BootEnv) (s : Menu) (settings : Ambrc) :
    (s.kernelOf env s.selected = none ∧ (s.enter env settings).status ≠ .boots ∨
        s.status = .boots) ∨
      ∃ k, s.kernelOf env s.selected = some k ∧
        s.enter env settings = { s with status := .boots } ∧
        (s.timedOut = false → (s.enter env settings).finalKernelIdx = k) := by
  unfold Menu.enter Menu.kernelOf
  by_cases hstatus : s.status = .boots
  · exact .inl (.inr hstatus)
  by_cases hsettings : s.selected = s.ambrcEntry
  · rw [if_pos hsettings, if_pos hsettings]
    exact .inl (.inl ⟨rfl, hstatus⟩)
  by_cases huefi : s.selected = uefiSettingsEntry env
  · rw [if_neg hsettings, if_pos huefi, if_neg hsettings, if_pos huefi]
    exact .inl (.inl ⟨rfl, by simp⟩)
  · rw [if_neg hsettings, if_neg huefi, if_neg hsettings, if_neg huefi]
    refine .inr ⟨_, rfl, rfl, fun htimedOut => ?_⟩
    simp [Menu.finalKernelIdx, htimedOut]

theorem enter_inv (h : MenuInv env s) (settings : Ambrc) : MenuInv env (s.enter env settings) := by
  unfold Menu.enter
  split
  · exact ⟨h.scroll, h.visible, h.item, rfl, .inl rfl, h.timedOut⟩
  split
  · exact ⟨h.scroll, h.visible, h.item, h.entry, h.old, fun hno => nomatch hno⟩
  · exact ⟨h.scroll, h.visible, h.item, h.entry, h.old, fun hno => nomatch hno⟩

theorem press_inv (h : MenuInv env s) (key : Nat) (settings : Ambrc) :
    MenuInv env (s.press env key settings) := by
  unfold Menu.press
  split
  · exact up_inv h
  · exact down_inv h
  · exact ⟨h.scroll, h.visible, h.item, h.entry, .inl rfl, h.timedOut⟩
  · exact enter_inv h settings
  · exact h

theorem press_drawn (s : Menu) (key : Nat) (settings : Ambrc) :
    (s.press env key settings).drawn = s.drawn := by
  unfold Menu.press Menu.up Menu.down Menu.enter
  repeat' split
  all_goals rfl

-- Only the enter key ends the loop.
theorem press_status (s : Menu) {key : Nat} (hkey : key ≠ 0x0D) (settings : Ambrc) :
    (s.press env key settings).status = s.status := by
  unfold Menu.press Menu.up Menu.down
  split
  · split
    · split <;> rfl
    · rfl
  · split
    · split <;> rfl
    · rfl
  · rfl
  · exact absurd rfl hkey
  · rfl

theorem MenuInv.inRange (h : MenuInv env s) (hdrawn : ∀ k ∈ s.drawn, 0 ≤ k ∧ k < env.entryCount)
    (hboots : s.status = .boots → 0 ≤ s.finalKernelIdx ∧ s.finalKernelIdx < env.entryCount ∧
      s.finalKernelIdx < AMBRC_MAX_KERNELS) : InRange env s :=
  ⟨h.visible, ⟨h.selected_nonneg, h.item⟩, hdrawn, hboots⟩

-- The menu as the key finds it.
def Menu.shown (env : BootEnv) (s : Menu) (answer : PopupAnswer) : Menu := (s.popup answer).draw env

theorem shown_inv (h : MenuInv env s) (answer : PopupAnswer) : MenuInv env (s.shown env answer) :=
  draw_inv (popup_inv h answer)

theorem shown_kernelOf (s : Menu) (answer : PopupAnswer) :
    (s.shown env answer).kernelOf env (s.shown env answer).selected =
      s.kernelOf env s.selected := by
  obtain ⟨hsel, hentry, -, -, -⟩ := popup_keeps s answer
  obtain ⟨hsel', hentry', -, -, -⟩ := draw_keeps env (s.popup answer)
  unfold Menu.shown Menu.kernelOf
  rw [hsel', hsel, hentry', hentry]

theorem shown_status (env : BootEnv) (s : Menu) (answer : PopupAnswer) :
    (s.shown env answer).status = s.status ∧ (s.shown env answer).timedOut = s.timedOut := by
  obtain ⟨-, -, -, htime, hstatus⟩ := popup_keeps s answer
  obtain ⟨-, -, -, htime', hstatus'⟩ := draw_keeps env (s.popup answer)
  exact ⟨hstatus'.trans hstatus, htime'.trans htime⟩

theorem turn_timesOut (hout : s.timesOut i.elapsed = true) :
    s.turn env i = { s with timedOut := true, status := .boots, drawn := [] } := if_pos hout

theorem turn_shown (hout : ¬ s.timesOut i.elapsed = true) :
    s.turn env i = (s.shown env i.popup).press env i.key i.settings := if_neg hout

theorem turn_inv (h : MenuInv env s) (hs : MenuStep env s i t) : MenuInv env t := by
  obtain ⟨hrunning, rfl⟩ := hs
  by_cases hout : s.timesOut i.elapsed = true
  · rw [turn_timesOut hout]
    exact ⟨h.scroll, h.visible, h.item, h.entry, h.old, fun hno => nomatch hno⟩
  · rw [turn_shown hout]
    exact press_inv (shown_inv h i.popup) i.key i.settings

-- A turn stays in range exactly if it is one of those.
theorem turn_inRange_iff (h : MenuInv env s) (hs : MenuStep env s i t) :
    InRange env t ↔ TurnInRange env s i := by
  have hinv := turn_inv h hs
  obtain ⟨hrunning, rfl⟩ := hs
  by_cases hout : s.timesOut i.elapsed = true
  · rw [turn_timesOut hout] at hinv ⊢
    have hfinal : Menu.finalKernelIdx { s with timedOut := true, status := .boots, drawn := [] } =
        (s.osIdx : Int) - 1 := rfl
    constructor
    · intro hrange
      have hboots := hrange.boots rfl
      rw [hfinal] at hboots
      refine ⟨fun _ => by omega, fun hno => ?_⟩
      rw [hout] at hno
      cases hno
    · rintro ⟨hok, -⟩
      have hidx := hok hout
      refine hinv.inRange (List.forall_mem_nil _) fun _ => ?_
      rw [hfinal]
      omega
  · rw [turn_shown hout] at hinv ⊢
    obtain ⟨hstatus, htime⟩ := shown_status env s i.popup
    rw [hrunning] at hstatus
    rw [h.timedOut hrunning] at htime
    have hdrawn : ∀ k ∈ ((s.shown env i.popup).press env i.key i.settings).drawn,
        0 ≤ k ∧ k < env.entryCount := by
      rw [press_drawn]
      exact draw_range (popup_inv h i.popup)
    have hnotBoots : ((s.shown env i.popup).press env i.key i.settings).status ≠ .boots →
        InRange env ((s.shown env i.popup).press env i.key i.settings) := fun hno =>
      hinv.inRange hdrawn fun hyes => absurd hyes hno
    by_cases hkey : i.key = 0x0D
    · have hpress : (s.shown env i.popup).press env i.key i.settings =
          (s.shown env i.popup).enter env i.settings := by
        rw [hkey]
        rfl
      obtain (⟨hnone, hno⟩ | hboots) | ⟨k, hk, hrun, hfinal⟩ :=
        enter_cases env (s.shown env i.popup) i.settings
      · rw [shown_kernelOf] at hnone
        refine ⟨fun _ => ⟨fun hyes => absurd hyes hout, fun _ _ k hk => ?_⟩,
          fun _ => hnotBoots (hpress ▸ hno)⟩
        rw [hnone] at hk
        cases hk
      · rw [hstatus] at hboots
        cases hboots
      · have hat := hfinal htime
        have hin := kernelOf_range (shown_inv h i.popup).entry
          (shown_inv h i.popup).selected_nonneg (shown_inv h i.popup).item hk
        rw [shown_kernelOf] at hk
        rw [hpress] at hinv hdrawn ⊢
        constructor
        · intro hrange
          have hboots := hrange.boots (by rw [hrun])
          rw [hat] at hboots
          refine ⟨fun hyes => absurd hyes hout, fun _ _ k' hk' => ?_⟩
          rw [hk, Option.some.injEq] at hk'
          exact hk' ▸ hboots.2.2
        · rintro ⟨-, hok⟩
          refine hinv.inRange hdrawn fun _ => ?_
          rw [hat]
          exact ⟨hin.1, hin.2, hok (Bool.eq_false_iff.mpr hout) hkey k hk⟩
    · refine ⟨fun _ => ⟨fun hyes => absurd hyes hout, fun _ hyes => absurd hyes hkey⟩,
        fun _ => hnotBoots ?_⟩
      rw [press_status _ hkey, hstatus]
      simp

theorem start_inv (hview : 1 ≤ VIEWPORT_HEIGHT env) (ambrc : Ambrc) (mode : BootMode) :
    MenuInv env (Menu.start env ambrc mode) := by
  refine ⟨Int.le_refl _, ⟨Int.le_refl _, ?_⟩, ?_, rfl, .inl rfl, fun _ => rfl⟩
  · simp only [Menu.start]
    omega
  · simp only [Menu.start, totalItems]
    omega

end Turns

-- Exactly then the menu and what is booted stay in range: the screen has room for an item,
-- and each turn is in range.
theorem bootMenu_inRange_iff {env : BootEnv} {ambrc : Ambrc} {mode : BootMode}
    {past : List (Menu × TurnInput)} {s : Menu}
    (h : Trace (MenuStep env) (Menu.start env ambrc mode) past s) :
    Trace.Always (InRange env) past s ↔
      1 ≤ VIEWPORT_HEIGHT env ∧ Trace.Admits (TurnInRange env) past := by
  by_cases hview : 1 ≤ VIEWPORT_HEIGHT env
  · rw [and_iff_right hview]
    have hstart : InRange env (Menu.start env ambrc mode) :=
      (start_inv hview ambrc mode).inRange (List.forall_mem_nil _) fun hno => nomatch hno
    exact Trace.always_iff_admits (start_inv hview ambrc mode) hstart
      (fun _ _ _ hI _ hs _ => turn_inv hI hs) (fun _ _ _ hI _ hs => turn_inRange_iff hI hs) h
  · refine ⟨fun hall => absurd ?_ hview, fun hno => absurd hno.1 hview⟩
    have hvisible := (h.start_of_always hall).visible.2
    simp only [Menu.start] at hvisible
    omega

-- A kernel of the first row, chosen with the enter key.
theorem bootMenu_inRange_iff_first :
    let env : BootEnv := ⟨1, 25, by decide⟩
    let start := Menu.start env ⟨false, 0, 0, 0, 0⟩ .normal
    let key : TurnInput := ⟨false, .no, 0x0D, ⟨false, 0, 0, 0, 0⟩⟩
    Trace.Always (InRange env) [(start, key)] (start.turn env key) ↔
      1 ≤ VIEWPORT_HEIGHT env ∧ Trace.Admits (TurnInRange env) [(start, key)] :=
  bootMenu_inRange_iff (Trace.nil.snoc ⟨rfl, rfl⟩)

-- One kernel is on the disk, only a system for panics is configured, and the time is over.
theorem bootMenu_outOfRange :
    let env : BootEnv := ⟨1, 25, by decide⟩
    let start := Menu.start env ⟨false, 0, 0, 1, 5⟩ .normal
    let wait : TurnInput := ⟨true, .no, 0, ⟨false, 0, 0, 1, 5⟩⟩
    Trace (MenuStep env) start [(start, wait)] (start.turn env wait) ∧
      ¬ Trace.Always (InRange env) [(start, wait)] (start.turn env wait) := by
  refine ⟨Trace.nil.snoc ⟨rfl, rfl⟩, fun hall => ?_⟩
  exact absurd (hall.2.boots rfl).1 (by decide)

end AosKernel.Boot
