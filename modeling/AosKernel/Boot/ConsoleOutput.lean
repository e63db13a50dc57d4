import AosKernel.Boot.Console
import AosKernel.Lib.Trace

namespace AosKernel.Boot

open Verif

-- What is written without a buffer: every character at the place and with the
-- attribute of its design.
def Screen.write (screen : Screen) (design : VMemDesign) (c : Char16) : Screen :=
  screen.put design.x design.y ⟨c, design.attr⟩

def Screen.writeString (screen : Screen) : VMemDesign → List Char8 → Screen
  | _, [] => screen
  | design, c :: str =>
      if c = 0 then screen
      else if c = 0x0A then screen.writeString design.newline str
      else (screen.write design c.wide).writeString design.next str

def ConsoleCall.direct (screen : Screen) : ConsoleCall → Screen
  | .printc design c => if c = 0x0A then screen else screen.write design c.wide
  | .printwc design _ c => if c = 0x0A then screen else screen.write design c
  | .print design str => screen.writeString design str
  | .clearScreen design => .blank design.attr
  | .flush => screen

-- The characters that ConOut acts on and does not show.
def control (c : Char16) : Prop := c = 0 ∨ c = 0x08 ∨ c = 0x0A ∨ c = 0x0D

instance (c : Char16) : Decidable (control c) := by
  unfold control
  infer_instance

-- What is to go to a place the cached cursor names goes there, and the same
-- for the attribute.
structure Console.Current (s : Console) (x y attr : Nat) : Prop where
  cursor : s.lastX = x → s.lastY = y → s.device.x = x ∧ s.device.y = y
  attr : s.lastAttr = attr → s.device.attr = attr

def Console.FlushCurrent (s : Console) : Prop := ∀ b ∈ s.buf.head?, s.Current b.x b.y b.attr

-- The calls that do not miss their place.
def Console.Admits (s : Console) : ConsoleCall → Prop
  | .printc _ c => c ≠ 0x0A → s.initialized = true ∧ ¬ control c.wide ∧
      (64 ≤ s.buf.length → s.FlushCurrent)
  | .printwc _ addr c => s.initialized = true ∧ addr ≠ 0x0A ∧ ¬ control c ∧
      (64 ≤ s.buf.length → s.FlushCurrent)
  | .print design str => s.initialized = true ∧ (∀ c ∈ str, c = 0x0A ∨ ¬ control c.wide) ∧
      s.FlushCurrent ∧ (s.buf = [] → str ≠ [] → s.Current design.x design.y design.attr)
  | .clearScreen design => s.buf = [] ∧ (s.lastAttr = design.attr → s.device.attr = design.attr)
  | .flush => s.buf ≠ [] → s.initialized = true ∧ s.FlushCurrent

instance (s : Console) (x y attr : Nat) : Decidable (s.Current x y attr) :=
  decidable_of_iff ((s.lastX = x → s.lastY = y → s.device.x = x ∧ s.device.y = y) ∧
    (s.lastAttr = attr → s.device.attr = attr)) ⟨fun h => ⟨h.1, h.2⟩, fun h => ⟨h.1, h.2⟩⟩

instance (s : Console) : Decidable s.FlushCurrent := by
  unfold Console.FlushCurrent
  infer_instance

instance (s : Console) (call : ConsoleCall) : Decidable (s.Admits call) := by
  cases call <;> unfold Console.Admits <;> infer_instance

def Screen.writeBuf (screen : Screen) (buf : List BufChar) : Screen :=
  buf.foldl (fun screen b => screen.put b.x b.y ⟨b.c, b.attr⟩) screen

-- What the screen is once the buffer has been written.
def Console.shown (s : Console) : Screen := s.device.screen.writeBuf s.buf

def Plain (buf : List BufChar) : Prop := ∀ b ∈ buf, ¬ control b.c

-- The cached cursor and attribute are those of the device.
structure Console.Synced (s : Console) : Prop where
  x : s.device.x = s.lastX
  y : s.device.y = s.lastY
  attr : s.device.attr = s.lastAttr

theorem Console.Synced.current {s : Console} (h : s.Synced) (x y attr : Nat) :
    s.Current x y attr :=
  ⟨fun hx hy => ⟨h.x.trans hx, h.y.trans hy⟩, fun hattr => h.attr.trans hattr⟩

-- The cursor and the attribute in front of a pefi_print.
theorem Console.Current.seek_eq {s : Console} {x y attr : Nat} (h : s.Current x y attr) :
    s.seek x y attr = { s with
      lastX := x
      lastY := y
      lastAttr := attr
      device := { s.device with x := x, y := y, attr := attr } } := by
  obtain ⟨initialized, buf, lastX, lastY, lastAttr, screen, devX, devY, devAttr⟩ := s
  obtain ⟨hcursor, hattr⟩ := h
  unfold Console.seek ConOut.setAttribute ConOut.setCursorPosition
  by_cases ha : lastAttr = attr <;> by_cases hx : lastX = x <;> by_cases hy : lastY = y <;>
    simp_all

theorem Console.seek_keeps (s : Console) (x y attr : Nat) :
    (s.seek x y attr).device.screen = s.device.screen ∧ (s.seek x y attr).buf = s.buf := by
  unfold Console.seek ConOut.setAttribute ConOut.setCursorPosition
  dsimp only
  split <;> split <;> exact ⟨rfl, rfl⟩

theorem outputChar_shown {c : Char16} (h : ¬ control c) (out : ConOut) :
    out.outputChar c =
      { out with screen := out.screen.put out.x out.y ⟨c, out.attr⟩, x := out.x + 1 } := by
  simp only [control, not_or] at h
  obtain ⟨-, hbs, hlf, hcr⟩ := h
  rw [ConOut.outputChar, if_neg hbs, if_neg hlf, if_neg hcr]

-- A run of the buffer, printed from its first place on, is its characters, each in its place.
theorem takeRun_spec {attr x y len : Nat} {buf rest : List BufChar} {strbuf : List Char16}
    (hplain : Plain buf) (h : takeRun attr x y len buf = (strbuf, rest)) (out : ConOut)
    (hx : out.x = x + len) (hy : out.y = y) (hattr : out.attr = attr) :
    (out.outputString strbuf).screen.writeBuf rest = out.screen.writeBuf buf ∧
      (out.outputString strbuf).x = x + len + strbuf.length ∧
      (out.outputString strbuf).y = y ∧ (out.outputString strbuf).attr = attr ∧
      rest <:+ buf := by
  induction buf generalizing len strbuf out with
  | nil =>
      cases h
      exact ⟨rfl, hx, hy, hattr, List.suffix_refl _⟩
  | cons b buf ih =>
      unfold takeRun at h
      split at h
      · rename_i hrun
        obtain ⟨-, hbattr, hby, hbx⟩ := hrun
        obtain ⟨hb, hbuf⟩ := List.forall_mem_cons.mp hplain
        generalize hrec : takeRun attr x y (len + 1) buf = r at h
        obtain ⟨strbuf', rest'⟩ := r
        cases h
        have hnext := ih hbuf hrec (out.outputChar b.c) (by rw [outputChar_shown hb]; simp [hx]; omega)
          (by rw [outputChar_shown hb]; exact hy) (by rw [outputChar_shown hb]; exact hattr)
        obtain ⟨hscreen, hx', hy', hattr', hsuffix⟩ := hnext
        have hzero : b.c ≠ 0 := fun hzero => hb (.inl hzero)
        rw [ConOut.outputString, if_neg hzero]
        refine ⟨hscreen.trans ?_, by rw [hx', List.length_cons]; omega, hy', hattr',
          hsuffix.trans (List.suffix_cons _ _)⟩
        rw [outputChar_shown hb, hx, hy, hattr, ← hbx, ← hby, ← hbattr]
        rfl
      · cases h
        exact ⟨rfl, hx, hy, hattr, List.suffix_refl _⟩

-- The first entry is always taken.
theorem takeRun_length {first : BufChar} {buf rest : List BufChar} {strbuf : List Char16}
    (h : takeRun first.attr first.x first.y 0 (first :: buf) = (strbuf, rest)) :
    rest.length ≤ buf.length := by
  have hle {attr x y len : Nat} (buf : List BufChar) :
      (takeRun attr x y len buf).2.length ≤ buf.length := by
    induction buf generalizing len with
    | nil => exact Nat.le_refl _
    | cons b buf ih =>
        unfold takeRun
        split
        · exact Nat.le_succ_of_le ih
        · exact Nat.le_refl _
  unfold takeRun at h
  rw [if_pos ⟨by decide, rfl, rfl, rfl⟩] at h
  have hrest := congrArg (fun r => r.2.length) h
  dsimp only at hrest
  rw [← hrest]
  exact hle buf

-- What the flush loop leaves.
structure Flushed (s t : Console) (buf : List BufChar) : Prop where
  screen : t.device.screen = s.device.screen.writeBuf buf
  synced : buf ≠ [] → t.Synced
  initialized : t.initialized = s.initialized

section Runs

variable {pefiPrint : ConOut → List Char16 → ConOut}
  (hprint : ∀ out str, pefiPrint out str = out.outputString str)

include hprint

theorem flushRuns_spec {turns : Nat} {s : Console} {buf : List BufChar}
    (hturns : buf.length ≤ turns) (hplain : Plain buf)
    (hcurrent : ∀ b ∈ buf.head?, s.Current b.x b.y b.attr) :
    Flushed s (flushRuns pefiPrint turns s buf) buf := by
  induction turns generalizing s buf with
  | zero =>
      obtain rfl := List.length_eq_zero_iff.mp (Nat.le_zero.mp hturns)
      exact ⟨rfl, fun h => absurd rfl h, rfl⟩
  | succ turns ih =>
      cases buf with
      | nil => exact ⟨rfl, fun h => absurd rfl h, rfl⟩
      | cons first buf =>
          unfold flushRuns
          generalize hrun : takeRun first.attr first.x first.y 0 (first :: buf) = r
          obtain ⟨strbuf, rest⟩ := r
          dsimp only
          rw [(hcurrent first rfl).seek_eq, Console.print, hprint]
          obtain ⟨hscreen, hx, hy, hattr, hsuffix⟩ := takeRun_spec hplain hrun
            { s.device with x := first.x, y := first.y, attr := first.attr } rfl rfl rfl
          have hrest : Plain rest := fun b hb => hplain b (hsuffix.subset hb)
          have hsynced : Console.Synced { s with
              lastX := first.x + strbuf.length
              lastY := first.y
              lastAttr := first.attr
              device := ConOut.outputString
                { s.device with x := first.x, y := first.y, attr := first.attr } strbuf } :=
            ⟨hx, hy, hattr⟩
          have hlater := ih (Nat.le_trans (takeRun_length hrun) (Nat.le_of_succ_le_succ hturns)) hrest
            fun b _ => hsynced.current b.x b.y b.attr
          refine ⟨hlater.screen.trans hscreen, fun _ => ?_, hlater.initialized⟩
          cases rest with
          | nil =>
              cases turns <;> exact hsynced
          | cons => exact hlater.synced nofun

theorem vmemFlush_spec {s : Console} (hplain : Plain s.buf) (h : s.Admits .flush) :
    Flushed s (vmemFlush pefiPrint s) s.buf ∧ (vmemFlush pefiPrint s).buf = [] ∧
      (s.buf = [] → vmemFlush pefiPrint s = s) := by
  by_cases hbuf : s.buf = []
  · have hsame : vmemFlush pefiPrint s = s := by rw [vmemFlush, if_pos (.inr hbuf)]
    rw [hsame, hbuf]
    exact ⟨⟨rfl, fun hne => absurd rfl hne, rfl⟩, rfl, fun _ => rfl⟩
  · obtain ⟨hinit, hcurrent⟩ := h hbuf
    have hruns := flushRuns_spec hprint (Nat.le_refl s.buf.length) hplain hcurrent
    rw [vmemFlush, if_neg (by simp [hinit, hbuf])]
    exact ⟨⟨hruns.screen, fun hne => ⟨(hruns.synced hne).x, (hruns.synced hne).y,
      (hruns.synced hne).attr⟩, hruns.initialized⟩, rfl, fun hnil => absurd hnil hbuf⟩

theorem push_spec {s : Console} (design : VMemDesign) {c : Char16} (hplain : Plain s.buf)
    (hinit : s.initialized = true) (hc : ¬ control c)
    (hfull : 64 ≤ s.buf.length → s.FlushCurrent) :
    (s.push pefiPrint design c).shown = s.shown.write design c ∧
      Plain (s.push pefiPrint design c).buf := by
  have hpush {t : Console} (hplain : Plain t.buf) :
      Console.shown { t with buf := t.buf ++ [⟨c, design.x, design.y, design.attr⟩] } =
        t.shown.write design c ∧ Plain (t.buf ++ [⟨c, design.x, design.y, design.attr⟩]) := by
    refine ⟨List.foldl_append, fun b hb => ?_⟩
    rcases List.mem_append.mp hb with hb | hb
    · exact hplain b hb
    · rw [List.mem_singleton.mp hb]
      exact hc
  unfold Console.push
  by_cases h64 : s.buf.length ≥ 64
  · obtain ⟨hflushed, hbuf, -⟩ := vmemFlush_spec hprint hplain fun _ => ⟨hinit, hfull h64⟩
    have hshown : (vmemFlush pefiPrint s).shown = s.shown := by
      rw [Console.shown, hbuf]
      exact hflushed.screen
    dsimp only
    rw [if_pos h64, ← hshown]
    exact hpush (by rw [hbuf]; nofun)
  · dsimp only
    rw [if_neg h64]
    exact hpush hplain

omit hprint in
-- A string printed from its place on.
theorem outputString_wideString {str : List Char8} (design : VMemDesign)
    (hplain : ∀ c ∈ str, c = 0x0A ∨ ¬ control c.wide) (out : ConOut) (hx : out.x = design.x)
    (hy : out.y = design.y) (hattr : out.attr = design.attr) :
    (out.outputString (wideString design str).1).screen = out.screen.writeString design str := by
  induction str generalizing design out with
  | nil => rfl
  | cons c str ih =>
      obtain ⟨hc, hstr⟩ := List.forall_mem_cons.mp hplain
      unfold wideString Screen.writeString
      by_cases hzero : c = 0
      · rw [if_pos hzero, if_pos hzero]
        rfl
      rw [if_neg hzero, if_neg hzero]
      by_cases hline : c = 0x0A
      · rw [if_pos hline, if_pos hline]
        exact ih design.newline hstr { out with x := 0, y := out.y + 1 } rfl (by rw [hy]; rfl) hattr
      · rw [if_neg hline, if_neg hline]
        have hshown := hc.resolve_left hline
        have hne : c.wide ≠ 0 := fun h => hshown (.inl h)
        dsimp only
        rw [ConOut.outputString, if_neg hne, outputChar_shown hshown]
        refine (ih design.next hstr { out with
          screen := out.screen.put out.x out.y ⟨c.wide, out.attr⟩
          x := out.x + 1 } (by rw [hx]; rfl) hy hattr).trans ?_
        rw [Screen.write, hx, hy, hattr]

theorem vmemPrint_spec {s : Console} {design : VMemDesign} {str : List Char8}
    (hplain : Plain s.buf) (h : s.Admits (.print design str)) :
    (vmemPrint pefiPrint s design str).1.shown = s.shown.writeString design str ∧
      (vmemPrint pefiPrint s design str).1.buf = [] := by
  obtain ⟨hinit, hstr, hcurrent, hempty⟩ := h
  obtain ⟨hflushed, hbuf, hsame⟩ := vmemFlush_spec hprint hplain fun _ => ⟨hinit, hcurrent⟩
  unfold vmemPrint
  rw [if_neg (by simp [hinit])]
  dsimp only [Console.print]
  rw [hprint]
  -- an empty string may go anywhere
  cases str with
  | nil =>
      obtain ⟨hscreen, hkept⟩ := (vmemFlush pefiPrint s).seek_keeps design.x design.y design.attr
      refine ⟨?_, hkept.trans hbuf⟩
      rw [Console.shown, hkept, hbuf]
      exact hscreen.trans hflushed.screen
  | cons c str =>
      have hplace : (vmemFlush pefiPrint s).Current design.x design.y design.attr := by
        by_cases hnil : s.buf = []
        · rw [hsame hnil]
          exact hempty hnil nofun
        · exact (hflushed.synced hnil).current _ _ _
      rw [hplace.seek_eq, Console.shown, hbuf]
      refine ⟨?_, rfl⟩
      exact (outputString_wideString design hstr _ rfl rfl rfl).trans
        (congrArg (Screen.writeString · design (c :: str)) hflushed.screen)

-- One call that is admitted.
theorem run_shown {s : Console} {call : ConsoleCall} (hplain : Plain s.buf)
    (h : s.Admits call) :
    (call.run pefiPrint s).shown = call.direct s.shown ∧ Plain (call.run pefiPrint s).buf := by
  cases call with
  | printc design c =>
      dsimp only [ConsoleCall.run, ConsoleCall.direct]
      unfold vmemPrintc
      by_cases hline : c = 0x0A
      · rw [if_pos hline, if_pos hline]
        split <;> exact ⟨rfl, hplain⟩
      · obtain ⟨hinit, hc, hfull⟩ := h hline
        rw [if_neg (by simp [hinit]), if_neg hline, if_neg hline]
        exact push_spec hprint design hplain hinit hc hfull
  | printwc design addr c =>
      obtain ⟨hinit, haddr, hc, hfull⟩ := h
      dsimp only [ConsoleCall.run, ConsoleCall.direct]
      unfold vmemPrintwc
      rw [if_neg (by simp [hinit]), if_neg haddr, if_neg fun hline => hc (.inr (.inr (.inl hline)))]
      exact push_spec hprint design hplain hinit hc hfull
  | print design str =>
      obtain ⟨hshown, hbuf⟩ := vmemPrint_spec hprint hplain h
      refine ⟨hshown, ?_⟩
      dsimp only [ConsoleCall.run]
      rw [hbuf]
      nofun
  | clearScreen design =>
      obtain ⟨hbuf, hattr⟩ := h
      have hset : (if s.lastAttr ≠ design.attr then
          { s with device := s.device.setAttribute design.attr, lastAttr := design.attr }
          else s).device.attr = design.attr := by
        split
        · rfl
        · rename_i hsame
          exact hattr (by simpa using hsame)
      have hbuf' : (vmemClearScreen s design).1.buf = [] := by
        unfold vmemClearScreen
        dsimp only
        split <;> exact hbuf
      dsimp only [ConsoleCall.run, ConsoleCall.direct]
      rw [Console.shown, hbuf']
      refine ⟨?_, nofun⟩
      exact congrArg Screen.blank hset
  | flush =>
      obtain ⟨hflushed, hbuf, -⟩ := vmemFlush_spec hprint hplain h
      dsimp only [ConsoleCall.run, ConsoleCall.direct]
      rw [Console.shown, hbuf]
      exact ⟨hflushed.screen, nofun⟩

end Runs

section Calls

variable (pefiPrint : ConOut → List Char16 → ConOut)

def runCalls (s : Console) (calls : List ConsoleCall) : Console :=
  calls.foldl (ConsoleCall.run pefiPrint) s

-- Every call is admitted when it comes.
def AllAdmitted : Console → List ConsoleCall → Prop
  | _, [] => True
  | s, call :: calls => s.Admits call ∧ AllAdmitted (call.run pefiPrint s) calls

def decideAllAdmitted : (s : Console) → (calls : List ConsoleCall) →
    Decidable (AllAdmitted pefiPrint s calls)
  | _, [] => isTrue trivial
  | s, call :: calls =>
      have := decideAllAdmitted (call.run pefiPrint s) calls
      inferInstanceAs (Decidable (s.Admits call ∧ AllAdmitted pefiPrint (call.run pefiPrint s) calls))

instance (s : Console) (calls : List ConsoleCall) : Decidable (AllAdmitted pefiPrint s calls) :=
  decideAllAdmitted pefiPrint s calls

variable {pefiPrint} (hprint : ∀ out str, pefiPrint out str = out.outputString str)

include hprint

theorem runCalls_shown {s : Console} {calls : List ConsoleCall} (hplain : Plain s.buf)
    (h : AllAdmitted pefiPrint s calls) :
    (runCalls pefiPrint s calls).shown = calls.foldl ConsoleCall.direct s.shown ∧
      Plain (runCalls pefiPrint s calls).buf := by
  induction calls generalizing s with
  | nil => exact ⟨rfl, hplain⟩
  | cons call calls ih =>
      obtain ⟨hcall, hcalls⟩ := h
      obtain ⟨hshown, hplain'⟩ := run_shown hprint hplain hcall
      rw [List.foldl_cons, ← hshown]
      exact ih hplain' hcalls

-- From an empty buffer, whenever the calls so far and a last vmem_flush are
-- admitted, the screen is the one of direct output.
theorem buffered_eq_direct {s : Console} {calls : List ConsoleCall} (hbuf : s.buf = [])
    (h : AllAdmitted pefiPrint s calls) (hflush : (runCalls pefiPrint s calls).Admits .flush) :
    (vmemFlush pefiPrint (runCalls pefiPrint s calls)).device.screen =
      calls.foldl ConsoleCall.direct s.device.screen := by
  obtain ⟨hshown, hplain⟩ := runCalls_shown hprint (by rw [hbuf]; nofun) h
  obtain ⟨hflushed, -, -⟩ := vmemFlush_spec hprint hplain hflush
  have hstart : s.shown = s.device.screen := by
    rw [Console.shown, hbuf]
    rfl
  rw [hflushed.screen, ← hstart]
  exact hshown

end Calls

-- The console as it starts, on a device in the state of the caches.
def startConsole : Console where
  initialized := true
  buf := []
  lastX := 0
  lastY := 0
  lastAttr := 0
  device := ⟨.blank 0, 0, 0, 0⟩

def someDesign (x y : Nat) : VMemDesign := ⟨x, y, 7, 1⟩

-- A cleared screen, a row of characters and a string below it.
def someCalls : List ConsoleCall :=
  [.clearScreen (someDesign 3 3), .printc (someDesign 2 1) 0x41, .printwc (someDesign 3 1) 0x1000 0x2550,
    .printc (someDesign 4 1) 0x0A, .print (someDesign 0 2) [0x42, 0x0A, 0x43], .printc (someDesign 5 2) 0x44]

theorem buffered_eq_direct_some :
    (vmemFlush ConOut.outputString (runCalls ConOut.outputString startConsole
      someCalls)).device.screen = someCalls.foldl ConsoleCall.direct (.blank 0) :=
  buffered_eq_direct (fun _ _ => rfl) rfl (by decide) (by decide)

-- Two strings for one place, the second after the first.
def samePlace : List ConsoleCall := [.print (someDesign 0 0) [0x41], .print (someDesign 0 0) [0x42]]

-- The second one appears behind the first and not over it.
theorem buffered_misplaces :
    (vmemFlush ConOut.outputString (runCalls ConOut.outputString startConsole
      samePlace)).device.screen ≠ samePlace.foldl ConsoleCall.direct startConsole.device.screen := by
  intro heq
  have hcell := congrFun (congrFun heq 0) 0
  revert hcell
  decide

end AosKernel.Boot
