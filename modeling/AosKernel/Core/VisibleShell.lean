import AosKernel.Gpu.BuiltinText

namespace AosKernel.Core

open AosKernel.Gpu

-- sizeof(cmd_buf)
def maxCmdLen : Nat := 512

structure CmdBuf where
  cells : List UInt8
  size : cells.length = maxCmdLen

-- A write outside the buffer has no result.
def CmdBuf.write (buf : CmdBuf) (i : Nat) (c : UInt8) : Option CmdBuf :=
  if i < maxCmdLen then some ⟨buf.cells.set i c, by rw [List.length_set, buf.size]⟩ else none

def CmdBuf.zero : CmdBuf := ⟨List.replicate maxCmdLen 0, List.length_replicate⟩

-- The string that begins the buffer.
def CmdBuf.string (buf : CmdBuf) : List UInt8 := buf.cells.takeWhile (· ≠ 0)

structure VShell where
  ctx : TextCtx
  buf : CmdBuf
  cmdLen : Nat

def isAscii (c : UInt8) : Bool := decide (0x20 ≤ c) && decide (c ≤ 0x7E)

section Shell

-- The driver, and what a command leaves of the context: it makes *cmd_len 0 again and does
-- not write to the buffer, unless it asks for a reload, which clears it. A command that ends
-- the shell is the last one of a run.
variable (driver : TextDriver) (command : TextCtx → CmdBuf → Nat → TextCtx × Bool)

def vshellHandleUserInput (maxLen : Nat) (key : UInt8) (s : VShell) : Option (VShell × Bool) :=
  if key = 0 then some (s, false)
  else if key = 8 then
    if s.cmdLen = 0 then some (s, false)
    else match pyrionBuiltinPrintc driver s.ctx 8 with
      | (ctx, false) => some ({ s with ctx := ctx }, false)
      | (ctx, true) => some ({ s with ctx := ctx, cmdLen := s.cmdLen - 1 }, false)
  else if key = 10 then
    let (ctx, done) := pyrionBuiltinPrintc driver s.ctx 10
    some ({ s with ctx := ctx }, done)
  else if s.cmdLen = maxLen ∨ isAscii key = false then some (s, false)
  else match s.buf.write s.cmdLen key with
    | none => none
    | some buf =>
        match pyrionBuiltinPrintc driver s.ctx key with
        | (ctx, false) => some ({ s with ctx := ctx, buf := buf }, false)
        | (ctx, true) => some ({ ctx := ctx, buf := buf, cmdLen := s.cmdLen + 1 }, false)

-- With the line that is handed to the commands, if one is.
def vshellHandleShell (key : UInt8) (s : VShell) : Option (VShell × Option (List UInt8)) := do
  let (s, done) ← vshellHandleUserInput driver (maxCmdLen - 1) key s
  if done = false then return (s, none)
  let buf ← s.buf.write (maxCmdLen - 1) 0
  if s.cmdLen = 0 then return ({ s with buf := buf }, none)
  let buf ← buf.write s.cmdLen 0
  let (ctx, reload) := command s.ctx buf s.cmdLen
  return (⟨ctx, if reload then CmdBuf.zero else buf, 0⟩, some buf.string)

-- The lines handed over while the keys come in.
def vshellRun : List UInt8 → VShell → Option (List (List UInt8))
  | [], _ => some []
  | key :: keys, s => do
      let (s, line) ← vshellHandleShell driver command key s
      let lines ← vshellRun keys s
      return line.toList ++ lines

-- What holds of each key and the shell it comes to.
def Along (P : UInt8 → VShell → Prop) : List UInt8 → VShell → Prop
  | [], _ => True
  | key :: keys, s => P key s ∧ ∀ s' line,
      vshellHandleShell driver command key s = some (s', line) → Along P keys s'

-- The claim's fold: what one key makes of the line held so far.
def editLine (held : List UInt8) (key : UInt8) : List UInt8 :=
  if isAscii key then
    if held.length < maxCmdLen - 1 then held ++ [key] else held
  else if key = 8 then held.dropLast
  else held

-- A newline hands the line over, unless it is empty, and the next one begins.
def editedLines : List UInt8 → List UInt8 → List (List UInt8)
  | _, [] => []
  | held, key :: keys =>
      if key = 10 then
        if held = [] then editedLines [] keys else held :: editedLines [] keys
      else editedLines (editLine held key) keys

-- A font for all of ASCII, and room for what is typed.
def Roomy (key : UInt8) (s : VShell) : Prop :=
  CoversAscii s.ctx ∧ HasRoom driver s.ctx key

-- A backspace that removes something has a glyph.
def BackspaceShown (key : UInt8) (s : VShell) : Prop :=
  key = 8 → s.cmdLen ≠ 0 → findGlyph s.ctx 8 ≠ none

end Shell

section Buffer

variable {buf : CmdBuf} {held : List UInt8} {key : UInt8}

theorem CmdBuf.write_eq (buf : CmdBuf) {i : Nat} (h : i < maxCmdLen) (c : UInt8) :
    ∃ buf' : CmdBuf, buf.write i c = some buf' ∧ buf'.cells = buf.cells.set i c := by
  refine ⟨⟨buf.cells.set i c, by rw [List.length_set, buf.size]⟩, ?_, rfl⟩
  rw [CmdBuf.write, if_pos h]

theorem line_lt {n : Nat} (h : n ≤ maxCmdLen - 1) : n < maxCmdLen := by
  have hmax : maxCmdLen = 512 := rfl
  omega

theorem isAscii_ne_zero (h : isAscii key = true) : key ≠ 0 := by
  rintro rfl
  cases h

-- The line is in front of the buffer.
structure Holds (s : VShell) (held : List UInt8) : Prop where
  len : s.cmdLen = held.length
  fits : held.length ≤ maxCmdLen - 1
  front : s.buf.cells.take held.length = held
  ascii : ∀ c ∈ held, isAscii c = true

theorem holds_nil {s : VShell} (h : s.cmdLen = 0) : Holds s [] where
  len := h
  fits := Nat.zero_le _
  front := rfl
  ascii := fun _ hc => absurd hc List.not_mem_nil

-- Writing behind the line leaves it.
theorem take_write (c : UInt8) (h : buf.cells.take held.length = held) :
    (buf.cells.set held.length c).take held.length = held := by
  rw [List.take_set_of_le (Nat.le_refl _), h]

theorem take_push (c : UInt8) (hfits : held.length < maxCmdLen)
    (h : buf.cells.take held.length = held) :
    (buf.cells.set held.length c).take (held.length + 1) = held ++ [c] := by
  have hsize : held.length < (buf.cells.set held.length c).length := by
    rw [List.length_set, buf.size]
    exact hfits
  rw [List.take_succ_eq_append_getElem hsize, take_write c h, List.getElem_set_self]

-- With a zero behind it, it is the string of the buffer.
theorem string_line (hfits : held.length < maxCmdLen) (h : buf.cells.take held.length = held)
    (hascii : ∀ c ∈ held, isAscii c = true) (hzero : buf.cells[held.length]? = some 0) :
    buf.string = held := by
  have hsize : held.length < buf.cells.length := by rwa [buf.size]
  have hsplit : buf.cells = held ++ 0 :: buf.cells.drop (held.length + 1) := by
    conv_lhs => rw [← List.take_append_drop held.length buf.cells, h]
    rw [List.drop_eq_getElem_cons hsize]
    rw [List.getElem?_eq_getElem hsize, Option.some.injEq] at hzero
    rw [hzero]
  rw [CmdBuf.string, hsplit, List.takeWhile_append_of_pos]
  · rw [List.takeWhile_cons_of_neg (by decide), List.append_nil]
  · exact fun c hc => decide_eq_true (isAscii_ne_zero (hascii c hc))

end Buffer

section Keys

variable {driver : TextDriver} {command : TextCtx → CmdBuf → Nat → TextCtx × Bool}
  {key : UInt8} {s : VShell} {held : List UInt8}

theorem Holds.pop (h : Holds s held) (ctx : TextCtx) :
    Holds { s with ctx := ctx, cmdLen := s.cmdLen - 1 } held.dropLast where
  len := by
    rw [List.length_dropLast, h.len]
  fits := by
    rw [List.length_dropLast]
    exact Nat.le_trans (Nat.sub_le _ _) h.fits
  front := by
    conv_rhs => rw [List.dropLast_eq_take, ← h.front, List.take_take]
    rw [List.length_dropLast, h.front, Nat.min_eq_left (Nat.sub_le _ _)]
  ascii c hc := h.ascii c (List.mem_of_mem_dropLast hc)

theorem Holds.push (h : Holds s held) (hroom : held.length < maxCmdLen - 1)
    (hascii : isAscii key = true) {buf : CmdBuf} (hcells : buf.cells = s.buf.cells.set s.cmdLen key)
    (ctx : TextCtx) : Holds ⟨ctx, buf, s.cmdLen + 1⟩ (held ++ [key]) where
  len := by
    rw [List.length_append, h.len]
    rfl
  fits := by
    rw [List.length_append]
    exact hroom
  front := by
    rw [hcells, h.len, List.length_append]
    exact take_push key (by omega) h.front
  ascii c hc := by
    rcases List.mem_append.mp hc with hc | hc
    · exact h.ascii c hc
    · rw [List.mem_singleton.mp hc, hascii]

-- A key that is no newline edits the line.
theorem userInput_edits (h : Holds s held) (hroom : Roomy driver key s)
    (hshown : BackspaceShown key s) (hline : key ≠ 10) :
    ∃ s', vshellHandleUserInput driver (maxCmdLen - 1) key s = some (s', false) ∧
      Holds s' (editLine held key) := by
  unfold vshellHandleUserInput
  by_cases hnone : key = 0
  · subst hnone
    exact ⟨s, rfl, h⟩
  by_cases hback : key = 8
  · subst hback
    have hedit : editLine held 8 = held.dropLast := rfl
    rw [if_neg hnone, if_pos rfl, hedit]
    by_cases hempty : s.cmdLen = 0
    · have hnil : held = [] := List.length_eq_zero_iff.mp (h.len.symm.trans hempty)
      rw [if_pos hempty]
      refine ⟨s, rfl, ?_⟩
      rw [hnil]
      exact holds_nil hempty
    · have hecho := printc_glyph hroom.1 hroom.2 hline (by decide) (by decide)
        (hshown rfl hempty)
      rw [if_neg hempty]
      generalize pyrionBuiltinPrintc driver s.ctx 8 = printed at hecho
      obtain ⟨ctx, ok⟩ := printed
      obtain rfl : ok = true := hecho
      exact ⟨_, rfl, h.pop ctx⟩
  rw [if_neg hnone, if_neg hback, if_neg hline]
  unfold editLine
  by_cases hascii : isAscii key = true
  · rw [if_pos hascii]
    by_cases hfull : held.length < maxCmdLen - 1
    · have hlen : s.cmdLen < maxCmdLen := line_lt (h.len ▸ h.fits)
      have hgoes : ¬ (s.cmdLen = maxCmdLen - 1 ∨ isAscii key = false) := by
        rw [h.len, hascii]
        rintro (hfits | htrue)
        · exact Nat.ne_of_lt hfull hfits
        · cases htrue
      obtain ⟨buf, hwrite, hcells⟩ := s.buf.write_eq hlen key
      rw [if_neg hgoes, if_pos hfull, hwrite]
      obtain ⟨hlow, hhigh⟩ := Bool.and_eq_true_iff.mp hascii
      have hglyph := hroom.1.glyphs key (of_decide_eq_true hlow) (of_decide_eq_true hhigh)
      have hecho : (pyrionBuiltinPrintc driver s.ctx key).2 = true := by
        apply printc_glyph hroom.1 hroom.2 hline _ _ hglyph
        · rintro rfl
          cases hascii
        · rintro rfl
          cases hascii
      generalize pyrionBuiltinPrintc driver s.ctx key = printed at hecho
      obtain ⟨ctx, ok⟩ := printed
      obtain rfl : ok = true := hecho
      exact ⟨_, rfl, h.push hfull hascii hcells ctx⟩
    · have hstays : s.cmdLen = maxCmdLen - 1 ∨ isAscii key = false := by
        left
        rw [h.len]
        exact Nat.le_antisymm h.fits (Nat.le_of_not_lt hfull)
      rw [if_pos hstays, if_neg hfull]
      exact ⟨s, rfl, h⟩
  · have hother : isAscii key = false := Bool.eq_false_of_not_eq_true hascii
    rw [if_pos (Or.inr hother), if_neg hascii, if_neg hback]
    exact ⟨s, rfl, h⟩

-- A newline hands over what is held.
theorem handleShell_newline (command : TextCtx → CmdBuf → Nat → TextCtx × Bool)
    (h : Holds s held) (hroom : Roomy driver 10 s) :
    ∃ s', vshellHandleShell driver command 10 s =
        some (s', if held = [] then none else some held) ∧ s'.cmdLen = 0 := by
  have hecho := printc_newline hroom.1 hroom.2
  obtain ⟨buf, hwrite, hcells⟩ :=
    s.buf.write_eq (i := maxCmdLen - 1) (by decide) 0
  have hinput : vshellHandleUserInput driver (maxCmdLen - 1) 10 s =
      some ({ s with ctx := (pyrionBuiltinPrintc driver s.ctx 10).1 }, true) := by
    rw [← hecho]
    rfl
  simp only [vshellHandleShell, hinput, Option.bind_eq_bind, Option.bind_some, Bool.true_eq_false,
    if_false, hwrite]
  by_cases hempty : held = []
  · have hzero : s.cmdLen = 0 := by
      rw [h.len, hempty]
      rfl
    rw [if_pos hempty, if_pos hzero]
    exact ⟨_, rfl, hzero⟩
  · have hlen : s.cmdLen < maxCmdLen := line_lt (h.len ▸ h.fits)
    have hsome : s.cmdLen ≠ 0 := by
      rw [h.len]
      exact fun hzero => hempty (List.length_eq_zero_iff.mp hzero)
    obtain ⟨buf', hwrite', hcells'⟩ := buf.write_eq hlen 0
    have hstring : buf'.string = held := by
      have hfits := line_lt h.fits
      have hfront : buf'.cells.take held.length = held := by
        rw [hcells', h.len]
        apply take_write
        rw [hcells, List.take_set_of_le h.fits, h.front]
      have hzero : buf'.cells[held.length]? = some 0 := by
        rw [hcells', h.len, List.getElem?_set_self]
        rwa [buf.size]
      exact string_line hfits hfront h.ascii hzero
    rw [if_neg hempty, if_neg hsome, hwrite', Option.bind_some, hstring]
    exact ⟨⟨_, _, 0⟩, rfl, rfl⟩

theorem handleShell_edits (command : TextCtx → CmdBuf → Nat → TextCtx × Bool)
    (h : Holds s held) (hroom : Roomy driver key s) (hshown : BackspaceShown key s)
    (hline : key ≠ 10) :
    ∃ s', vshellHandleShell driver command key s = some (s', none) ∧
      Holds s' (editLine held key) := by
  obtain ⟨s', hinput, hs'⟩ := userInput_edits h hroom hshown hline
  refine ⟨s', ?_, hs'⟩
  simp only [vshellHandleShell, hinput, Option.bind_eq_bind, Option.bind_some, if_true]
  rfl

-- What is typed is handed over, as long as every echo succeeds.
theorem vshellRun_lines (keys : List UInt8) (h : Holds s held)
    (hgood : Along driver command (fun key s => Roomy driver key s ∧ BackspaceShown key s)
      keys s) :
    vshellRun driver command keys s = some (editedLines held keys) := by
  induction keys generalizing s held with
  | nil => rfl
  | cons key keys ih =>
      obtain ⟨⟨hroom, hshown⟩, hrest⟩ := hgood
      by_cases hline : key = 10
      · subst hline
        obtain ⟨s', hstep, hempty⟩ := handleShell_newline command h hroom
        have hrun := ih (holds_nil hempty) (hrest s' _ hstep)
        simp only [vshellRun, hstep, hrun, Option.bind_eq_bind, Option.bind_some, editedLines,
          if_true]
        by_cases hnil : held = []
        · rw [if_pos hnil, if_pos hnil]
          rfl
        · rw [if_neg hnil, if_neg hnil]
          rfl
      · obtain ⟨s', hstep, hs'⟩ := handleShell_edits command h hroom hshown hline
        have hrun := ih hs' (hrest s' _ hstep)
        simp only [vshellRun, hstep, hrun, Option.bind_eq_bind, Option.bind_some, editedLines,
          if_neg hline]
        rfl

-- Whatever echoes and whatever does not, the length stays below that of the buffer.
theorem userInput_inside (driver : TextDriver) (hlen : s.cmdLen ≤ maxCmdLen - 1) (key : UInt8) :
    ∃ s' done, vshellHandleUserInput driver (maxCmdLen - 1) key s = some (s', done) ∧
      s'.cmdLen ≤ maxCmdLen - 1 := by
  unfold vshellHandleUserInput
  split
  · exact ⟨s, false, rfl, hlen⟩
  split
  · split
    · exact ⟨s, false, rfl, hlen⟩
    · split
      · exact ⟨_, false, rfl, hlen⟩
      · exact ⟨_, false, rfl, Nat.le_trans (Nat.sub_le _ _) hlen⟩
  split
  · exact ⟨_, _, rfl, hlen⟩
  split
  · exact ⟨s, false, rfl, hlen⟩
  · rename_i hgoes
    obtain ⟨buf, hwrite, -⟩ := s.buf.write_eq (line_lt hlen) key
    rw [hwrite]
    split
    · contradiction
    · split
      · exact ⟨_, false, rfl, hlen⟩
      · refine ⟨_, false, rfl, ?_⟩
        exact Nat.lt_of_le_of_ne hlen fun heq => hgoes (Or.inl heq)

theorem handleShell_inside (driver : TextDriver)
    (command : TextCtx → CmdBuf → Nat → TextCtx × Bool)
    (hlen : s.cmdLen ≤ maxCmdLen - 1) (key : UInt8) :
    ∃ s' line, vshellHandleShell driver command key s = some (s', line) ∧
      s'.cmdLen ≤ maxCmdLen - 1 := by
  obtain ⟨s₁, done, hinput, hlen₁⟩ := userInput_inside driver hlen key
  simp only [vshellHandleShell, hinput, Option.bind_eq_bind, Option.bind_some]
  split
  · exact ⟨s₁, none, rfl, hlen₁⟩
  obtain ⟨buf, hwrite, -⟩ := s₁.buf.write_eq (i := maxCmdLen - 1) (by decide) 0
  rw [hwrite, Option.bind_some]
  split
  · exact ⟨_, none, rfl, hlen₁⟩
  obtain ⟨buf', hwrite', -⟩ := buf.write_eq (line_lt hlen₁) 0
  rw [hwrite', Option.bind_some]
  exact ⟨_, _, rfl, Nat.zero_le _⟩

theorem vshellRun_inside (keys : List UInt8) (hlen : s.cmdLen ≤ maxCmdLen - 1) :
    vshellRun driver command keys s ≠ none := by
  induction keys generalizing s with
  | nil => exact Option.some_ne_none _
  | cons key keys ih =>
      obtain ⟨s', line, hstep, hlen'⟩ :=
        handleShell_inside driver command hlen key
      obtain ⟨lines, hrun⟩ := Option.ne_none_iff_exists'.mp (ih hlen')
      simp only [vshellRun, hstep, hrun, Option.bind_eq_bind, Option.bind_some]
      exact Option.some_ne_none _

-- From an empty line on: the buffer is never left, and if the steps meet the condition the
-- lines are those of the fold.
theorem vshell_edits_lines (driver : TextDriver)
    (command : TextCtx → CmdBuf → Nat → TextCtx × Bool) (keys : List UInt8) {s : VShell}
    (hempty : s.cmdLen = 0) :
    vshellRun driver command keys s ≠ none ∧
      (Along driver command (fun key s => Roomy driver key s ∧ BackspaceShown key s) keys s →
        vshellRun driver command keys s = some (editedLines [] keys)) := by
  constructor
  · apply vshellRun_inside
    rw [hempty]
    exact Nat.zero_le _
  · exact vshellRun_lines keys (holds_nil hempty)

end Keys

section Fonts

-- A font of the characters from `first` to 0x7E, one pixel each.
def runGlyph (n : Nat) : Font.PyrionGlyph :=
  ⟨BitVec.ofNat 32 n, 0, 0, 1, 1, 0, 0, 1, 0, true⟩

def runCtx (first : Nat) : TextCtx where
  font := ⟨1, 0, (List.range' first (0x7F - first)).map runGlyph, true⟩
  scale := ⟨true, fun v => v.signExtend 32⟩
  cursorX := 0
  cursorY := 0
  viewport := ⟨0, 0, 800, 600⟩

def anyDriver : TextDriver := ⟨fun _ _ _ _ => true, fun _ => none⟩

def anyShell (first : Nat) : VShell := ⟨runCtx first, CmdBuf.zero, 0⟩

def idle : TextCtx → CmdBuf → Nat → TextCtx × Bool := fun ctx _ _ => (ctx, false)

theorem charCode_small {c : UInt8} (h : c < 0x80) : charCode c = BitVec.ofNat 32 c.toNat := by
  have hmsb : c.toBitVec.msb = false := by
    rw [BitVec.msb_eq_false_iff_two_mul_lt]
    have hlt : c.toNat < 128 := h
    show 2 * c.toNat < 256
    omega
  rw [charCode, BitVec.signExtend_eq_setWidth_of_msb_false hmsb, ← BitVec.ofNat_toNat]
  rfl

variable {ctx : TextCtx} {first : Nat}

theorem findGlyph_run (hfont : ctx.font = (runCtx first).font) {c : UInt8}
    (hlow : first ≤ c.toNat) (hhigh : c ≤ 0x7E) : findGlyph ctx c ≠ none := by
  have hlt : c.toNat ≤ 126 := hhigh
  have hsmall : c < 0x80 := by
    show c.toNat < 128
    omega
  have hmem : runGlyph c.toNat ∈ ctx.font.glyphs := by
    rw [hfont]
    apply List.mem_map_of_mem
    rw [List.mem_range'_1]
    omega
  intro hnone
  have hcode := List.find?_eq_none.mp hnone _ hmem
  rw [charCode_small hsmall] at hcode
  exact hcode (by simp [runGlyph])

theorem roomy_run {s : VShell} (first : Nat) (hfirst : first ≤ 0x20)
    (hfont : s.ctx.font = (runCtx first).font) (hscale : s.ctx.scale = (runCtx first).scale)
    {key : UInt8}
    (hline : key = 10 → s.ctx.cursorY + s.ctx.lineHeight ≤ s.ctx.viewport.height) :
    Roomy anyDriver key s := by
  constructor
  · constructor
    · show s.ctx.font.valid = true
      rw [hfont]
      rfl
    · show s.ctx.scale.positive = true
      rw [hscale]
      rfl
    · intro c hlow hhigh
      have hge : 0x20 ≤ c.toNat := hlow
      exact findGlyph_run hfont (by omega) hhigh
  · unfold HasRoom
    split
    · rename_i h
      exact hline h
    · exact fun _ _ _ _ => rfl

theorem Along.cons {driver : TextDriver} {command : TextCtx → CmdBuf → Nat → TextCtx × Bool}
    {P : UInt8 → VShell → Prop} {key : UInt8} {keys : List UInt8} {s s' : VShell}
    {line : Option (List UInt8)} (hstep : vshellHandleShell driver command key s = some (s', line))
    (h : P key s) (hrest : Along driver command P keys s') :
    Along driver command P (key :: keys) s := by
  refine ⟨h, fun s'' line' hstep' => ?_⟩
  cases hstep.symm.trans hstep'
  exact hrest

-- A line that is corrected once, with a font that has a glyph for the backspace.
theorem vshell_edits_lines_corrected :
    vshellRun anyDriver idle [97, 8, 98, 10] (anyShell 8) = some [[98]] := by
  have hrun := vshell_edits_lines anyDriver idle [97, 8, 98, 10] (s := anyShell 8) rfl
  apply hrun.2
  apply Along.cons rfl
  · constructor
    · apply roomy_run 8 (by decide)
      · rfl
      · rfl
      · decide
    · exact fun h => absurd h (by decide)
  apply Along.cons rfl
  · constructor
    · apply roomy_run 8 (by decide)
      · rfl
      · rfl
      · decide
    · exact fun _ _ => findGlyph_run rfl (by decide) (by decide)
  apply Along.cons rfl
  · constructor
    · apply roomy_run 8 (by decide)
      · rfl
      · rfl
      · decide
    · exact fun h => absurd h (by decide)
  apply Along.cons rfl
  · constructor
    · apply roomy_run 8 (by decide)
      · rfl
      · rfl
      · exact fun _ => by decide
    · exact fun h => absurd h (by decide)
  · trivial

-- Without one the backspace is forgotten.
theorem backspace_forgotten :
    Along anyDriver idle (Roomy anyDriver) [97, 98, 8, 10] (anyShell 0x20) ∧
      vshellRun anyDriver idle [97, 98, 8, 10] (anyShell 0x20) ≠
        some (editedLines [] [97, 98, 8, 10]) := by
  constructor
  · apply Along.cons rfl
    · apply roomy_run 0x20 (by decide)
      · rfl
      · rfl
      · decide
    apply Along.cons rfl
    · apply roomy_run 0x20 (by decide)
      · rfl
      · rfl
      · decide
    apply Along.cons rfl
    · apply roomy_run 0x20 (by decide)
      · rfl
      · rfl
      · decide
    apply Along.cons rfl
    · apply roomy_run 0x20 (by decide)
      · rfl
      · rfl
      · exact fun _ => by decide
    · trivial
  · decide +kernel

end Fonts

end AosKernel.Core
