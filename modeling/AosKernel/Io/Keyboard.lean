import Mathlib.Data.List.ReduceOption
import AosKernel.Io.Formatters

namespace AosKernel.Io

-- drivers/keyboard/keyboard.c
structure KeyboardState where
  lshift : Bool
  rshift : Bool
  capslock : Bool
  deriving DecidableEq

def KeyboardState.initial : KeyboardState := ⟨false, false, false⟩

def KeyboardState.shiftDown (s : KeyboardState) : Bool := s.lshift || s.rshift

-- A table of characters as runs of neighbours, each from its first scan code on.
def charAt : List (Nat × List UInt8) → Nat → UInt8
  | [], _ => 0
  | (first, chars) :: runs, sc =>
      if first ≤ sc ∧ sc < first + chars.length then chars.getD (sc - first) 0 else charAt runs sc

def keymap (sc : UInt8) : UInt8 :=
  charAt [(0x01, [27]), (0x02, text "1234567890-="), (0x0E, [8, 9]), (0x10, text "qwertyuiop[]"),
    (0x1C, [10]), (0x1E, text "asdfghjkl;'`"), (0x2B, text "\\zxcvbnm,./"), (0x37, text "*"),
    (0x39, text " "), (0x47, text "789-456+1230.")] sc.toNat

def keymapShift (sc : UInt8) : UInt8 :=
  charAt [(0x02, text "!@#$%^&*()_+"), (0x1A, text "\x7b\x7d"), (0x27, text ":\"~"),
    (0x2B, text "|"), (0x33, text "<>?"), (0x37, text "*"), (0x4A, text "-"), (0x4E, text "+")]
    sc.toNat

def updateState (sc : UInt8) (s : KeyboardState) : KeyboardState :=
  if sc = 0x2A then { s with lshift := true }
  else if sc = 0x36 then { s with rshift := true }
  else if sc = 0xAA then { s with lshift := false }
  else if sc = 0xB6 then { s with rshift := false }
  else if sc = 0x3A then { s with capslock := !s.capslock }
  else s

def isLetter (ch : UInt8) : Bool :=
  decide (chr 'a' ≤ ch ∧ ch ≤ chr 'z') || decide (chr 'A' ≤ ch ∧ ch ≤ chr 'Z')

-- The character of a scan code below 128.
def keyChar (shift caps : Bool) (sc : UInt8) : UInt8 :=
  let ch := keymap sc
  if isLetter ch then
    if shift ^^ caps then ch - 32 else ch
  else if shift && keymapShift sc != 0 then keymapShift sc
  else ch

-- `scan` is what ps2_try_read_scan returns, none for a negative value.
def keyboardPs2TryGetChar (scan : Option UInt8) (s : KeyboardState) : KeyboardState × UInt8 :=
  match scan with
  | none => (s, 0)
  | some sc =>
      let s := updateState sc s
      if sc &&& 0x80 ≠ 0 then (s, 0)
      else if ¬ sc < 128 then (s, sc)
      else (s, keyChar s.shiftDown s.capslock sc)

def emit (ch : UInt8) : List UInt8 := if ch = 0 then [] else [ch]

-- The characters that successive calls return.
def chars : KeyboardState → List (Option UInt8) → List UInt8
  | _, [] => []
  | s, scan :: scans =>
      let (s, ch) := keyboardPs2TryGetChar scan s
      emit ch ++ chars s scans

-- The code that set 1 gives to a key.
structure SetCode where
  code : UInt8
  seven : code < 0x80
  deriving DecidableEq

def SetCode.break (k : SetCode) : UInt8 := k.code ||| 0x80

inductive Key
  | plain (k : SetCode)
  | extended (k : SetCode)
  deriving DecidableEq

inductive Side
  | left
  | right
  deriving DecidableEq

def Side.shift : Side → SetCode
  | .left => ⟨0x2A, by decide⟩
  | .right => ⟨0x36, by decide⟩

-- What a keyboard tells about its keys. While a key is held its code may come again; Pause
-- has a sequence of its own and no release.
inductive KeyEvent
  | press (key : Key)
  | typematic (key : Key)
  | release (key : Key)
  | fakeMake (side : Side)
  | fakeBreak (side : Side)
  | pause
  deriving DecidableEq

def Key.make : Key → List UInt8
  | .plain k => [k.code]
  | .extended k => [0xE0, k.code]

def Key.break : Key → List UInt8
  | .plain k => [k.break]
  | .extended k => [0xE0, k.break]

def KeyEvent.bytes : KeyEvent → List UInt8
  | .press key => key.make
  | .typematic key => key.make
  | .release key => key.break
  | .fakeMake side => [0xE0, side.shift.code]
  | .fakeBreak side => [0xE0, side.shift.break]
  | .pause => [0xE1, 0x1D, 0x45, 0xE1, 0x9D, 0xC5]

-- The keys that are held, and whether caps lock is on.
structure Desk where
  held : List Key
  caps : Bool

def Desk.initial : Desk := ⟨[], false⟩

def Desk.shift (d : Desk) : Bool :=
  decide (Key.plain Side.left.shift ∈ d.held ∨ Key.plain Side.right.shift ∈ d.held)

def capsKey : Key := .plain ⟨0x3A, by decide⟩

def KeyEvent.act (d : Desk) : KeyEvent → Desk
  | .press key => ⟨key :: d.held, if key = capsKey then !d.caps else d.caps⟩
  | .release key => { d with held := d.held.filter (· ≠ key) }
  | _ => d

-- A key that is not held is pressed, one that is held repeats or is released, and the
-- fake shifts are no keys.
def KeyEvent.Possible (d : Desk) : KeyEvent → Prop
  | .press key => key ∉ d.held ∧ ∀ side : Side, key ≠ .extended side.shift
  | .typematic key => key ∈ d.held
  | .release key => key ∈ d.held
  | _ => True

def WellFormed : Desk → List KeyEvent → Prop
  | _, [] => True
  | d, e :: events => e.Possible d ∧ WellFormed (e.act d) events

-- The reference: of the extended keys, Enter and slash of the keypad have a character.
def Key.char (d : Desk) : Key → UInt8
  | .plain k => keyChar d.shift d.caps k.code
  | .extended k => if k.code = 0x1C then 10 else if k.code = 0x35 then chr '/' else 0

def KeyEvent.chars (d : Desk) : KeyEvent → List UInt8
  | .press key => emit (key.char d)
  | .typematic key => emit (key.char d)
  | _ => []

def referenceChars : Desk → List KeyEvent → List UInt8
  | _, [] => []
  | d, e :: events => e.chars d ++ referenceChars (e.act d) events

-- However often the calls come before there is a byte.
def DecodesRight (events : List KeyEvent) : Prop :=
  ∀ scans : List (Option UInt8), scans.reduceOption = events.flatMap KeyEvent.bytes →
    chars .initial scans = referenceChars .initial events

-- The state after the bytes, prefixes or not.
def afterBytes (s : KeyboardState) (bytes : List UInt8) : KeyboardState :=
  bytes.foldl (fun s sc => updateState sc s) s

-- Shift makes another character of it, and it is not a letter.
def ShiftMatters (sc : UInt8) : Prop := keymapShift sc ≠ 0 ∧ keymapShift sc ≠ keymap sc

-- What the state has to be for the key to get its character.
def Key.Agrees (s : KeyboardState) (d : Desk) : Key → Prop
  | .plain k =>
      if isLetter (keymap k.code) then (s.shiftDown ^^ s.capslock) = (d.shift ^^ d.caps)
      else ShiftMatters k.code → s.shiftDown = d.shift
  | .extended k => keymap k.code = 0 ∨ k.code = 0x1C ∨ k.code = 0x35 ∧ s.shiftDown = false

def KeyEvent.Agrees (s : KeyboardState) (d : Desk) : KeyEvent → Prop
  | .press key => key.Agrees s d
  | .typematic key => key.Agrees s d
  | _ => True

def AllAgree : KeyboardState → Desk → List KeyEvent → Prop
  | _, _, [] => True
  | s, d, e :: events =>
      e.Agrees s d ∧ AllAgree (afterBytes s e.bytes) (e.act d) events

theorem forall_byte {P : UInt8 → Prop} (h : ∀ c : Fin 256, P (UInt8.ofFin c)) (c : UInt8) :
    P c := by
  have hc := h c.toFin
  rwa [UInt8.ofFin_toFin] at hc

-- What has a character under shift has one without, and the letters are small ones.
theorem keymap_shift : ∀ c, keymapShift c ≠ 0 → keymap c ≠ 0 :=
  forall_byte (by decide +kernel)

theorem keymap_letter :
    ∀ c, isLetter (keymap c) = true → keymap c ≠ 0 ∧ keymap c - 32 ≠ 0 ∧
      keymap c - 32 ≠ keymap c :=
  forall_byte (by decide +kernel)

theorem break_bit : ∀ c : UInt8, (c ||| 0x80) &&& 0x80 ≠ 0 :=
  forall_byte (by decide +kernel)

theorem make_bit : ∀ c : UInt8, c < 0x80 → c &&& 0x80 = 0 :=
  forall_byte (by decide +kernel)

section Characters

variable {a a' b b' : Bool} {sc : UInt8}

theorem keyChar_eq_zero : keyChar a b sc = 0 ↔ keymap sc = 0 := by
  unfold keyChar
  by_cases hletter : isLetter (keymap sc) = true
  · obtain ⟨hch, hcapital, -⟩ := keymap_letter sc hletter
    rw [if_pos hletter]
    split
    · exact ⟨fun h => absurd h hcapital, fun h => absurd h hch⟩
    · rfl
  · rw [if_neg hletter]
    split
    · rename_i h
      have hshift : keymapShift sc ≠ 0 := by simpa using (Bool.and_eq_true_iff.mp h).2
      exact ⟨fun h => absurd h hshift, fun h => absurd h (keymap_shift sc hshift)⟩
    · rfl

theorem keyChar_letter (hletter : isLetter (keymap sc) = true) :
    keyChar a b sc = keyChar a' b' sc ↔ (a ^^ b) = (a' ^^ b') := by
  obtain ⟨-, -, hne⟩ := keymap_letter sc hletter
  unfold keyChar
  rw [if_pos hletter, if_pos hletter]
  cases a ^^ b <;> cases a' ^^ b' <;> simp [hne, Ne.symm hne]

theorem keyChar_other (hletter : isLetter (keymap sc) ≠ true) :
    keyChar a b sc = keyChar a' b' sc ↔ (ShiftMatters sc → a = a') := by
  unfold keyChar ShiftMatters
  rw [if_neg hletter, if_neg hletter]
  by_cases hshift : keymapShift sc = 0
  · simp [hshift]
  · by_cases hsame : keymapShift sc = keymap sc
    · cases a <;> cases a' <;> simp [hsame]
    · cases a <;> cases a' <;> simp [hshift, hsame, Ne.symm hsame]

-- The keys that change the state have no characters.
theorem updateState_quiet (s : KeyboardState) (h : keymap sc ≠ 0) : updateState sc s = s := by
  have hne : ∀ k, keymap k = 0 → sc ≠ k := fun k hk heq => h (heq ▸ hk)
  unfold updateState
  rw [if_neg (hne 0x2A rfl), if_neg (hne 0x36 rfl), if_neg (hne 0xAA rfl),
    if_neg (hne 0xB6 rfl), if_neg (hne 0x3A rfl)]

-- So it makes no difference whether the state changes first.
theorem keyChar_updateState (s : KeyboardState) :
    keyChar (updateState sc s).shiftDown (updateState sc s).capslock sc =
      keyChar s.shiftDown s.capslock sc := by
  by_cases h : keymap sc = 0
  · rw [keyChar_eq_zero.mpr h, keyChar_eq_zero.mpr h]
  · rw [updateState_quiet s h]

end Characters

section Bytes

-- The characters of a stream that never runs dry.
def sent : KeyboardState → List UInt8 → List UInt8
  | _, [] => []
  | s, sc :: bytes =>
      emit (keyboardPs2TryGetChar (some sc) s).2 ++ sent (updateState sc s) bytes

theorem chars_eq_sent (s : KeyboardState) (scans : List (Option UInt8)) :
    chars s scans = sent s scans.reduceOption := by
  induction scans generalizing s with
  | nil => rfl
  | cons scan scans ih =>
      cases scan with
      | none => exact ih s
      | some sc =>
          have hstate : (keyboardPs2TryGetChar (some sc) s).1 = updateState sc s := by
            simp only [keyboardPs2TryGetChar]
            split
            · rfl
            · split <;> rfl
          rw [List.reduceOption_cons_of_some, sent, ← ih, ← hstate]
          rfl

theorem sent_append (s : KeyboardState) (bytes rest : List UInt8) :
    sent s (bytes ++ rest) = sent s bytes ++ sent (afterBytes s bytes) rest := by
  induction bytes generalizing s with
  | nil => rfl
  | cons sc bytes ih =>
      rw [List.cons_append, sent, ih, sent, List.append_assoc]
      rfl

variable {s : KeyboardState}

-- Only a byte below 128 brings a character.
theorem sent_high {sc : UInt8} (h : sc &&& 0x80 ≠ 0) (bytes : List UInt8) :
    sent s (sc :: bytes) = sent (updateState sc s) bytes := by
  have hchar : (keyboardPs2TryGetChar (some sc) s).2 = 0 := by
    simp only [keyboardPs2TryGetChar, if_pos h]
  rw [sent, hchar]
  rfl

theorem sent_code (k : SetCode) :
    sent s [k.code] = emit (keyChar s.shiftDown s.capslock k.code) := by
  have hchar : (keyboardPs2TryGetChar (some k.code) s).2 =
      keyChar s.shiftDown s.capslock k.code := by
    simp only [keyboardPs2TryGetChar]
    rw [if_neg (not_not.mpr (make_bit k.code k.seven)), if_neg (not_not.mpr k.seven)]
    exact keyChar_updateState s
  rw [sent, sent, hchar, List.append_nil]

theorem sent_break (k : SetCode) : sent s [k.break] = [] :=
  sent_high (break_bit k.code) []

-- The prefix does nothing.
theorem sent_marked (bytes : List UInt8) : sent s (0xE0 :: bytes) = sent s bytes :=
  sent_high (by decide) bytes

end Bytes

section Events

variable {s : KeyboardState} {d : Desk}

theorem emit_zero : emit 0 = [] := rfl

theorem emit_length {ch : UInt8} (h : ch ≠ 0) : (emit ch).length = 1 := by
  rw [emit, if_neg h]
  rfl

theorem emit_inj {a b : UInt8} : emit a = emit b ↔ a = b := by
  unfold emit
  split <;> split <;> simp_all [eq_comm]

-- The characters that the code makes of a key.
theorem sent_make (key : Key) :
    sent s key.make = match key with
      | .plain k => emit (keyChar s.shiftDown s.capslock k.code)
      | .extended k => emit (keyChar s.shiftDown s.capslock k.code) := by
  cases key with
  | plain k => exact sent_code k
  | extended k => exact (sent_marked [k.code]).trans (sent_code k)

theorem keyChar_enter (a b : Bool) : keyChar a b 0x1C = 10 := by
  cases a <;> cases b <;> rfl

theorem keyChar_slash (a b : Bool) : keyChar a b 0x35 = chr '/' ↔ a = false := by
  cases a <;> cases b <;> decide

theorem agrees_iff (key : Key) : sent s key.make = emit (key.char d) ↔ key.Agrees s d := by
  rw [sent_make]
  cases key with
  | plain k =>
      show emit _ = emit (keyChar d.shift d.caps k.code) ↔ _
      rw [emit_inj, Key.Agrees]
      by_cases hletter : isLetter (keymap k.code) = true
      · rw [if_pos hletter]
        exact keyChar_letter hletter
      · rw [if_neg hletter]
        exact keyChar_other hletter
  | extended k =>
      show emit _ = emit (Key.char d (.extended k)) ↔ _
      rw [emit_inj, Key.Agrees, Key.char]
      by_cases henter : k.code = 0x1C
      · rw [if_pos henter, henter, keyChar_enter]
        exact ⟨fun _ => Or.inr (Or.inl rfl), fun _ => rfl⟩
      by_cases hslash : k.code = 0x35
      · rw [if_neg henter, if_pos hslash, hslash, keyChar_slash]
        have hmap : keymap 0x35 ≠ 0 := by decide +kernel
        simp [hmap]
      · rw [if_neg henter, if_neg hslash, keyChar_eq_zero]
        simp [henter, hslash]

-- The code has no fewer characters for a key than the reference.
theorem char_length_le (key : Key) :
    (emit (key.char d)).length ≤ (sent s key.make).length := by
  rw [sent_make]
  cases key with
  | plain k =>
      show (emit (keyChar d.shift d.caps k.code)).length ≤ (emit _).length
      by_cases h : keymap k.code = 0
      · rw [keyChar_eq_zero.mpr h]
        exact Nat.zero_le _
      · rw [emit_length (mt keyChar_eq_zero.mp h), emit_length (mt keyChar_eq_zero.mp h)]
  | extended k =>
      show (emit (Key.char d (.extended k))).length ≤ (emit _).length
      rw [Key.char]
      split
      · rename_i h
        rw [h, keyChar_enter]
      split
      · rename_i h
        have hmap : keymap 0x35 ≠ 0 := by decide +kernel
        rw [h, emit_length (mt keyChar_eq_zero.mp hmap), emit_length (by decide)]
      · exact Nat.zero_le _

theorem sent_fake (side : Side) :
    sent s [0xE0, side.shift.code] = [] ∧ sent s [0xE0, side.shift.break] = [] := by
  rw [sent_marked, sent_marked, sent_break, sent_code]
  refine ⟨?_, rfl⟩
  rw [keyChar_eq_zero.mpr (by cases side <;> rfl), emit_zero]

theorem sent_pause : sent s KeyEvent.pause.bytes = [] := by
  have hcontrol : keymap 0x1D = 0 := rfl
  have hnumlock : keymap 0x45 = 0 := rfl
  have hbytes : KeyEvent.pause.bytes = 0xE1 :: ([0x1D] ++ ([0x45] ++ [0xE1, 0x9D, 0xC5])) := rfl
  rw [hbytes, sent_high (by decide), sent_append, sent_append,
    sent_code ⟨0x1D, by decide⟩, sent_code ⟨0x45, by decide⟩, keyChar_eq_zero.mpr hcontrol,
    keyChar_eq_zero.mpr hnumlock, sent_high (by decide), sent_high (by decide),
    sent_high (by decide)]
  rfl

theorem sent_release (key : Key) : sent s key.break = [] := by
  cases key with
  | plain k => exact sent_break k
  | extended k => exact (sent_marked [k.break]).trans (sent_break k)

theorem event_agrees_iff (e : KeyEvent) : sent s e.bytes = e.chars d ↔ e.Agrees s d := by
  cases e with
  | press key => exact agrees_iff key
  | typematic key => exact agrees_iff key
  | release key => exact iff_of_true (sent_release key) trivial
  | fakeMake side => exact iff_of_true (sent_fake side).1 trivial
  | fakeBreak side => exact iff_of_true (sent_fake side).2 trivial
  | pause => exact iff_of_true sent_pause trivial

theorem event_length_le (e : KeyEvent) : (e.chars d).length ≤ (sent s e.bytes).length := by
  cases e with
  | press key => exact char_length_le key
  | typematic key => exact char_length_le key
  | release key => exact Nat.zero_le _
  | fakeMake side => exact Nat.zero_le _
  | fakeBreak side => exact Nat.zero_le _
  | pause => exact Nat.zero_le _

end Events

section Runs

theorem reference_length_le (s : KeyboardState) (d : Desk) (events : List KeyEvent) :
    (referenceChars d events).length ≤ (sent s (events.flatMap KeyEvent.bytes)).length := by
  induction events generalizing s d with
  | nil => exact Nat.zero_le _
  | cons e events ih =>
      rw [List.flatMap_cons, sent_append, referenceChars, List.length_append, List.length_append]
      exact Nat.add_le_add (event_length_le e) (ih _ _)

-- As no event has fewer characters than it is to have, the streams are equal only if each
-- event has its own.
theorem sent_eq_iff (s : KeyboardState) (d : Desk) (events : List KeyEvent) :
    sent s (events.flatMap KeyEvent.bytes) = referenceChars d events ↔ AllAgree s d events := by
  induction events generalizing s d with
  | nil => exact iff_of_true rfl trivial
  | cons e events ih =>
      rw [List.flatMap_cons, sent_append, referenceChars, AllAgree, ← event_agrees_iff, ← ih]
      constructor
      · intro h
        have hlength := congrArg List.length h
        rw [List.length_append, List.length_append] at hlength
        have hhead : (e.chars d).length ≤ (sent s e.bytes).length := event_length_le e
        have hrest := reference_length_le (afterBytes s e.bytes) (e.act d) events
        exact List.append_inj h (by omega)
      · rintro ⟨hhead, hrest⟩
        rw [hhead, hrest]

theorem keyboard_decodes_iff (events : List KeyEvent) :
    DecodesRight events ↔ AllAgree .initial .initial events := by
  rw [← sent_eq_iff]
  constructor
  · intro h
    have hsome : ((events.flatMap KeyEvent.bytes).map some).reduceOption =
        events.flatMap KeyEvent.bytes := by simp [List.reduceOption]
    rw [← h _ hsome, chars_eq_sent, hsome]
  · intro h scans hscans
    rw [chars_eq_sent, hscans, h]

-- The arrow has the scan code of the 8 of the keypad, behind a prefix.
theorem arrow_types_digit :
    WellFormed .initial [.press (.extended ⟨0x48, by decide⟩)] ∧
      ¬ DecodesRight [.press (.extended ⟨0x48, by decide⟩)] := by
  refine ⟨⟨⟨List.not_mem_nil, fun side h => ?_⟩, trivial⟩, fun h => ?_⟩
  · cases side <;> exact absurd h (by decide)
  · have hchars := h [some 0xE0, some 0x48] rfl
    exact absurd hchars (by decide +kernel)

end Runs

section Ordinary

-- The state is that of the keys held.
structure Faithful (s : KeyboardState) (d : Desk) : Prop where
  left : s.lshift = decide (Key.plain Side.left.shift ∈ d.held)
  right : s.rshift = decide (Key.plain Side.right.shift ∈ d.held)
  caps : s.capslock = d.caps
  real : ∀ side : Side, Key.extended side.shift ∉ d.held

-- No fake shifts, caps lock does not repeat, and of the extended keys that have a character
-- without the prefix only Enter.
def KeyEvent.Ordinary : KeyEvent → Prop
  | .press (.extended k) => keymap k.code = 0 ∧ k.code ≠ 0x3A ∨ k.code = 0x1C
  | .typematic (.extended k) => keymap k.code = 0 ∧ k.code ≠ 0x3A ∨ k.code = 0x1C
  | .typematic key => key ≠ capsKey
  | .fakeMake _ => False
  | .fakeBreak _ => False
  | _ => True

variable {s : KeyboardState} {d : Desk}

theorem Faithful.shiftDown (h : Faithful s d) : s.shiftDown = d.shift := by
  rw [KeyboardState.shiftDown, Desk.shift, h.left, h.right, Bool.decide_or]

theorem Faithful.agrees (h : Faithful s d) {e : KeyEvent} (he : e.Ordinary) : e.Agrees s d := by
  have hkey : ∀ k, (Key.plain k).Agrees s d := by
    intro k
    rw [Key.Agrees]
    split
    · rw [h.shiftDown, h.caps]
    · exact fun _ => h.shiftDown
  have hextended : ∀ k : SetCode, keymap k.code = 0 ∧ k.code ≠ 0x3A ∨ k.code = 0x1C →
      (Key.extended k).Agrees s d := by
    rintro k (⟨hnone, -⟩ | henter)
    · exact Or.inl hnone
    · exact Or.inr (Or.inl henter)
  cases e with
  | press key =>
      cases key with
      | plain k => exact hkey k
      | extended k => exact hextended k he
  | typematic key =>
      cases key with
      | plain k => exact hkey k
      | extended k => exact hextended k he
  | release key => trivial
  | fakeMake side => trivial
  | fakeBreak side => trivial
  | pause => trivial

theorem SetCode.code_iff (k k' : SetCode) : k = k' ↔ k.code = k'.code := by
  cases k
  cases k'
  exact SetCode.mk.injEq ..▸ Iff.rfl

theorem break_code : ∀ c : UInt8, c < 0x80 →
    c ||| 0x80 ≠ 0x2A ∧ c ||| 0x80 ≠ 0x36 ∧ c ||| 0x80 ≠ 0x3A ∧
      (c ||| 0x80 = 0xAA ↔ c = 0x2A) ∧ (c ||| 0x80 = 0xB6 ↔ c = 0x36) :=
  forall_byte (by decide +kernel)

theorem updateState_make (k : SetCode) (s : KeyboardState) :
    updateState k.code s =
      ⟨decide (k.code = 0x2A) || s.lshift, decide (k.code = 0x36) || s.rshift,
        decide (k.code = 0x3A) ^^ s.capslock⟩ := by
  have hleft : k.code ≠ 0xAA := fun h => absurd (h ▸ k.seven) (by decide)
  have hright : k.code ≠ 0xB6 := fun h => absurd (h ▸ k.seven) (by decide)
  unfold updateState
  rw [if_neg hleft, if_neg hright]
  by_cases h2A : k.code = 0x2A
  · simp [h2A]
  by_cases h36 : k.code = 0x36
  · simp [h36]
  by_cases h3A : k.code = 0x3A
  · simp [h3A]
  · simp [h2A, h36, h3A]

theorem updateState_break (k : SetCode) (s : KeyboardState) :
    updateState k.break s =
      ⟨!decide (k.code = 0x2A) && s.lshift, !decide (k.code = 0x36) && s.rshift, s.capslock⟩ := by
  obtain ⟨h2A, h36, h3A, hleft, hright⟩ := break_code k.code k.seven
  unfold updateState SetCode.break
  rw [if_neg h2A, if_neg h36, if_neg h3A]
  simp only [hleft, hright]
  by_cases hl : k.code = 0x2A
  · simp [hl]
  by_cases hr : k.code = 0x36
  · simp [hr]
  · simp [hl, hr]

-- A prefix and a code that is none of a shift key or caps lock change nothing.
theorem after_extended {k : SetCode} (s : KeyboardState)
    (hshift : ∀ side : Side, Key.extended k ≠ .extended side.shift) :
    (k.code ≠ 0x3A → afterBytes s (Key.extended k).make = s) ∧
      afterBytes s (Key.extended k).break = s := by
  have hleft : k.code ≠ 0x2A := fun h =>
    hshift .left (congrArg Key.extended ((SetCode.code_iff k _).mpr h))
  have hright : k.code ≠ 0x36 := fun h =>
    hshift .right (congrArg Key.extended ((SetCode.code_iff k _).mpr h))
  constructor
  · intro hcaps
    show updateState k.code s = s
    rw [updateState_make]
    simp [hleft, hright, hcaps]
  · show updateState k.break s = s
    rw [updateState_break]
    simp [hleft, hright]

theorem plain_shift_iff (side : Side) (k : SetCode) :
    Key.plain side.shift = .plain k ↔ k.code = side.shift.code := by
  rw [Key.plain.injEq, SetCode.code_iff]
  exact eq_comm

theorem Faithful.after_plain (h : Faithful s d) (k : SetCode) :
    Faithful (afterBytes s (Key.plain k).make) ((KeyEvent.press (.plain k)).act d) := by
  have hafter : afterBytes s (Key.plain k).make = updateState k.code s := rfl
  rw [hafter, updateState_make]
  constructor
  · show _ = decide (_ ∈ Key.plain k :: d.held)
    simp only [List.mem_cons, plain_shift_iff, Bool.decide_or, h.left]
    rfl
  · show _ = decide (_ ∈ Key.plain k :: d.held)
    simp only [List.mem_cons, plain_shift_iff, Bool.decide_or, h.right]
    rfl
  · show (decide (k.code = 0x3A) ^^ s.capslock) = if Key.plain k = capsKey then !d.caps else d.caps
    have hcaps : Key.plain k = capsKey ↔ k.code = 0x3A := by
      rw [capsKey, Key.plain.injEq, SetCode.code_iff]
    rw [h.caps]
    by_cases h3A : k.code = 0x3A <;> simp [hcaps, h3A]
  · intro side hmem
    rcases List.mem_cons.mp hmem with heq | hmem
    · cases heq
    · exact h.real side hmem

theorem Faithful.after_release (h : Faithful s d) (k : SetCode) :
    Faithful (afterBytes s (Key.plain k).break) ((KeyEvent.release (.plain k)).act d) := by
  have hafter : afterBytes s (Key.plain k).break = updateState k.break s := rfl
  rw [hafter, updateState_break]
  constructor
  · show _ = decide (_ ∈ d.held.filter (· ≠ Key.plain k))
    simp only [List.mem_filter, ne_eq, plain_shift_iff, h.left, Bool.decide_and, decide_not,
      Bool.decide_eq_true]
    rw [Bool.and_comm]
    rfl
  · show _ = decide (_ ∈ d.held.filter (· ≠ Key.plain k))
    simp only [List.mem_filter, ne_eq, plain_shift_iff, h.right, Bool.decide_and, decide_not,
      Bool.decide_eq_true]
    rw [Bool.and_comm]
    rfl
  · exact h.caps
  · exact fun side hmem => h.real side (List.mem_filter.mp hmem).1

-- A code that repeats changes nothing, unless it is that of caps lock.
theorem Faithful.after_typematic (h : Faithful s d) {k : SetCode} (hheld : Key.plain k ∈ d.held)
    (hcaps : Key.plain k ≠ capsKey) : afterBytes s (Key.plain k).make = s := by
  have hafter : afterBytes s (Key.plain k).make = updateState k.code s := rfl
  rw [hafter, updateState_make]
  have h3A : k.code ≠ 0x3A := by
    rwa [capsKey, ne_eq, Key.plain.injEq, SetCode.code_iff] at hcaps
  have hleft : k.code = 0x2A → s.lshift = true := by
    intro hcode
    rw [h.left, (plain_shift_iff .left k).mpr hcode]
    exact decide_eq_true hheld
  have hright : k.code = 0x36 → s.rshift = true := by
    intro hcode
    rw [h.right, (plain_shift_iff .right k).mpr hcode]
    exact decide_eq_true hheld
  have hl : (decide (k.code = 0x2A) || s.lshift) = s.lshift := by
    by_cases hcode : k.code = 0x2A
    · rw [hleft hcode, Bool.or_true]
    · rw [decide_eq_false hcode, Bool.false_or]
  have hr : (decide (k.code = 0x36) || s.rshift) = s.rshift := by
    by_cases hcode : k.code = 0x36
    · rw [hright hcode, Bool.or_true]
    · rw [decide_eq_false hcode, Bool.false_or]
  rw [hl, hr, decide_eq_false h3A, Bool.false_xor]

-- What happens to an extended key that is no fake shift concerns neither shift nor caps lock.
theorem Faithful.with_extended (h : Faithful s d) {held : List Key} (hreal : ∀ side : Side,
    Key.extended side.shift ∉ held) (hplain : ∀ k, Key.plain k ∈ held ↔ Key.plain k ∈ d.held) :
    Faithful s ⟨held, d.caps⟩ := by
  constructor
  · rw [h.left]
    simp only [hplain]
  · rw [h.right]
    simp only [hplain]
  · exact h.caps
  · exact hreal

theorem ordinary_not_caps {k : SetCode} (h : keymap k.code = 0 ∧ k.code ≠ 0x3A ∨ k.code = 0x1C) :
    k.code ≠ 0x3A := by
  rcases h with h | h
  · exact h.2
  · rw [h]
    decide

theorem Faithful.step (h : Faithful s d) {e : KeyEvent} (hpossible : e.Possible d)
    (hordinary : e.Ordinary) : Faithful (afterBytes s e.bytes) (e.act d) := by
  cases e with
  | press key =>
      cases key with
      | plain k => exact h.after_plain k
      | extended k =>
          have hkeep := (after_extended s hpossible.2).1 (ordinary_not_caps hordinary)
          have hne : Key.extended k ≠ capsKey := fun heq => by cases heq
          show Faithful (afterBytes s (Key.extended k).make)
            ⟨.extended k :: d.held, if Key.extended k = capsKey then !d.caps else d.caps⟩
          rw [hkeep, if_neg hne]
          apply h.with_extended
          · intro side hmem
            rcases List.mem_cons.mp hmem with heq | hmem
            · exact hpossible.2 side heq.symm
            · exact h.real side hmem
          · intro k'
            simp
  | typematic key =>
      cases key with
      | plain k =>
          show Faithful (afterBytes s (Key.plain k).make) d
          rwa [h.after_typematic hpossible hordinary]
      | extended k =>
          show Faithful (afterBytes s (Key.extended k).make) d
          have hshift : ∀ side : Side, Key.extended k ≠ .extended side.shift := by
            rintro side heq
            exact h.real side (heq ▸ hpossible)
          rwa [(after_extended s hshift).1 (ordinary_not_caps hordinary)]
  | release key =>
      cases key with
      | plain k => exact h.after_release k
      | extended k =>
          have hshift : ∀ side : Side, Key.extended k ≠ .extended side.shift := by
            rintro side heq
            exact h.real side (heq ▸ hpossible)
          show Faithful (afterBytes s (Key.extended k).break)
            ⟨d.held.filter (· ≠ Key.extended k), d.caps⟩
          rw [(after_extended s hshift).2]
          apply h.with_extended
          · exact fun side hmem => h.real side (List.mem_filter.mp hmem).1
          · intro k'
            simp
  | fakeMake side => exact absurd hordinary id
  | fakeBreak side => exact absurd hordinary id
  | pause => exact h

-- Without extended keys that have characters, fake shifts and a caps lock that repeats,
-- every stream is decoded right.
theorem ordinary_agree {events : List KeyEvent} (hformed : WellFormed d events)
    (hordinary : ∀ e ∈ events, e.Ordinary) (h : Faithful s d) : AllAgree s d events := by
  induction events generalizing s d with
  | nil => trivial
  | cons e events ih =>
      have he := hordinary e List.mem_cons_self
      refine ⟨h.agrees he, ?_⟩
      apply ih hformed.2
      · exact fun e' hmem => hordinary e' (List.mem_cons_of_mem e hmem)
      · exact h.step hformed.1 he

end Ordinary

end AosKernel.Io
