import Mathlib.Algebra.Group.Nat.Defs
import Mathlib.Data.List.Basic

namespace AosKernel.Boot

-- CHAR16, and the char that the vmem functions take, which is signed.
abbrev Char16 := BitVec 16
abbrev Char8 := BitVec 8

def Char8.wide (c : Char8) : Char16 := c.signExtend 16

-- What the console functions use of a design.
structure VMemDesign where
  x : Nat
  y : Nat
  fg : Nat
  bg : Nat

def VMemDesign.attr (design : VMemDesign) : Nat := design.bg <<< 4 ||| design.fg

def VMemDesign.newline (design : VMemDesign) : VMemDesign :=
  { design with x := 0, y := design.y + 1 }

def VMemDesign.next (design : VMemDesign) : VMemDesign := { design with x := design.x + 1 }

structure Cell where
  c : Char16
  attr : Nat
  deriving DecidableEq

-- The cells of a screen on which nothing wraps or scrolls.
abbrev Screen := Nat → Nat → Cell

def Screen.put (screen : Screen) (x y : Nat) (cell : Cell) : Screen :=
  fun x' y' => if x' = x ∧ y' = y then cell else screen x' y'

def Screen.blank (attr : Nat) : Screen := fun _ _ => ⟨0x20, attr⟩

-- ConOut of the firmware.
structure ConOut where
  screen : Screen
  x : Nat
  y : Nat
  attr : Nat

namespace ConOut

def setAttribute (out : ConOut) (attr : Nat) : ConOut := { out with attr := attr }

def setCursorPosition (out : ConOut) (x y : Nat) : ConOut := { out with x := x, y := y }

def clearScreen (out : ConOut) : ConOut := { out with screen := .blank out.attr, x := 0, y := 0 }

-- Backspace, line feed and carriage return only move the cursor.
def outputChar (out : ConOut) (c : Char16) : ConOut :=
  if c = 0x08 then { out with x := out.x - 1 }
  else if c = 0x0A then { out with y := out.y + 1 }
  else if c = 0x0D then { out with x := 0 }
  else { out with screen := out.screen.put out.x out.y ⟨c, out.attr⟩, x := out.x + 1 }

def outputString (out : ConOut) : List Char16 → ConOut
  | [] => out
  | c :: str => if c = 0 then out else (out.outputChar c).outputString str

end ConOut

-- vmem_c_buf.
structure BufChar where
  c : Char16
  x : Nat
  y : Nat
  attr : Nat

-- The static data of stdlib_freestanding.c and the device. `buf` holds the
-- first buf_ptr entries; `initialized` is pefi_state.initialized == 1.
structure Console where
  initialized : Bool
  buf : List BufChar
  lastX : Nat
  lastY : Nat
  lastAttr : Nat
  device : ConOut

section Functions

-- pefi_print of the UEFI library, as it acts on the device.
variable (pefiPrint : ConOut → List Char16 → ConOut)

-- The lines in front of every pefi_print.
def Console.seek (s : Console) (x y attr : Nat) : Console :=
  let s := if s.lastAttr ≠ attr then
      { s with device := s.device.setAttribute attr, lastAttr := attr } else s
  if s.lastX ≠ x ∨ s.lastY ≠ y then
    { s with device := s.device.setCursorPosition x y, lastX := x, lastY := y }
  else s

def Console.print (s : Console) (str : List Char16) : Console :=
  { s with device := pefiPrint s.device str }

-- The inner loop of vmem_flush, at `len`: the string and what is left of the buffer.
def takeRun (attr x y : Nat) : Nat → List BufChar → List Char16 × List BufChar
  | _, [] => ([], [])
  | len, b :: rest =>
      if len < 127 ∧ b.attr = attr ∧ b.y = y ∧ b.x = x + len then
        let (strbuf, rest') := takeRun attr x y (len + 1) rest
        (b.c :: strbuf, rest')
      else ([], b :: rest)

-- The outer loop; every turn takes an entry at least.
def flushRuns : Nat → Console → List BufChar → Console
  | 0, s, _ => s
  | _, s, [] => s
  | turns + 1, s, first :: rest =>
      let (strbuf, rest') := takeRun first.attr first.x first.y 0 (first :: rest)
      let s := (s.seek first.x first.y first.attr).print pefiPrint strbuf
      flushRuns turns { s with lastX := s.lastX + strbuf.length } rest'

def vmemFlush (s : Console) : Console :=
  if s.initialized = false ∨ s.buf = [] then s
  else { flushRuns pefiPrint s.buf.length s s.buf with buf := [] }

-- The last lines of vmem_printc and vmem_printwc.
def Console.push (s : Console) (design : VMemDesign) (c : Char16) : Console :=
  let s := if s.buf.length ≥ 64 then vmemFlush pefiPrint s else s
  { s with buf := s.buf ++ [⟨c, design.x, design.y, design.attr⟩] }

def vmemPrintc (s : Console) (design : VMemDesign) (c : Char8) : Console × VMemDesign :=
  if s.initialized = false then (s, design)
  else if c = 0x0A then (s, design.newline)
  else (s.push pefiPrint design c.wide, design.next)

-- `c` is the character at the address `addr`; it is the address that is
-- compared with '\n'.
def vmemPrintwc (s : Console) (design : VMemDesign) (addr : Nat) (c : Char16) :
    Console × VMemDesign :=
  if s.initialized = false then (s, design)
  else if addr = 0x0A then (s, design.newline)
  else (s.push pefiPrint design c, design.next)

-- The loop of vmem_print over a string.
def wideString : VMemDesign → List Char8 → List Char16 × VMemDesign
  | design, [] => ([], design)
  | design, c :: str =>
      if c = 0 then ([], design)
      else if c = 0x0A then
        let (wc, design) := wideString design.newline str
        (0x0A :: 0x0D :: wc, design)
      else
        let (wc, design) := wideString design.next str
        (c.wide :: wc, design)

def vmemPrint (s : Console) (design : VMemDesign) (str : List Char8) : Console × VMemDesign :=
  if s.initialized = false then (s, design)
  else
    let s := (vmemFlush pefiPrint s).seek design.x design.y design.attr
    let (wc, design) := wideString design str
    (s.print pefiPrint wc, design)

def vmemClearScreen (s : Console) (design : VMemDesign) : Console × VMemDesign :=
  let s := if s.lastAttr ≠ design.attr then
      { s with device := s.device.setAttribute design.attr, lastAttr := design.attr } else s
  let s := { s with device := s.device.clearScreen.setCursorPosition 0 0 }
  ({ s with lastX := 0, lastY := 0 }, { design with x := 0, y := 0 })

end Functions

-- A call with the design as the caller has it.
inductive ConsoleCall
  | printc (design : VMemDesign) (c : Char8)
  | printwc (design : VMemDesign) (addr : Nat) (c : Char16)
  | print (design : VMemDesign) (str : List Char8)
  | clearScreen (design : VMemDesign)
  | flush

def ConsoleCall.run (pefiPrint : ConOut → List Char16 → ConOut) (s : Console) :
    ConsoleCall → Console
  | .printc design c => (vmemPrintc pefiPrint s design c).1
  | .printwc design addr c => (vmemPrintwc pefiPrint s design addr c).1
  | .print design str => (vmemPrint pefiPrint s design str).1
  | .clearScreen design => (vmemClearScreen s design).1
  | .flush => vmemFlush pefiPrint s

end AosKernel.Boot
