import Mathlib.Algebra.Group.Nat.Defs
import Mathlib.Data.BitVec
import Mathlib.Data.List.Basic

namespace AosKernel.Io

-- The characters are bytes.
abbrev Text := List UInt8

def chr (c : Char) : UInt8 := c.toNat.toUInt8

def text (s : String) : Text := s.toList.map chr

def kcIsPrintable (c : UInt8) : Bool := decide (32 ≤ c) && decide (c ≤ 126)

def digitChar (caps : Bool) (digit : Nat) : UInt8 :=
  if digit < 10 then chr '0' + digit.toUInt8
  else (if caps then chr 'A' else chr 'a') + (digit - 10).toUInt8

-- The digits as the loop writes them, lowest first. There is room for `room`.
def digitsFrom (base : Nat) (caps : Bool) : Nat → Nat → Text
  | 0, _ => []
  | room + 1, val =>
      digitChar caps (val % base) ::
        if val / base = 0 then [] else digitsFrom base caps room (val / base)

theorem digitsFrom_length {base : Nat} (caps : Bool) {val n : Nat} (room : Nat)
    (h : val < base ^ (n + 1)) : (digitsFrom base caps room val).length ≤ n + 1 := by
  induction room generalizing val n with
  | zero => exact Nat.zero_le _
  | succ room ih =>
      rw [digitsFrom, List.length_cons]
      split
      · exact Nat.succ_le_succ (Nat.zero_le _)
      · rename_i hdiv
        cases n with
        | zero =>
            rw [Nat.zero_add, Nat.pow_one] at h
            exact absurd (Nat.div_eq_of_lt h) hdiv
        | succ n =>
            rw [Nat.pow_succ] at h
            exact Nat.succ_le_succ (ih (Nat.div_lt_of_lt_mul (Nat.mul_comm .. ▸ h)))

-- Digits, sign and the byte behind them have to stay below `maxSize`.
def digitsToStr (neg : Bool) (val maxSize base : Nat) (caps : Bool) : Option Text :=
  let out := digitsFrom base caps maxSize val ++ if neg then [chr '-'] else []
  if out.length + 1 ≥ maxSize then none else some out.reverse

def ku64ToStr (v : BitVec 64) (maxSize base : Nat) (caps : Bool) : Option Text :=
  digitsToStr false v.toNat maxSize base caps

def ki64ToStr (v : BitVec 64) (maxSize base : Nat) (caps : Bool) : Option Text :=
  if base = 10 ∧ v.toInt < 0 then digitsToStr true (-v.toInt).toNat maxSize base caps
  else digitsToStr false v.toNat maxSize base caps

-- serial_print_ex_string, vmem_print_ex_string and pyrion_builtin_print_ex_string,
-- which are alike.
def printExString (str : Text) (width : Int) (zeroPad : Bool) : Text :=
  let neg := decide (str.head? = some (chr '-'))
  if width > str.length then
    let padding := (width - str.length).toNat
    if zeroPad && neg then chr '-' :: (List.replicate padding (chr '0') ++ str.tail)
    else List.replicate padding (if zeroPad then chr '0' else chr ' ') ++ str
  else str

def printExInteger (val : BitVec 64) (base : Nat) (width : Int) (zeroPad isSigned caps : Bool) :
    Text :=
  match if isSigned then ki64ToStr val 64 base caps else ku64ToStr val 64 base caps with
  | none => []
  | some str => printExString str width zeroPad

-- What stands between a percent sign and the end of its conversion.
structure Spec where
  zeroPad : Bool
  width : Int
  precision : Int
  isLong : Nat
  conv : UInt8
  deriving DecidableEq

-- The cases of the switch statements.
inductive Conversion
  | char
  | str
  | bytes
  | signed
  | unsigned
  | signedCaps
  | unsignedCaps
  | hex
  | hexCaps
  | pointer
  | double
  | percent
  | other
  deriving DecidableEq

def conversion (c : UInt8) : Conversion :=
  if c = chr 'c' then .char
  else if c = chr 's' then .str
  else if c = chr 'S' then .bytes
  else if c = chr 'i' ∨ c = chr 'd' then .signed
  else if c = chr 'u' then .unsigned
  else if c = chr 'I' ∨ c = chr 'D' then .signedCaps
  else if c = chr 'U' then .unsignedCaps
  else if c = chr 'x' then .hex
  else if c = chr 'X' then .hexCaps
  else if c = chr 'p' then .pointer
  else if c = chr 'f' then .double
  else if c = chr '%' then .percent
  else .other

-- An int of the code.
def wrapInt (x : Int) : Int := x.bmod (2 ^ 32)

def isDigit (c : UInt8) : Bool := decide (chr '0' ≤ c) && decide (c ≤ chr '9')

-- The text is the memory from the format string on. There is no result where
-- the code would read behind it.
def readNumber (n : Int) : Text → Option (Int × Text)
  | [] => none
  | c :: mem =>
      if isDigit c then readNumber (wrapInt (n * 10 + (c - chr '0').toNat)) mem
      else some (n, c :: mem)

def readLongs (isLong : Nat) : Text → Option (Nat × Text)
  | [] => none
  | c :: mem => if c = chr 'l' then readLongs (isLong + 1) mem else some (isLong, c :: mem)

def readPrecision : Text → Option (Int × Text)
  | [] => none
  | c :: mem => if c = chr '.' then readNumber 0 mem else some (0, c :: mem)

def readFlag : Text → Option (Bool × Text)
  | [] => none
  | c :: mem => if c = chr '0' then some (true, mem) else some (false, c :: mem)

def readSpec (mem : Text) : Option (Spec × Text) := do
  let (zeroPad, mem) ← readFlag mem
  let (width, mem) ← readNumber 0 mem
  let (precision, mem) ← readPrecision mem
  let (isLong, mem) ← readLongs 0 mem
  match mem with
  | [] => none
  | conv :: mem => some (⟨zeroPad, width, precision, isLong, conv⟩, mem)

inductive Item
  | literal (c : UInt8)
  | spec (spec : Spec)
  deriving DecidableEq

-- The outer loop, which is the same in the three functions. It stops at a NUL,
-- but not at one that stands in the place of a conversion.
def formatItemsWithin : Nat → Text → Option (List Item)
  | 0, _ => none
  | _ + 1, [] => none
  | fuel + 1, c :: mem =>
      if c = 0 then some []
      else if c = chr '%' then do
        let (spec, mem) ← readSpec mem
        let items ← formatItemsWithin fuel mem
        return .spec spec :: items
      else do
        let items ← formatItemsWithin fuel mem
        return .literal c :: items

def formatItems (mem : Text) : Option (List Item) := formatItemsWithin mem.length mem

-- A string is NULL or the memory that it points to.
inductive Arg
  | int (v : BitVec 32)
  | long (v : BitVec 64)
  | str (s : Option Text)

-- va_arg of an integer, where `extend` is the conversion of the shorter one. An
-- argument of another type has no value.
def vaInteger (extend : BitVec 32 → BitVec 64) (isLong : Nat) :
    List Arg → Option (BitVec 64 × List Arg)
  | .int v :: args => if isLong ≥ 1 then none else some (extend v, args)
  | .long v :: args => if isLong ≥ 1 then some (v, args) else none
  | _ => none

def cString (s : Text) : Option Text := if 0 ∈ s then some (s.takeWhile (· ≠ 0)) else none

-- How many characters %S prints. The width is compared with a size_t.
def Spec.count (spec : Spec) : Nat := (BitVec.ofInt 64 spec.width).toNat

-- A character of %S. A char is signed.
def escape (caps zeroPad : Bool) (c : UInt8) : Text :=
  if kcIsPrintable c then [c]
  else
    chr '\\' :: chr 'x' :: printExInteger (c.toBitVec.signExtend 64) 16 2 zeroPad false caps

-- The output of serial_printf, with the carriage returns that are inserted.
structure Sent where
  char : UInt8
  inserted : Bool
  deriving DecidableEq

def serialPrintc (c : UInt8) : Sent := ⟨c, false⟩

def serialPrint (s : Text) : List Sent :=
  s.flatMap fun c =>
    if c = chr '\n' then [⟨chr '\r', true⟩, serialPrintc c] else [serialPrintc c]

-- The switch of serial_printf and of vmem_printf, which print characters with
-- `printc` and strings with `print`.
def ioConvert {α : Type} (printc : UInt8 → α) (print : Text → List α) (hexSigned : Bool)
    (spec : Spec) (args : List Arg) : Option (List α × List Arg) :=
  let integer (extend : BitVec 32 → BitVec 64) (base : Nat) (isSigned caps : Bool) :=
    (vaInteger extend spec.isLong args).map fun (v, args) =>
      ((printExInteger v base spec.width spec.zeroPad isSigned caps).map printc, args)
  match conversion spec.conv with
  | .char =>
      match args with
      | .int v :: args => some ([printc (UInt8.ofBitVec (v.setWidth 8))], args)
      | _ => none
  | .str =>
      match args with
      | .str none :: args => some (print (text "(NULL)"), args)
      | .str (some s) :: args => (cString s).map fun s => (print s, args)
      | _ => none
  | .bytes =>
      match args with
      | .str none :: args => some (print (text "(NULL)"), args)
      | .str (some s) :: args =>
          if spec.count ≤ s.length then
            some (((s.take spec.count).flatMap (escape true spec.zeroPad)).map printc, args)
          else none
      | _ => none
  | .signed => integer (BitVec.signExtend 64) 10 true false
  | .unsigned => integer (BitVec.setWidth 64) 10 false false
  | .signedCaps => integer (BitVec.signExtend 64) 10 true true
  | .unsignedCaps => integer (BitVec.setWidth 64) 10 false true
  | .hex => integer (BitVec.setWidth 64) 16 hexSigned false
  | .hexCaps => integer (BitVec.setWidth 64) 16 hexSigned true
  | .pointer =>
      match args with
      | .long p :: args =>
          let width := if spec.width = 0 then 16 else spec.width
          some (print (text "0x") ++ (printExInteger p 16 width true hexSigned true).map printc, args)
      | _ => none
  -- Floating point is left out.
  | .double => none
  | .percent => some ([printc (chr '%')], args)
  | .other => some ([printc spec.conv], args)

def serialConvert : Spec → List Arg → Option (List Sent × List Arg) :=
  ioConvert serialPrintc serialPrint true

def vmemConvert : Spec → List Arg → Option (Text × List Arg) :=
  ioConvert id id false

-- The switch of pyrion_builtin_printf, on a device that accepts every character.
def pyrionConvert (spec : Spec) (args : List Arg) : Option (Text × List Arg) :=
  let integer (extend : BitVec 32 → BitVec 64) (base : Nat) (isSigned caps : Bool) :=
    (vaInteger extend spec.isLong args).map fun (v, args) =>
      (printExInteger v base spec.width spec.zeroPad isSigned caps, args)
  match conversion spec.conv with
  | .char =>
      match args with
      | .int v :: args => some ([UInt8.ofBitVec (v.setWidth 8)], args)
      | _ => none
  | .str =>
      match args with
      | .str none :: args => some (text "(NULL)", args)
      | .str (some s) :: args => (cString s).map fun s => (s, args)
      | _ => none
  | .bytes =>
      match args with
      | .str none :: args => some (text "(NULL)", args)
      | .str (some s) :: args =>
          if spec.count ≤ s.length then
            some ((s.take spec.count).flatMap (escape false spec.zeroPad), args)
          else none
      | _ => none
  | .signed => integer (BitVec.signExtend 64) 10 true false
  | .unsigned => integer (BitVec.setWidth 64) 10 false false
  | .hex => integer (BitVec.setWidth 64) 16 false false
  | .hexCaps => integer (BitVec.setWidth 64) 16 false true
  | .pointer =>
      match args with
      | .long p :: args =>
          let width := if spec.width = 0 then 16 else spec.width
          some (printExInteger p 16 width true false true, args)
      | _ => none
  | .double => none
  | .percent => some ([chr '%'], args)
  -- There are no cases for I, D and U.
  | .signedCaps | .unsignedCaps | .other => some ([spec.conv], args)

def printfItems {α : Type} (printc : UInt8 → α)
    (convert : Spec → List Arg → Option (List α × List Arg)) :
    List Item → List Arg → Option (List α)
  | [], _ => some []
  | .literal c :: items, args => (printfItems printc convert items args).map (printc c :: ·)
  | .spec spec :: items, args => do
      let (out, args) ← convert spec args
      let rest ← printfItems printc convert items args
      return out ++ rest

def serialPrintf (mem : Text) (args : List Arg) : Option (List Sent) := do
  printfItems serialPrintc serialConvert (← formatItems mem) args

def vmemPrintf (mem : Text) (args : List Arg) : Option Text := do
  printfItems id vmemConvert (← formatItems mem) args

def pyrionBuiltinPrintf (mem : Text) (args : List Arg) : Option Text := do
  printfItems id pyrionConvert (← formatItems mem) args

end AosKernel.Io
