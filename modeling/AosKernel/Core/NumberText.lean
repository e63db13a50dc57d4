import AosKernel.Io.Formatters
import Mathlib.Data.List.TakeWhile
import Mathlib.Data.Nat.Digits.Defs

namespace AosKernel.Core

open AosKernel.Io

-- A char is signed, but the bytes from 128 on are in no range either way.
def kcharToDigit (c : UInt8) : Int :=
  if chr '0' ≤ c ∧ c ≤ chr '9' then (c.toNat : Int) - (chr '0').toNat
  else if chr 'a' ≤ c ∧ c ≤ chr 'z' then (c.toNat : Int) - (chr 'a').toNat + 10
  else if chr 'A' ≤ c ∧ c ≤ chr 'Z' then (c.toNat : Int) - (chr 'A').toNat + 10
  else -1

-- How the digit loop ends, which kstr_to_u64 and kstr_to_i64 have alike.
inductive DigitLoop
  | value (result : BitVec 64)
  | overflow
  deriving DecidableEq

def uint64Max : BitVec 64 := BitVec.allOnes 64

def int64Max : BitVec 64 := BitVec.intMax 64

def int64Min : BitVec 64 := BitVec.intMin 64

-- The text is the memory from the string on. There is no result where the code
-- would read behind it.
def digitLoop (base : Int) (result : BitVec 64) : Text → Option DigitLoop
  | [] => none
  | c :: mem =>
      if c = 0 then some (.value result)
      else
        let digit := kcharToDigit c
        if digit < 0 ∨ digit ≥ base then some (.value result)
        else if result > (uint64Max - BitVec.ofInt 64 digit) / BitVec.ofInt 64 base then
          some .overflow
        else digitLoop base (result * BitVec.ofInt 64 base + BitVec.ofInt 64 digit) mem

def skipPlus : Text → Text
  | [] => []
  | c :: mem => if c = chr '+' then mem else c :: mem

def readSign : Text → Bool × Text
  | [] => (false, [])
  | c :: mem =>
      if c = chr '-' then (true, mem)
      else if c = chr '+' then (false, mem)
      else (false, c :: mem)

def kstrToU64 (str : Option Text) (base : Int) : Option (BitVec 64) :=
  match str with
  | none => some 0
  | some mem =>
      if base < 2 ∨ base > 36 then some 0
      else
        (digitLoop base 0 (skipPlus mem)).map fun
          | .overflow => uint64Max
          | .value result => result

-- The negation is the one of two's complement: it leaves INT64_MIN as it is.
def kstrToI64 (str : Option Text) (base : Int) : Option (BitVec 64) :=
  match str with
  | none => some 0
  | some mem =>
      if base < 2 ∨ base > 36 then some 0
      else
        let (neg, mem) := readSign mem
        (digitLoop base 0 mem).map fun
          | .overflow => if neg then int64Min else int64Max
          | .value result =>
              if neg then if result > int64Max + 1 then int64Min else -result
              else if result > int64Max then int64Max else result

-- What a text means.
def isDigitOf (base : Nat) (c : UInt8) : Bool :=
  decide (0 ≤ kcharToDigit c) && decide (kcharToDigit c < base)

def digitPart (base : Nat) (s : Text) : Text := s.takeWhile (isDigitOf base)

-- The number that digits stand for, the highest one first.
def textValue (base : Nat) (s : Text) : Nat :=
  Nat.ofDigits base (s.reverse.map fun c => (kcharToDigit c).toNat)

def unsignedValue (base : Nat) (s : Text) : Nat := textValue base (digitPart base (skipPlus s))

def signedValue (base : Nat) (s : Text) : Int :=
  let n : Int := textValue base (digitPart base (readSign s).2)
  if (readSign s).1 then -n else n

def clampInt64 (x : Int) : Int := max (-2 ^ 63) (min x (2 ^ 63 - 1))

theorem kcharToDigit_digitChar (caps : Bool) {d : Nat} (hd : d < 36) :
    kcharToDigit (digitChar caps d) = d := by
  have hall : ∀ caps : Bool, ∀ d : Fin 36, kcharToDigit (digitChar caps d) = (d : Nat) := by
    decide +kernel
  exact hall caps ⟨d, hd⟩

-- A digit is no sign and no terminator.
theorem digitChar_ne (caps : Bool) {d : Nat} (hd : d < 36) :
    digitChar caps d ≠ 0 ∧ digitChar caps d ≠ chr '+' ∧ digitChar caps d ≠ chr '-' := by
  have hall : ∀ caps : Bool, ∀ d : Fin 36, digitChar caps d ≠ 0 ∧
      digitChar caps d ≠ chr '+' ∧ digitChar caps d ≠ chr '-' := by
    decide +kernel
  exact hall caps ⟨d, hd⟩

-- The value of a text with one more digit in front of it.
theorem textValue_cons (base : Nat) (c : UInt8) (s : Text) :
    textValue base (c :: s) = textValue base s + base ^ s.length * (kcharToDigit c).toNat := by
  simp [textValue, Nat.ofDigits_append]

-- What the loop holds at the end when it starts with `n`.
def loopValue (base n : Nat) (s : Text) : Nat := n * base ^ s.length + textValue base s

theorem loopValue_zero (base : Nat) (s : Text) : loopValue base 0 s = textValue base s := by
  rw [loopValue, Nat.zero_mul, Nat.zero_add]

theorem loopValue_cons (base n : Nat) (c : UInt8) (s : Text) :
    loopValue base n (c :: s) = loopValue base (n * base + (kcharToDigit c).toNat) s := by
  rw [loopValue, loopValue, textValue_cons, List.length_cons, Nat.pow_succ, Nat.add_mul,
    Nat.mul_comm (base ^ s.length) base, Nat.mul_assoc,
    Nat.mul_comm (base ^ s.length) (kcharToDigit c).toNat]
  omega

theorem le_loopValue {base : Nat} (hbase : 2 ≤ base) (n : Nat) (s : Text) :
    n ≤ loopValue base n s := by
  have hpow : 1 ≤ base ^ s.length := Nat.one_le_pow _ _ (by omega)
  calc n = n * 1 := (Nat.mul_one n).symm
    _ ≤ n * base ^ s.length := Nat.mul_le_mul_left n hpow
    _ ≤ loopValue base n s := Nat.le_add_right _ _

-- The test by division is exact: it passes where the next result fits.
theorem overflow_test {base digit : Nat} (hbase : 2 ≤ base) (hbase' : base ≤ 36)
    (hdigit : digit < base) (result : BitVec 64) :
    result > (uint64Max - BitVec.ofInt 64 digit) / BitVec.ofInt 64 base ↔
      2 ^ 64 ≤ result.toNat * base + digit := by
  have hd : (BitVec.ofInt 64 (digit : Int)).toNat = digit := by
    rw [BitVec.ofInt_natCast, BitVec.toNat_ofNat]
    exact Nat.mod_eq_of_lt (by omega)
  have hb : (BitVec.ofInt 64 (base : Int)).toNat = base := by
    rw [BitVec.ofInt_natCast, BitVec.toNat_ofNat]
    exact Nat.mod_eq_of_lt (by omega)
  have hsub : (uint64Max - BitVec.ofInt 64 digit).toNat = 2 ^ 64 - 1 - digit := by
    rw [BitVec.toNat_sub_of_le, hd, uint64Max, BitVec.toNat_allOnes]
    rw [BitVec.le_def, hd, uint64Max, BitVec.toNat_allOnes]
    omega
  rw [gt_iff_lt, BitVec.lt_def, BitVec.toNat_udiv, hsub, hb, Nat.div_lt_iff_lt_mul (by omega)]
  omega

theorem next_result {base digit : Nat} (hbase : base ≤ 36) (hdigit : digit < base)
    {result : BitVec 64} (hfit : result.toNat * base + digit < 2 ^ 64) :
    (result * BitVec.ofInt 64 base + BitVec.ofInt 64 digit).toNat =
      result.toNat * base + digit := by
  rw [BitVec.ofInt_natCast, BitVec.ofInt_natCast, BitVec.toNat_add, BitVec.toNat_mul,
    BitVec.toNat_ofNat, BitVec.toNat_ofNat, Nat.mod_eq_of_lt (show base < 2 ^ 64 by omega),
    Nat.mod_eq_of_lt (show digit < 2 ^ 64 by omega), Nat.mod_add_mod, Nat.mod_eq_of_lt hfit]

-- The loop reads the longest run of digits, and ends with its value where that
-- fits.
theorem digitLoop_eq {base : Nat} (hbase : 2 ≤ base) (hbase' : base ≤ 36) (s rest : Text)
    (hs : 0 ∉ s) (result : BitVec 64) :
    digitLoop base result (s ++ 0 :: rest) =
      some (if loopValue base result.toNat (digitPart base s) < 2 ^ 64 then
        .value (BitVec.ofNat 64 (loopValue base result.toNat (digitPart base s)))
      else .overflow) := by
  induction s generalizing result with
  | nil =>
      have hval : loopValue base result.toNat (digitPart base []) = result.toNat := by
        simp [loopValue, digitPart, textValue]
      rw [hval, if_pos result.isLt, BitVec.ofNat_toNat, BitVec.setWidth_eq, List.nil_append,
        digitLoop, if_pos rfl]
  | cons c s ih =>
      have hc : c ≠ 0 := fun h => hs (by simp [h])
      have hs' : 0 ∉ s := fun h => hs (List.mem_cons_of_mem c h)
      rw [List.cons_append, digitLoop, if_neg hc]
      by_cases hdigit : kcharToDigit c < 0 ∨ kcharToDigit c ≥ base
      · have hpart : digitPart base (c :: s) = [] := by
          rw [digitPart, List.takeWhile_cons, if_neg]
          simp only [isDigitOf, Bool.and_eq_true, decide_eq_true_eq]
          omega
        rw [if_pos hdigit, hpart]
        simp [loopValue, textValue, result.isLt]
      · have hpart : digitPart base (c :: s) = c :: digitPart base s := by
          rw [digitPart, List.takeWhile_cons, if_pos]
          · rfl
          · simp only [isDigitOf, Bool.and_eq_true, decide_eq_true_eq]
            omega
        obtain ⟨d, hd⟩ := Int.eq_ofNat_of_zero_le (show 0 ≤ kcharToDigit c by omega)
        have hlt : d < base := by omega
        rw [if_neg hdigit, hpart, loopValue_cons, hd, Int.toNat_natCast]
        by_cases hover : 2 ^ 64 ≤ result.toNat * base + d
        · have hle := le_loopValue hbase (result.toNat * base + d) (digitPart base s)
          rw [if_pos ((overflow_test hbase hbase' hlt result).mpr hover), if_neg (by omega)]
        · rw [if_neg (mt (overflow_test hbase hbase' hlt result).mp hover), ih hs',
            next_result hbase' hlt (by omega)]

-- Both functions start the loop at 0.
theorem digitLoop_zero {base : Nat} (hbase : 2 ≤ base) (hbase' : base ≤ 36) (s rest : Text)
    (hs : 0 ∉ s) :
    digitLoop base 0 (s ++ 0 :: rest) =
      some (if textValue base (digitPart base s) < 2 ^ 64 then
        .value (BitVec.ofNat 64 (textValue base (digitPart base s)))
      else .overflow) := by
  have h := digitLoop_eq hbase hbase' s rest hs 0
  rwa [show (0 : BitVec 64).toNat = 0 from rfl, loopValue_zero] at h

-- The whole text is read by a base that has all its digits.
theorem digitPart_of_all {base : Nat} {s : Text} (h : ∀ c ∈ s, isDigitOf base c = true) :
    digitPart base s = s :=
  List.takeWhile_eq_self_iff.mpr h

theorem skipPlus_append (s : Text) (hs : 0 ∉ s) (rest : Text) :
    skipPlus (s ++ 0 :: rest) = skipPlus s ++ 0 :: rest ∧ 0 ∉ skipPlus s := by
  cases s with
  | nil => exact ⟨rfl, List.not_mem_nil⟩
  | cons c s =>
      have htail : 0 ∉ s := fun h => hs (List.mem_cons_of_mem c h)
      by_cases h : c = chr '+'
      · simp [skipPlus, h, htail]
      · simp [skipPlus, h, htail, show ¬ 0 = c from fun h => hs (by simp [h])]

theorem readSign_append (s : Text) (hs : 0 ∉ s) (rest : Text) :
    readSign (s ++ 0 :: rest) = ((readSign s).1, (readSign s).2 ++ 0 :: rest) ∧
      0 ∉ (readSign s).2 := by
  cases s with
  | nil => exact ⟨rfl, List.not_mem_nil⟩
  | cons c s =>
      have htail : 0 ∉ s := fun h => hs (List.mem_cons_of_mem c h)
      by_cases hneg : c = chr '-'
      · simp [readSign, hneg, htail]
      · by_cases hpos : c = chr '+'
        · simp [readSign, hpos, htail, show chr '+' ≠ chr '-' by decide]
        · simp [readSign, hneg, hpos, htail, show ¬ 0 = c from fun h => hs (by simp [h])]

theorem kstrToU64_eq {base : Nat} (hbase : 2 ≤ base) (hbase' : base ≤ 36) (s rest : Text)
    (hs : 0 ∉ s) :
    kstrToU64 (some (s ++ 0 :: rest)) base =
      some (BitVec.ofNat 64 (min (2 ^ 64 - 1) (unsignedValue base s))) := by
  obtain ⟨happ, hnul⟩ := skipPlus_append s hs rest
  rw [kstrToU64, if_neg (by omega), happ, digitLoop_zero hbase hbase' _ rest hnul,
    ← unsignedValue, Option.map_some]
  by_cases hfit : unsignedValue base s < 2 ^ 64
  · rw [if_pos hfit, Nat.min_eq_right (by omega)]
  · rw [if_neg hfit, Nat.min_eq_left (by omega)]
    rfl

-- A signed result out of the magnitude that the loop has read.
theorem signed_result {n : Nat} (hn : n < 2 ^ 64) (neg : Bool) :
    (if neg then if BitVec.ofNat 64 n > int64Max + 1 then int64Min else -BitVec.ofNat 64 n
      else if BitVec.ofNat 64 n > int64Max then int64Max else BitVec.ofNat 64 n) =
      BitVec.ofInt 64 (clampInt64 (if neg then -(n : Int) else n)) := by
  have hval : (BitVec.ofNat 64 n).toNat = n := by
    rw [BitVec.toNat_ofNat, Nat.mod_eq_of_lt hn]
  have hmax : int64Max.toNat = 2 ^ 63 - 1 := by decide
  have hmax' : (int64Max + 1).toNat = 2 ^ 63 := by decide
  cases neg with
  | true =>
      simp only [if_true, gt_iff_lt, BitVec.lt_def, hval, hmax']
      by_cases hbig : 2 ^ 63 < n
      · rw [if_pos hbig, show clampInt64 (-(n : Int)) = -2 ^ 63 by unfold clampInt64; omega]
        decide
      · rw [if_neg hbig, show clampInt64 (-(n : Int)) = -n by unfold clampInt64; omega,
          BitVec.ofInt_neg, BitVec.ofInt_natCast]
  | false =>
      simp only [Bool.false_eq_true, if_false, gt_iff_lt, BitVec.lt_def, hval, hmax]
      by_cases hbig : 2 ^ 63 - 1 < n
      · rw [if_pos hbig, show clampInt64 (n : Int) = 2 ^ 63 - 1 by unfold clampInt64; omega]
        decide
      · rw [if_neg hbig, show clampInt64 (n : Int) = n by unfold clampInt64; omega,
          BitVec.ofInt_natCast]

theorem signed_overflow {n : Nat} (hn : 2 ^ 64 ≤ n) (neg : Bool) :
    (if neg then int64Min else int64Max) =
      BitVec.ofInt 64 (clampInt64 (if neg then -(n : Int) else n)) := by
  cases neg with
  | true =>
      rw [if_pos rfl, if_pos rfl,
        show clampInt64 (-(n : Int)) = -2 ^ 63 by unfold clampInt64; omega]
      decide
  | false =>
      rw [if_neg Bool.false_ne_true, if_neg Bool.false_ne_true,
        show clampInt64 (n : Int) = 2 ^ 63 - 1 by unfold clampInt64; omega]
      decide

theorem kstrToI64_eq {base : Nat} (hbase : 2 ≤ base) (hbase' : base ≤ 36) (s rest : Text)
    (hs : 0 ∉ s) :
    kstrToI64 (some (s ++ 0 :: rest)) base =
      some (BitVec.ofInt 64 (clampInt64 (signedValue base s))) := by
  obtain ⟨happ, hnul⟩ := readSign_append s hs rest
  rw [kstrToI64, if_neg (by omega), happ]
  dsimp only
  rw [digitLoop_zero hbase hbase' _ rest hnul, Option.map_some, signedValue]
  by_cases hfit : textValue base (digitPart base (readSign s).2) < 2 ^ 64
  · rw [if_pos hfit]
    exact congrArg some (signed_result hfit _)
  · rw [if_neg hfit]
    exact congrArg some (signed_overflow (by omega) _)

-- The digits that the printing loop writes, lowest one first.
theorem digitsFrom_spec {base : Nat} (hbase : 2 ≤ base) (hbase' : base ≤ 36) (caps : Bool)
    (room val : Nat) (h : val < base ^ room) (hroom : 0 < room) :
    (∀ c ∈ digitsFrom base caps room val, ∃ d < base, c = digitChar caps d) ∧
      Nat.ofDigits base ((digitsFrom base caps room val).map fun c => (kcharToDigit c).toNat) =
        val := by
  induction room generalizing val with
  | zero => exact absurd hroom (Nat.lt_irrefl 0)
  | succ room ih =>
      have hmod : val % base < base := Nat.mod_lt _ (by omega)
      have hdigit : (kcharToDigit (digitChar caps (val % base))).toNat = val % base := by
        rw [kcharToDigit_digitChar caps (by omega), Int.toNat_natCast]
      by_cases hzero : val / base = 0
      · have hval : val % base = val := Nat.mod_eq_of_lt ((Nat.div_eq_zero_iff_lt (by omega)).mp hzero)
        simp only [digitsFrom, hzero, if_true, List.mem_singleton, List.map_cons, List.map_nil,
          Nat.ofDigits_singleton, hdigit]
        exact ⟨fun c hc => ⟨val % base, hmod, hc⟩, hval⟩
      · have hdiv : val / base < base ^ room := by
          rw [Nat.div_lt_iff_lt_mul (by omega), ← Nat.pow_succ]
          exact h
        have hroom' : 0 < room := by
          apply Nat.pos_of_ne_zero
          rintro rfl
          exact hzero (Nat.lt_one_iff.mp hdiv)
        obtain ⟨hchars, hsum⟩ := ih (val / base) hdiv hroom'
        simp only [digitsFrom, hzero, if_false, List.mem_cons, List.map_cons, Nat.ofDigits_cons,
          hdigit, hsum]
        refine ⟨?_, Nat.mod_add_div val base⟩
        rintro c (rfl | hc)
        · exact ⟨val % base, hmod, rfl⟩
        · exact hchars c hc

-- What is printed: the digits of the value, highest first, behind the sign.
theorem digitsToStr_spec {base maxSize val : Nat} (hbase : 2 ≤ base) (hbase' : base ≤ 36)
    (hsize : 67 ≤ maxSize) (hval : val < 2 ^ 64) (neg caps : Bool) :
    ∃ s : Text, digitsToStr neg val maxSize base caps =
        some (if neg then chr '-' :: s else s) ∧
      (∀ c ∈ s, ∃ d < base, c = digitChar caps d) ∧ textValue base s = val := by
  have hpow (k : Nat) (hk : 64 ≤ k) : val < base ^ k := by
    calc val < 2 ^ 64 := hval
      _ ≤ 2 ^ k := Nat.pow_le_pow_right (by omega) hk
      _ ≤ base ^ k := Nat.pow_le_pow_left hbase k
  obtain ⟨hchars, hsum⟩ := digitsFrom_spec hbase hbase' caps maxSize val (hpow maxSize (by omega))
    (by omega)
  have hlen := digitsFrom_length caps maxSize (hpow 64 (Nat.le_refl 64))
  generalize hout : digitsFrom base caps maxSize val = out at hchars hsum hlen
  refine ⟨out.reverse, ?_, fun c hc => hchars c (List.mem_reverse.mp hc), ?_⟩
  · rw [digitsToStr, hout, if_neg]
    · cases neg <;> simp
    · cases neg <;> simp <;> omega
  · rw [textValue, List.reverse_reverse, hsum]

theorem isDigitOf_digitChar {base d : Nat} (hbase : base ≤ 36) (hd : d < base) (caps : Bool) :
    isDigitOf base (digitChar caps d) = true := by
  rw [isDigitOf, kcharToDigit_digitChar caps (by omega)]
  simp [hd]

-- A text of digits has no terminator and no sign.
theorem nul_notMem_of_digits {base : Nat} (hbase : base ≤ 36) {caps : Bool} {s : Text}
    (h : ∀ c ∈ s, ∃ d < base, c = digitChar caps d) : 0 ∉ s := by
  intro hmem
  obtain ⟨d, hd, heq⟩ := h 0 hmem
  exact (digitChar_ne caps (by omega)).1 heq.symm

theorem skipPlus_of_digits {base : Nat} (hbase : base ≤ 36) {caps : Bool} {s : Text}
    (h : ∀ c ∈ s, ∃ d < base, c = digitChar caps d) : skipPlus s = s := by
  cases s with
  | nil => rfl
  | cons c s =>
      obtain ⟨d, hd, heq⟩ := h c List.mem_cons_self
      rw [skipPlus, if_neg (heq ▸ (digitChar_ne caps (by omega)).2.1)]

theorem readSign_of_digits {base : Nat} (hbase : base ≤ 36) {caps : Bool} {s : Text}
    (h : ∀ c ∈ s, ∃ d < base, c = digitChar caps d) : readSign s = (false, s) := by
  cases s with
  | nil => rfl
  | cons c s =>
      obtain ⟨d, hd, heq⟩ := h c List.mem_cons_self
      obtain ⟨-, hpos, hneg⟩ := digitChar_ne caps (show d < 36 by omega)
      rw [readSign, if_neg (heq ▸ hneg), if_neg (heq ▸ hpos)]

theorem digitPart_of_digits {base : Nat} (hbase : base ≤ 36) {caps : Bool} {s : Text}
    (h : ∀ c ∈ s, ∃ d < base, c = digitChar caps d) : digitPart base s = s := by
  apply digitPart_of_all
  intro c hc
  obtain ⟨d, hd, rfl⟩ := h c hc
  exact isDigitOf_digitChar hbase hd caps

theorem unsigned_round_trip {base maxSize : Nat} (hbase : 2 ≤ base) (hbase' : base ≤ 36)
    (hsize : 67 ≤ maxSize) (v : BitVec 64) (caps : Bool) (rest : Text) :
    ∃ s, ku64ToStr v maxSize base caps = some s ∧
      kstrToU64 (some (s ++ 0 :: rest)) base = some v := by
  obtain ⟨s, hprint, hchars, hval⟩ := digitsToStr_spec hbase hbase' hsize v.isLt false caps
  rw [if_neg Bool.false_ne_true] at hprint
  refine ⟨s, hprint, ?_⟩
  rw [kstrToU64_eq hbase hbase' s rest (nul_notMem_of_digits hbase' hchars), unsignedValue,
    skipPlus_of_digits hbase' hchars, digitPart_of_digits hbase' hchars, hval,
    Nat.min_eq_right (by omega), BitVec.ofNat_toNat, BitVec.setWidth_eq]

-- The magnitude of a number below zero is printed behind the sign.
theorem signed_round_trip {maxSize : Nat} (hsize : 67 ≤ maxSize) (v : BitVec 64) (caps : Bool)
    (rest : Text) :
    ∃ s, ki64ToStr v maxSize 10 caps = some s ∧
      kstrToI64 (some (s ++ 0 :: rest)) 10 = some v := by
  have hlo : -2 ^ 64 ≤ 2 * v.toInt := BitVec.le_two_mul_toInt
  have hhi : 2 * v.toInt < 2 ^ 64 := BitVec.two_mul_toInt_lt
  by_cases hneg : v.toInt < 0
  · obtain ⟨s, hprint, hchars, hval⟩ := digitsToStr_spec (show 2 ≤ 10 by omega) (show 10 ≤ 36 by omega) hsize
      (show (-v.toInt).toNat < 2 ^ 64 by omega) true caps
    rw [if_pos rfl] at hprint
    refine ⟨chr '-' :: s, by rw [ki64ToStr, if_pos ⟨rfl, hneg⟩, hprint], ?_⟩
    have hnul : 0 ∉ chr '-' :: s := by
      rw [List.mem_cons, not_or]
      exact ⟨by decide, nul_notMem_of_digits (by omega) hchars⟩
    have hvalue : signedValue 10 (chr '-' :: s) = v.toInt := by
      rw [signedValue, readSign, if_pos rfl, digitPart_of_digits (by omega) hchars, hval,
        if_pos rfl]
      omega
    have hread := kstrToI64_eq (show 2 ≤ 10 by omega) (show 10 ≤ 36 by omega) _ rest hnul
    rw [hvalue, show clampInt64 v.toInt = v.toInt by unfold clampInt64; omega,
      BitVec.ofInt_toInt] at hread
    exact hread
  · obtain ⟨s, hprint, hchars, hval⟩ := digitsToStr_spec (show 2 ≤ 10 by omega) (show 10 ≤ 36 by omega) hsize
      v.isLt false caps
    rw [if_neg Bool.false_ne_true] at hprint
    refine ⟨s, by rw [ki64ToStr, if_neg (fun h => hneg h.2), hprint], ?_⟩
    have hvalue : signedValue 10 s = v.toInt := by
      rw [signedValue, readSign_of_digits (by omega) hchars, digitPart_of_digits (by omega) hchars,
        hval, if_neg Bool.false_ne_true, BitVec.toInt_eq_toNat_of_msb]
      rwa [BitVec.msb_eq_toInt, decide_eq_false_iff_not]
    have hread := kstrToI64_eq (show 2 ≤ 10 by omega) (show 10 ≤ 36 by omega) s rest
      (nul_notMem_of_digits (by omega) hchars)
    rw [hvalue, show clampInt64 v.toInt = v.toInt by unfold clampInt64; omega,
      BitVec.ofInt_toInt] at hread
    exact hread

-- Printing and parsing agree, and parsing saturates exactly.
theorem number_text {base : Nat} (hbase : 2 ≤ base) (hbase' : base ≤ 36) :
    (∀ (v : BitVec 64) (caps : Bool) (maxSize : Nat) (rest : Text), 67 ≤ maxSize →
      ∃ s, ku64ToStr v maxSize base caps = some s ∧
        kstrToU64 (some (s ++ 0 :: rest)) base = some v) ∧
      (∀ (v : BitVec 64) (caps : Bool) (maxSize : Nat) (rest : Text), 67 ≤ maxSize →
        ∃ s, ki64ToStr v maxSize 10 caps = some s ∧
          kstrToI64 (some (s ++ 0 :: rest)) 10 = some v) ∧
      ∀ s rest : Text, 0 ∉ s →
        kstrToU64 (some (s ++ 0 :: rest)) base =
            some (BitVec.ofNat 64 (min (2 ^ 64 - 1) (unsignedValue base s))) ∧
          kstrToI64 (some (s ++ 0 :: rest)) base =
            some (BitVec.ofInt 64 (clampInt64 (signedValue base s))) := by
  refine ⟨?_, ?_, ?_⟩
  · intro v caps maxSize rest hsize
    exact unsigned_round_trip hbase hbase' hsize v caps rest
  · intro v caps maxSize rest hsize
    exact signed_round_trip hsize v caps rest
  · intro s rest hs
    exact ⟨kstrToU64_eq hbase hbase' s rest hs, kstrToI64_eq hbase hbase' s rest hs⟩

theorem number_text_minus :
    kstrToI64 (some (text "-9223372036854775809" ++ [0])) 10 = some int64Min := by
  have hnul : 0 ∉ text "-9223372036854775809" := by decide
  have hread := ((number_text (show 2 ≤ 10 by omega) (show 10 ≤ 36 by omega)).2.2 _ [] hnul).2
  have hvalue : signedValue 10 (text "-9223372036854775809") = -9223372036854775809 := by
    decide +kernel
  rw [hvalue] at hread
  exact hread

end AosKernel.Core
