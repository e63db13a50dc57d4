import AosKernel.Core.NumberText

namespace AosKernel.Core

open AosKernel.Io

-- `c - from + add`, added to a result of 32 bits.
def charOffset (c first : UInt8) (add : Int) : BitVec 32 :=
  BitVec.ofInt 32 ((c.toNat : Int) - first.toNat + add)

-- The loop over hexadecimal digits. There is no result where the code would read behind the
-- memory.
def hexLoop (result : BitVec 32) : Text → Option (BitVec 32)
  | [] => none
  | c :: mem =>
      if c = 0 then some result
      else
        let result := result <<< 4
        if chr '0' ≤ c ∧ c ≤ chr '9' then hexLoop (result + charOffset c (chr '0') 0) mem
        else if chr 'a' ≤ c ∧ c ≤ chr 'f' then hexLoop (result + charOffset c (chr 'a') 10) mem
        else if chr 'A' ≤ c ∧ c ≤ chr 'F' then hexLoop (result + charOffset c (chr 'A') 10) mem
        else some result

def decimalLoop (result : BitVec 32) : Text → Option (BitVec 32)
  | [] => none
  | c :: mem =>
      if chr '0' ≤ c ∧ c ≤ chr '9' then
        decimalLoop (result * 10 + charOffset c (chr '0') 0) mem
      else some result

def strToUint (str : Option Text) : Option (BitVec 32) :=
  match str with
  | none => some 0
  | some [] => none
  | some (c :: mem) =>
      if c = chr '0' then
        match mem with
        | [] => none
        | x :: back =>
            if x = chr 'x' ∨ x = chr 'X' then hexLoop 0 back else decimalLoop 0 (c :: mem)
      else decimalLoop 0 (c :: mem)

-- The digits behind the prefix of a hexadecimal number.
def hexDigits : Text → Option Text
  | c :: x :: rest => if c = chr '0' ∧ (x = chr 'x' ∨ x = chr 'X') then some rest else none
  | _ => none

-- The number that a text starts with.
def prefixValue (s : Text) : Nat :=
  match hexDigits s with
  | some rest => textValue 16 (digitPart 16 rest)
  | none => textValue 10 (digitPart 10 s)

-- A string whose number loses no digit: it is no hexadecimal one, or its digits reach the end,
-- or the lowest eight of them are zero.
def KeepsDigits (s : Text) : Prop :=
  ∀ rest, hexDigits s = some rest → digitPart 16 rest = rest ∨
    ∀ c ∈ (digitPart 16 rest).reverse.take 8, c = chr '0'

section Loops

variable {base : Nat} {c : UInt8} {s mem digits : Text} {n : Nat}

theorem char_codes : (chr '0').toNat = 48 ∧ (chr '9').toNat = 57 ∧ (chr 'a').toNat = 97 ∧
    (chr 'f').toNat = 102 ∧ (chr 'z').toNat = 122 ∧ (chr 'A').toNat = 65 ∧ (chr 'F').toNat = 70 ∧
      (chr 'Z').toNat = 90 := by
  decide

-- A char is a digit in the ranges that the loops test for.
theorem hexLoop_cons (hzero : c ≠ 0) (result : BitVec 32) : hexLoop result (c :: mem) =
    if isDigitOf 16 c = true then hexLoop (result <<< 4 + BitVec.ofInt 32 (kcharToDigit c)) mem
    else some (result <<< 4) := by
  obtain ⟨h0, h9, ha, hf, hz, hA, hF, hZ⟩ := char_codes
  rw [hexLoop, if_neg hzero]
  unfold isDigitOf kcharToDigit charOffset
  simp only [UInt8.le_iff_toNat_le, h0, h9, ha, hf, hz, hA, hF, hZ, Bool.and_eq_true,
    decide_eq_true_eq]
  split_ifs <;> first | omega | simp

theorem decimalLoop_cons (result : BitVec 32) : decimalLoop result (c :: mem) =
    if isDigitOf 10 c = true then
      decimalLoop (result * 10 + BitVec.ofInt 32 (kcharToDigit c)) mem
    else some result := by
  obtain ⟨h0, h9, ha, hf, hz, hA, hF, hZ⟩ := char_codes
  rw [decimalLoop]
  unfold isDigitOf kcharToDigit charOffset
  simp only [UInt8.le_iff_toNat_le, h0, h9, ha, hz, hA, hZ, Bool.and_eq_true, decide_eq_true_eq]
  split_ifs <;> first | omega | simp

theorem digitPart_digit (hc : isDigitOf base c = true) :
    digitPart base (c :: s) = c :: digitPart base s := by
  rw [digitPart, List.takeWhile_cons, if_pos hc]
  rfl

theorem digitPart_other (hc : ¬ isDigitOf base c = true) : digitPart base (c :: s) = [] := by
  rw [digitPart, List.takeWhile_cons, if_neg hc]

-- One more digit behind a number, modulo 2^32.
theorem next_digit (hc : isDigitOf base c = true) :
    BitVec.ofNat 32 (n * base) + BitVec.ofInt 32 (kcharToDigit c) =
      BitVec.ofNat 32 (n * base + (kcharToDigit c).toNat) := by
  simp only [isDigitOf, Bool.and_eq_true, decide_eq_true_eq] at hc
  obtain ⟨d, hd⟩ := Int.eq_ofNat_of_zero_le hc.1
  rw [hd, BitVec.ofInt_natCast, Int.toNat_natCast, BitVec.ofNat_add]

theorem shift_digit (n : Nat) : BitVec.ofNat 32 n <<< 4 = BitVec.ofNat 32 (n * 16) := by
  refine BitVec.eq_of_toNat_eq ?_
  rw [BitVec.toNat_shiftLeft, BitVec.toNat_ofNat, BitVec.toNat_ofNat, Nat.shiftLeft_eq]
  omega

-- A string is read to its first char that is no digit, which multiplies once more where it is
-- not the end.
theorem hexLoop_eq (hs : 0 ∉ s) : hexLoop (BitVec.ofNat 32 n) (s ++ 0 :: mem) =
    some (BitVec.ofNat 32 (loopValue 16 n (digitPart 16 s) *
      if digitPart 16 s = s then 1 else 16)) := by
  induction s generalizing n with
  | nil => simp [hexLoop, digitPart, loopValue, textValue]
  | cons c s ih =>
      obtain ⟨hzero, hs⟩ := not_or.mp (mt List.mem_cons.mpr hs)
      rw [List.cons_append, hexLoop_cons (Ne.symm hzero), shift_digit]
      by_cases hc : isDigitOf 16 c = true
      · rw [if_pos hc, next_digit hc, ih hs, digitPart_digit hc, loopValue_cons]
        simp only [List.cons.injEq, true_and]
      · rw [if_neg hc, digitPart_other hc, if_neg (List.cons_ne_nil c s).symm]
        simp [loopValue, textValue]

theorem decimalLoop_eq : decimalLoop (BitVec.ofNat 32 n) (s ++ 0 :: mem) =
    some (BitVec.ofNat 32 (loopValue 10 n (digitPart 10 s))) := by
  induction s generalizing n with
  | nil =>
      rw [List.nil_append, decimalLoop_cons, if_neg (by decide)]
      simp [digitPart, loopValue, textValue]
  | cons c s ih =>
      rw [List.cons_append, decimalLoop_cons]
      by_cases hc : isDigitOf 10 c = true
      · have hten : BitVec.ofNat 32 n * 10 = BitVec.ofNat 32 (n * 10) := by
          rw [BitVec.ofNat_mul]
          rfl
        rw [if_pos hc, hten, next_digit hc, ih, digitPart_digit hc, loopValue_cons]
      · rw [if_neg hc, digitPart_other hc]
        simp [loopValue, textValue]

theorem strToUint_decimal (hs : hexDigits s = none) :
    strToUint (some (s ++ 0 :: mem)) = decimalLoop 0 (s ++ 0 :: mem) := by
  match s with
  | [] => rfl
  | [c] =>
      unfold strToUint
      dsimp only [List.cons_append, List.nil_append]
      split_ifs with hc hx
      · exact absurd hx (by decide)
      · rfl
      · rfl
  | c :: x :: rest =>
      rw [hexDigits] at hs
      unfold strToUint
      dsimp only [List.cons_append]
      split_ifs with hc hx
      · rw [if_pos ⟨hc, hx⟩] at hs
        cases hs
      · rfl
      · rfl

theorem strToUint_hex {rest : Text} (hs : hexDigits s = some rest) :
    strToUint (some (s ++ 0 :: mem)) = hexLoop 0 (rest ++ 0 :: mem) ∧ rest <:+ s := by
  match s with
  | c :: x :: back =>
      rw [hexDigits] at hs
      split_ifs at hs with hc
      obtain rfl := Option.some.inj hs
      unfold strToUint
      dsimp only [List.cons_append]
      rw [if_pos hc.1, if_pos hc.2]
      exact ⟨rfl, [c, x], rfl⟩

-- The lowest digits of a number that a power of the base divides are zero.
theorem pow_dvd_ofDigits_iff {b k : Nat} {L : List Nat} (hL : ∀ d ∈ L, d < b) :
    b ^ k ∣ Nat.ofDigits b L ↔ ∀ d ∈ L.take k, d = 0 := by
  induction k generalizing L with
  | zero => simp
  | succ k ih =>
      cases L with
      | nil => simp
      | cons d L =>
          have hd := hL d List.mem_cons_self
          rw [Nat.ofDigits_cons, List.take_succ_cons, List.forall_mem_cons,
            ← ih fun d hd => hL d (List.mem_cons_of_mem _ hd), Nat.pow_succ, Nat.mul_comm]
          constructor
          · intro h
            have hzero : d = 0 := by
              have hdvd := (Nat.dvd_add_left (Dvd.intro _ rfl)).mp (dvd_of_mul_right_dvd h)
              exact Nat.eq_zero_of_dvd_of_lt hdvd hd
            subst hzero
            rw [Nat.zero_add] at h
            exact ⟨rfl, Nat.dvd_of_mul_dvd_mul_left hd h⟩
          · rintro ⟨rfl, h⟩
            rw [Nat.zero_add]
            exact Nat.mul_dvd_mul_left b h

theorem eq_zero_of_digit (hc : isDigitOf 16 c = true) (h : (kcharToDigit c).toNat = 0) :
    c = chr '0' := by
  obtain ⟨h0, h9, ha, hf, hz, hA, hF, hZ⟩ := char_codes
  rw [← UInt8.toNat_inj, h0]
  unfold isDigitOf kcharToDigit at hc
  unfold kcharToDigit at h
  simp only [UInt8.le_iff_toNat_le, h0, h9, ha, hz, hA, hZ, Bool.and_eq_true,
    decide_eq_true_eq] at hc h
  split_ifs at hc h <;> omega

-- The digits that would get lost are zero if and only if multiplying once more changes nothing.
theorem last_digits_iff (hdigits : ∀ c ∈ digits, isDigitOf 16 c = true) :
    2 ^ 32 ∣ textValue 16 digits ↔ ∀ c ∈ digits.reverse.take 8, c = chr '0' := by
  have hpow : 2 ^ 32 = 16 ^ 8 := by decide
  have hlt : ∀ d ∈ digits.reverse.map fun c => (kcharToDigit c).toNat, d < 16 := by
    intro d hd
    obtain ⟨c, hc, rfl⟩ := List.mem_map.mp hd
    have hdigit := hdigits c (List.mem_reverse.mp hc)
    simp only [isDigitOf, Bool.and_eq_true, decide_eq_true_eq] at hdigit
    omega
  rw [hpow, textValue, pow_dvd_ofDigits_iff hlt, ← List.map_take]
  simp only [List.forall_mem_map]
  refine forall₂_congr fun c hc => ⟨fun h => ?_, ?_⟩
  · exact eq_zero_of_digit (hdigits c (List.mem_reverse.mp (List.mem_of_mem_take hc))) h
  · rintro rfl
    decide

end Loops

-- The number that a string starts with is read unless digits that are not zero are shifted out
-- by the char behind them.
theorem strToUint_reads_iff (s mem : Text) (hs : 0 ∉ s) :
    strToUint (some (s ++ 0 :: mem)) = some (BitVec.ofNat 32 (prefixValue s)) ↔ KeepsDigits s := by
  unfold prefixValue KeepsDigits
  cases hhex : hexDigits s with
  | none =>
      refine iff_of_true ?_ nofun
      rw [strToUint_decimal hhex, show (0 : BitVec 32) = BitVec.ofNat 32 0 from rfl, decimalLoop_eq,
        loopValue_zero]
  | some rest =>
      obtain ⟨hloop, hsuffix⟩ := strToUint_hex hhex
      have hrest : 0 ∉ rest := fun h => hs (hsuffix.subset h)
      have hdigits : ∀ c ∈ digitPart 16 rest, isDigitOf 16 c = true := fun c hc =>
        List.mem_takeWhile_imp hc
      rw [hloop, show (0 : BitVec 32) = BitVec.ofNat 32 0 from rfl, hexLoop_eq hrest,
        loopValue_zero]
      simp only [Option.some.injEq, forall_eq', ← last_digits_iff hdigits, ← BitVec.toNat_inj,
        BitVec.toNat_ofNat]
      have hshift (v : Nat) : v * 16 % 2 ^ 32 = v % 2 ^ 32 ↔ 2 ^ 32 ∣ v := by
        rw [Nat.dvd_iff_mod_eq_zero]
        omega
      split_ifs with hend
      · simp [hend]
      · rw [hshift, or_iff_right hend]

theorem strToUint_reads_iff_hex : strToUint (some (text "0x1F" ++ 0 :: [])) =
    some (BitVec.ofNat 32 (prefixValue (text "0x1F"))) := by
  refine (strToUint_reads_iff _ [] (by decide)).mpr fun rest hrest => .inl ?_
  cases hrest
  decide

-- A line end behind the number.
theorem strToUint_shifts : strToUint (some (text "0x1F\n" ++ [0])) ≠
    some (BitVec.ofNat 32 (prefixValue (text "0x1F\n"))) := by
  decide

end AosKernel.Core
