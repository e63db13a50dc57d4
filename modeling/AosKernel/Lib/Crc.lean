import Mathlib.Algebra.Group.Nat.Defs
import Mathlib.Logic.Function.Iterate

namespace Verif.Crc

section Steps

variable {w : Nat} {poly reg reg' : BitVec w} {bits bits' front back : List Bool} {b b' : Bool}
  {n : Nat}

-- What the bit that leaves a register adds to it.
def tap (poly : BitVec w) (out : Bool) : BitVec w := if out then poly else 0

-- A step of a register that shifts to the right, with a bit of the message.
def step (poly reg : BitVec w) (b : Bool) : BitVec w :=
  (reg >>> 1) ^^^ tap poly (reg.getLsbD 0 ^^ b)

-- The register behind the bits of a message.
def run (poly reg : BitVec w) (bits : List Bool) : BitVec w := bits.foldl (step poly) reg

-- The register behind so many bits that are zero.
def shift (poly : BitVec w) (n : Nat) : BitVec w → BitVec w := (fun reg => step poly reg false)^[n]

-- Bits as a register, the first of them the lowest.
def pack (w : Nat) (bits : List Bool) : BitVec w := (BitVec.ofBoolListLE bits).setWidth w

@[simp] theorem getLsbD_pack {i : Nat} :
    (pack w bits).getLsbD i = (decide (i < w) && bits.getD i false) := by
  rw [pack, BitVec.getLsbD_setWidth, BitVec.getLsbD_ofBoolListLE]

theorem getD_of_length_le {i : Nat} (hi : bits.length ≤ i) : bits.getD i false = false := by
  rw [List.getD_eq_getElem?_getD, List.getElem?_eq_none hi]
  rfl

theorem pack_inj (hlength : bits.length = bits'.length) (hw : bits.length ≤ w)
    (h : pack w bits = pack w bits') : bits = bits' := by
  refine List.ext_getElem hlength fun i hi hi' => ?_
  have hbit : (pack w bits).getLsbD i = (pack w bits').getLsbD i := by rw [h]
  rw [getLsbD_pack, getLsbD_pack] at hbit
  simpa [hi, hi', Nat.lt_of_lt_of_le hi hw] using hbit

-- A step is linear.
theorem tap_xor : tap poly (b ^^ b') = tap poly b ^^^ tap poly b' := by
  cases b <;> cases b' <;> simp [tap]

theorem step_xor : step poly (reg ^^^ reg') (b ^^ b') = step poly reg b ^^^ step poly reg' b' := by
  have hout : ((reg ^^^ reg').getLsbD 0 ^^ (b ^^ b')) =
      ((reg.getLsbD 0 ^^ b) ^^ (reg'.getLsbD 0 ^^ b')) := by
    rw [BitVec.getLsbD_xor, Bool.xor_assoc, Bool.xor_assoc, Bool.xor_left_comm b]
  unfold step
  rw [hout, tap_xor, BitVec.ushiftRight_xor_distrib]
  ac_rfl

theorem shift_succ : shift poly (n + 1) reg = shift poly n (step poly reg false) :=
  Function.iterate_succ_apply _ _ _

theorem shift_xor : shift poly n (reg ^^^ reg') = shift poly n reg ^^^ shift poly n reg' := by
  induction n generalizing reg reg' with
  | zero => rfl
  | succ n ih =>
      have hstep : step poly (reg ^^^ reg') false = _ := @step_xor w poly reg reg' false false
      rw [shift_succ, shift_succ, shift_succ, hstep, ih]

-- A step loses nothing where the polynomial has its highest bit.
theorem eq_zero_of_step (hpoly : poly.msb = true) (h : step poly reg false = 0) : reg = 0 := by
  have hout : reg >>> 1 = tap poly (reg.getLsbD 0) := by
    rw [step, Bool.xor_false] at h
    exact BitVec.xor_eq_zero_iff.mp h
  cases hlow : reg.getLsbD 0 with
  | true =>
      rw [hlow] at hout
      have hhigh : (reg >>> 1).msb = true := by rw [hout]; exact hpoly
      simp [BitVec.msb_ushiftRight] at hhigh
  | false =>
      rw [hlow] at hout
      refine BitVec.eq_of_getLsbD_eq fun i _ => ?_
      cases i with
      | zero => simpa using hlow
      | succ i =>
          have hbit : (reg >>> 1).getLsbD i = false := by rw [hout]; simp [tap]
          rw [BitVec.getLsbD_ushiftRight, Nat.add_comm] at hbit
          simpa using hbit

theorem step_injective (hpoly : poly.msb = true) (b : Bool) :
    Function.Injective fun reg => step poly reg b := by
  intro x y hxy
  have hsum : step poly (x ^^^ y) (b ^^ b) = 0 := by
    rw [step_xor]
    exact BitVec.xor_eq_zero_iff.mpr hxy
  rw [Bool.xor_self] at hsum
  exact BitVec.xor_eq_zero_iff.mp (eq_zero_of_step hpoly hsum)

theorem shift_injective (hpoly : poly.msb = true) (n : Nat) : Function.Injective (shift poly n) :=
  (step_injective hpoly false).iterate n

theorem run_append : run poly reg (front ++ back) = run poly (run poly reg front) back :=
  List.foldl_append

theorem run_injective (hpoly : poly.msb = true) (bits : List Bool) :
    Function.Injective fun reg => run poly reg bits := by
  induction bits with
  | nil => exact Function.injective_id
  | cons b bits ih => exact ih.comp (step_injective hpoly b)

theorem pack_cons (hw : bits.length < w) : pack w (b :: bits) >>> 1 = pack w bits := by
  refine BitVec.eq_of_getLsbD_eq fun i hi => ?_
  rw [BitVec.getLsbD_ushiftRight, getLsbD_pack, getLsbD_pack, Nat.add_comm 1, List.getD_cons_succ]
  by_cases hlast : i + 1 < w
  · rw [decide_eq_true hlast, decide_eq_true hi]
  · rw [decide_eq_false hlast, Bool.false_and, getD_of_length_le (by omega), Bool.and_false]

-- Bits that the register has room for may be put into it at once.
theorem run_eq_shift (hw : bits.length ≤ w) :
    run poly reg bits = shift poly bits.length (reg ^^^ pack w bits) := by
  induction bits generalizing reg with
  | nil =>
      have hnil : pack w [] = 0 := BitVec.eq_of_getLsbD_eq fun i _ => by simp
      exact (BitVec.xor_zero.symm.trans (by rw [hnil]; rfl))
  | cons b bits ih =>
      rw [List.length_cons] at hw
      have hlow : (reg ^^^ pack w (b :: bits)).getLsbD 0 = (reg.getLsbD 0 ^^ b) := by
        rw [BitVec.getLsbD_xor, getLsbD_pack, decide_eq_true (by omega)]
        rfl
      have hstep :
          step poly (reg ^^^ pack w (b :: bits)) false = step poly reg b ^^^ pack w bits := by
        rw [step, step, hlow, Bool.xor_false, BitVec.ushiftRight_xor_distrib, pack_cons (by omega)]
        ac_rfl
      rw [List.length_cons, shift_succ, hstep]
      exact ih (by omega)

-- A register whose lowest bits are zero is moved down.
theorem shift_of_low (h : ∀ i, i < n → reg.getLsbD i = false) : shift poly n reg = reg >>> n := by
  induction n generalizing reg with
  | zero => exact (BitVec.ushiftRight_zero _).symm
  | succ n ih =>
      have hstep : step poly reg false = reg >>> 1 := by
        rw [step, h 0 (Nat.succ_pos n)]
        exact BitVec.xor_zero
      rw [shift_succ, hstep, ih fun i hi => ?_, ← BitVec.shiftRight_add, Nat.add_comm]
      rw [BitVec.getLsbD_ushiftRight, Nat.add_comm]
      exact h (i + 1) (Nat.succ_lt_succ hi)

-- So many lowest bits.
def low (w n : Nat) : BitVec w := BitVec.ofNat w (2 ^ n - 1)

@[simp] theorem getLsbD_low {i : Nat} :
    (low w n).getLsbD i = (decide (i < w) && decide (i < n)) := by
  rw [low, BitVec.getLsbD_ofNat, Nat.testBit_two_pow_sub_one]

-- Bits at once with a table of what the lowest bits of the register add to it.
theorem run_eq_table (hw : bits.length ≤ w) : run poly reg bits = (reg >>> bits.length) ^^^
    shift poly bits.length ((reg ^^^ pack w bits) &&& low w bits.length) := by
  have hlow : shift poly bits.length ((reg ^^^ pack w bits) &&& ~~~ low w bits.length) =
      reg >>> bits.length := by
    rw [shift_of_low fun i hi => by simp [hi]]
    refine BitVec.eq_of_getLsbD_eq fun i _ => ?_
    have hout : bits.getD (bits.length + i) false = false :=
      getD_of_length_le (Nat.le_add_right _ i)
    by_cases hin : bits.length + i < w
    · simp only [BitVec.getLsbD_ushiftRight, BitVec.getLsbD_and, BitVec.getLsbD_xor,
        BitVec.getLsbD_not, getLsbD_pack, getLsbD_low, hin, hout]
      simp
    · simp only [BitVec.getLsbD_ushiftRight, BitVec.getLsbD_of_ge _ _ (Nat.le_of_not_lt hin)]
  rw [run_eq_shift hw, ← hlow, ← shift_xor]
  congr 1
  refine BitVec.eq_of_getLsbD_eq fun i hi => ?_
  simp only [BitVec.getLsbD_xor, BitVec.getLsbD_and, BitVec.getLsbD_not, hi]
  cases (low w bits.length).getLsbD i <;> simp

-- Two messages that differ within as many bits as the register has leave different registers.
theorem run_ne_of_burst (hpoly : poly.msb = true) (hlength : bits.length = bits'.length)
    (hw : bits.length ≤ w) (hne : bits ≠ bits') :
    run poly reg (front ++ bits ++ back) ≠ run poly reg (front ++ bits' ++ back) := by
  simp only [run_append]
  intro h
  have hburst : run poly (run poly reg front) bits = run poly (run poly reg front) bits' :=
    run_injective hpoly back h
  have hw' : bits'.length ≤ w := by rwa [← hlength]
  generalize run poly reg front = r at hburst
  rw [run_eq_shift hw, run_eq_shift hw', hlength] at hburst
  exact hne (pack_inj hlength hw ((BitVec.xor_right_inj _).mp (shift_injective hpoly _ hburst)))

end Steps

end Verif.Crc
