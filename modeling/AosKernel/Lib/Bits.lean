import Mathlib.Algebra.Group.Nat.Defs
import Mathlib.Data.Nat.Basic
import Mathlib.Tactic.ByContra

namespace Verif

-- The word with exactly the bits `lo..hi-1`.
def bitField (lo hi : Nat) : BitVec 64 := BitVec.ofNat 64 ((2 ^ (hi - lo) - 1) <<< lo)

theorem getLsbD_bitField {lo hi : Nat} (hhi : hi ≤ 64) (i : Nat) :
    (bitField lo hi).getLsbD i = decide (lo ≤ i ∧ i < hi) := by
  rw [bitField, BitVec.getLsbD_ofNat, Nat.testBit_shiftLeft, Nat.testBit_two_pow_sub_one,
    ← Bool.decide_and, ← Bool.decide_and, decide_eq_decide]
  omega

-- Every bit of `a` lies in `lo..hi-1`.
def BitsWithin (a : BitVec 64) (lo hi : Nat) : Prop :=
  ∀ i, a.getLsbD i = true → lo ≤ i ∧ i < hi

theorem BitsWithin.eq_false {a : BitVec 64} {lo hi i : Nat} (h : BitsWithin a lo hi)
    (hi : i < lo ∨ hi ≤ i) : a.getLsbD i = false := by
  cases hbit : a.getLsbD i with
  | false => rfl
  | true =>
      have := h i hbit
      omega

theorem lowMask_eq {bits : Nat} (h : bits ≤ 52) : 1#64 <<< bits - 1 = bitField 0 bits := by
  have hlt : 2 ^ bits < 2 ^ 64 := Nat.pow_lt_pow_right (by decide) (by omega)
  have hpos : 0 < 2 ^ bits := Nat.two_pow_pos bits
  have hone : (1#64 <<< bits).toNat = 2 ^ bits := by
    rw [BitVec.toNat_shiftLeft, BitVec.toNat_ofNat, Nat.shiftLeft_eq, Nat.one_mod, Nat.one_mul]
    exact Nat.mod_eq_of_lt hlt
  refine BitVec.eq_of_toNat_eq ?_
  rw [BitVec.toNat_sub, hone, bitField, BitVec.toNat_ofNat, Nat.shiftLeft_zero, Nat.sub_zero,
    show BitVec.toNat (1 : BitVec 64) = 1 from rfl]
  omega

theorem getLsbD_and_field (e : BitVec 64) {lo hi : Nat} (hhi : hi ≤ 64) (i : Nat) :
    (e &&& bitField lo hi).getLsbD i = (decide (lo ≤ i ∧ i < hi) && e.getLsbD i) := by
  rw [BitVec.getLsbD_and, getLsbD_bitField hhi, Bool.and_comm]

theorem getLsbD_and_not_field (e : BitVec 64) {lo hi : Nat} (hhi : hi ≤ 64) (i : Nat) :
    (e &&& ~~~ bitField lo hi).getLsbD i = (!decide (lo ≤ i ∧ i < hi) && e.getLsbD i) := by
  rw [BitVec.getLsbD_and, BitVec.getLsbD_not, getLsbD_bitField hhi]
  cases hbit : e.getLsbD i with
  | false => simp
  | true => simp [BitVec.lt_of_getLsbD hbit]

-- A word that the mask `~field` leaves nothing of has only bits of the field.
theorem bitsWithin_of_masked {a : BitVec 64} {lo hi : Nat} (hhi : hi ≤ 64)
    (h : a &&& ~~~ bitField lo hi = 0) : BitsWithin a lo hi := by
  intro i hbit
  have hmask : (a &&& ~~~ bitField lo hi).getLsbD i = _ := getLsbD_and_not_field a hhi i
  rw [h, hbit] at hmask
  simpa using hmask

theorem bitsWithin_of_aligned {a : BitVec 64} {n hi : Nat} (hn : n ≤ 64)
    (h : a &&& bitField 0 n = 0) (ha : BitsWithin a 0 hi) : BitsWithin a n hi := by
  intro i hbit
  have hmask : (a &&& bitField 0 n).getLsbD i = _ := getLsbD_and_field a hn i
  rw [h, hbit] at hmask
  refine ⟨?_, (ha i hbit).2⟩
  simpa using hmask

theorem bitsWithin_ofNat {k n : Nat} (hk : k < 2 ^ n) : BitsWithin (BitVec.ofNat 64 k) 0 n := by
  intro i hbit
  refine ⟨Nat.zero_le i, ?_⟩
  by_contra hge
  rw [BitVec.getLsbD_ofNat] at hbit
  have hpow : 2 ^ n ≤ 2 ^ i := Nat.pow_le_pow_right (by decide) (by omega)
  rw [Nat.testBit_lt_two_pow (by omega : k < 2 ^ i)] at hbit
  simp at hbit

-- An offset below the alignment of an address goes into its low bits.
theorem BitsWithin.add_eq_or {a : BitVec 64} {n hi k : Nat} (ha : BitsWithin a n hi)
    (hk : k < 2 ^ n) : a + BitVec.ofNat 64 k = a ||| BitVec.ofNat 64 k := by
  apply BitVec.add_eq_or_of_and_eq_zero
  refine BitVec.eq_of_getLsbD_eq fun i hi => ?_
  rw [BitVec.getLsbD_and]
  by_cases hlt : i < n
  · simp [ha.eq_false (.inl hlt)]
  · simp [(bitsWithin_ofNat hk).eq_false (i := i) (.inr (by omega))]

theorem BitsWithin.add_and_low {a : BitVec 64} {n hi k : Nat} (ha : BitsWithin a n hi)
    (hn : n ≤ 64) (hk : k < 2 ^ n) :
    (a + BitVec.ofNat 64 k) &&& bitField 0 n = BitVec.ofNat 64 k := by
  rw [ha.add_eq_or hk]
  refine BitVec.eq_of_getLsbD_eq fun i _ => ?_
  rw [getLsbD_and_field _ hn, BitVec.getLsbD_or]
  by_cases hlt : i < n
  · simp [hlt, ha.eq_false (i := i) (.inl hlt)]
  · simp [hlt, (bitsWithin_ofNat hk).eq_false (i := i) (.inr (by omega))]

theorem bitsWithin_of_mod {a : BitVec 64} {n : Nat} (h : a.toNat % 2 ^ n = 0) :
    BitsWithin a n 64 := by
  intro i hbit
  refine ⟨?_, BitVec.lt_of_getLsbD hbit⟩
  by_contra hlt
  have htest := Nat.testBit_mod_two_pow a.toNat n i
  rw [h, BitVec.testBit_toNat, hbit] at htest
  simp at htest
  omega

theorem BitsWithin.mono {a : BitVec 64} {lo hi lo' hi' : Nat} (h : BitsWithin a lo hi)
    (hlo : lo' ≤ lo) (hhi : hi ≤ hi') : BitsWithin a lo' hi' :=
  fun i hbit => ⟨Nat.le_trans hlo (h i hbit).1, Nat.lt_of_lt_of_le (h i hbit).2 hhi⟩

theorem BitsWithin.inter {a : BitVec 64} {lo hi lo' hi' : Nat} (h : BitsWithin a lo hi)
    (h' : BitsWithin a lo' hi') : BitsWithin a lo hi' :=
  fun i hbit => ⟨(h i hbit).1, (h' i hbit).2⟩

theorem and_low_eq_iff (a b : BitVec 64) {n : Nat} (hn : n ≤ 64) :
    a &&& bitField 0 n = b &&& bitField 0 n ↔ a.toNat % 2 ^ n = b.toNat % 2 ^ n := by
  have hmask : (bitField 0 n).toNat = 2 ^ n - 1 := by
    have hle : 2 ^ n ≤ 2 ^ 64 := Nat.pow_le_pow_right (by decide) hn
    have hpos : 0 < 2 ^ n := Nat.two_pow_pos n
    rw [bitField, BitVec.toNat_ofNat, Nat.shiftLeft_zero, Nat.sub_zero]
    omega
  rw [← BitVec.toNat_inj, BitVec.toNat_and, BitVec.toNat_and, hmask,
    Nat.and_two_pow_sub_one_eq_mod, Nat.and_two_pow_sub_one_eq_mod]

-- The block of one word and the offset of another.
theorem toNat_high_or_low (a w : BitVec 64) {n : Nat} (hn : n ≤ 64) :
    ((a &&& ~~~ bitField 0 n) ||| (w &&& bitField 0 n)).toNat =
      2 ^ n * (a.toNat / 2 ^ n) + w.toNat % 2 ^ n := by
  refine Nat.eq_of_testBit_eq fun i => ?_
  rw [BitVec.testBit_toNat, BitVec.getLsbD_or, getLsbD_and_not_field a hn,
    getLsbD_and_field w hn, Nat.testBit_two_pow_mul_add _ (Nat.mod_lt _ (Nat.two_pow_pos n))]
  split
  · rename_i hi
    simp [hi, Nat.testBit_mod_two_pow, BitVec.testBit_toNat]
  · rename_i hi
    simp [hi, Nat.testBit_div_two_pow, Nat.sub_add_cancel (Nat.le_of_not_lt hi),
      BitVec.testBit_toNat]

-- An offset inside an aligned block changes neither the block nor wraps.
theorem toNat_add_offset {a : BitVec 64} {n k : Nat} (hn : n ≤ 64) (ha : a.toNat % 2 ^ n = 0)
    (hk : k < 2 ^ n) : (a + BitVec.ofNat 64 k).toNat / 2 ^ n = a.toNat / 2 ^ n := by
  have hdvd : 2 ^ n ∣ 2 ^ 64 := Nat.pow_dvd_pow 2 hn
  obtain ⟨m, hm⟩ := hdvd
  obtain ⟨q, hq⟩ := Nat.dvd_of_mod_eq_zero ha
  have hqm : q < m := by
    have := a.isLt
    rw [hm, hq] at this
    exact Nat.lt_of_mul_lt_mul_left this
  have hpos : 0 < 2 ^ n := Nat.two_pow_pos n
  have hfit : 2 ^ n * q + k < 2 ^ 64 := by
    calc 2 ^ n * q + k < 2 ^ n * q + 2 ^ n := by omega
      _ = 2 ^ n * (q + 1) := by rw [Nat.mul_succ]
      _ ≤ 2 ^ n * m := Nat.mul_le_mul_left _ hqm
      _ = 2 ^ 64 := hm.symm
  rw [BitVec.toNat_add, BitVec.toNat_ofNat, Nat.add_mod_mod, hq, Nat.mod_eq_of_lt hfit,
    Nat.mul_add_div hpos, Nat.div_eq_of_lt hk, Nat.mul_div_cancel_left q hpos, Nat.add_zero]

theorem and_bit_bne (e : BitVec 64) {n : Nat} (h : n < 64) :
    (e &&& bitField n (n + 1) != 0) = e.getLsbD n := by
  cases hbit : e.getLsbD n with
  | false =>
      have hzero : e &&& bitField n (n + 1) = 0 := by
        refine BitVec.eq_of_getLsbD_eq fun i hi => ?_
        rw [BitVec.getLsbD_and, getLsbD_bitField h]
        by_cases heq : i = n
        · simp [heq, hbit]
        · have hout : ¬ (n ≤ i ∧ i < n + 1) := by omega
          rw [decide_eq_false hout, Bool.and_false]
          exact BitVec.getLsbD_zero.symm
      simp [hzero]
  | true =>
      refine bne_iff_ne.mpr fun hzero => ?_
      have hn := congrArg (fun w => w.getLsbD n) hzero
      simp [hbit, getLsbD_bitField h] at hn

end Verif
