import AosKernel.Lib.Bits
import AosKernel.Mm.Pager

namespace AosKernel.Mm

open Verif

-- The address fields of a present entry: bits 51..12, or 51..21 for a 2 MiB page.
def frameAddr (e : PageEntry) : PhysAddr := e &&& 0x000FFFFFFFFFF000
def hugeFrameAddr (e : PageEntry) : PhysAddr := e &&& 0x000FFFFFFFE00000

theorem present_eq (e : PageEntry) : present e = e.getLsbD 0 := by
  rw [present, show PAGE_PRESENT = bitField 0 1 by decide]
  exact and_bit_bne e (by decide)

theorem huge_eq (e : PageEntry) : huge e = e.getLsbD 7 := by
  rw [huge, show PAGE_HUGE = bitField 7 8 by decide]
  exact and_bit_bne e (by decide)

-- The address of a page, and one the processor has.
def IsPage (a : PhysAddr) : Prop := BitsWithin a 12 52

-- An address that passes the check of pager_map has no bit from 52 on.
theorem bitsWithin_of_not_beyond {bits : Nat} {a : PhysAddr} (hbits : bits ≤ 52)
    (h : beyondCpu bits a = false) : BitsWithin a 0 52 := by
  have hzero : a &&& ~~~ (1#64 <<< bits - 1) = 0 := by simpa [beyondCpu] using h
  rw [lowMask_eq hbits] at hzero
  intro i hbit
  have := bitsWithin_of_masked (by omega) hzero i hbit
  omega

theorem not_beyond_of_lt {bits : Nat} {a : PhysAddr} (hbits : bits ≤ 52) (h : a.toNat < 2 ^ bits) :
    beyondCpu bits a = false := by
  have hzero : a &&& ~~~ (1#64 <<< bits - 1) = 0 := by
    rw [lowMask_eq hbits]
    refine BitVec.eq_of_getLsbD_eq fun i _ => ?_
    rw [getLsbD_and_not_field a (by omega)]
    by_cases hlt : i < bits
    · simp [hlt]
    · have hpow : 2 ^ bits ≤ 2 ^ i := Nat.pow_le_pow_right (by decide) (by omega)
      have hbit : a.getLsbD i = false := by
        rw [← BitVec.testBit_toNat]
        exact Nat.testBit_lt_two_pow (by omega)
      simp [hbit]
  rw [beyondCpu, hzero]
  rfl

-- The masks of the source as bit fields.
theorem pageOffset_eq : (0xFFF : BitVec 64) = bitField 0 12 := by decide
theorem hugeOffset_eq : (0x1FFFFF : BitVec 64) = bitField 0 21 := by decide
theorem frameMask_eq : (0x000FFFFFFFFFF000 : BitVec 64) = bitField 12 52 := by decide
theorem hugeFrameMask_eq : (0x000FFFFFFFE00000 : BitVec 64) = bitField 21 52 := by decide

theorem getLsbD_frameAddr (e : PageEntry) (i : Nat) :
    (frameAddr e).getLsbD i = (decide (12 ≤ i ∧ i < 52) && e.getLsbD i) := by
  rw [frameAddr, frameMask_eq, getLsbD_and_field e (by decide)]

theorem getLsbD_hugeFrameAddr (e : PageEntry) (i : Nat) :
    (hugeFrameAddr e).getLsbD i = (decide (21 ≤ i ∧ i < 52) && e.getLsbD i) := by
  rw [hugeFrameAddr, hugeFrameMask_eq, getLsbD_and_field e (by decide)]

theorem getLsbD_pageAddr (e : PageEntry) (i : Nat) :
    (pageAddr e).getLsbD i = (!decide (0 ≤ i ∧ i < 12) && e.getLsbD i) := by
  rw [pageAddr, pageOffset_eq, getLsbD_and_not_field e (by decide)]

theorem getLsbD_hugeAddr (e : PageEntry) (i : Nat) :
    (hugeAddr e).getLsbD i = (!decide (0 ≤ i ∧ i < 21) && e.getLsbD i) := by
  rw [hugeAddr, hugeOffset_eq, getLsbD_and_not_field e (by decide)]

theorem getLsbD_linkEntry (table : PhysAddr) (i : Nat) :
    (linkEntry table).getLsbD i = (table.getLsbD i || decide (i < 2)) := by
  rw [linkEntry, BitVec.or_assoc, show PAGE_PRESENT ||| PAGE_RW = bitField 0 2 by decide,
    BitVec.getLsbD_or, getLsbD_bitField (by decide)]
  simp

theorem getLsbD_leafEntry (phys flags : BitVec 64) (i : Nat) :
    (leafEntry phys flags).getLsbD i =
      if i < 12 then flags.getLsbD i || decide (i = 0) else phys.getLsbD i := by
  rw [leafEntry, show PAGE_PRESENT = bitField 0 1 by decide, pageOffset_eq, BitVec.getLsbD_or,
    BitVec.getLsbD_or, getLsbD_pageAddr, getLsbD_and_field _ (by decide),
    getLsbD_bitField (by decide)]
  by_cases h : i < 12
  · simp [h]
  · simp [h, show ¬ i < 1 by omega]

theorem getLsbD_hugeEntry (phys flags : BitVec 64) (i : Nat) :
    (hugeEntry phys flags).getLsbD i =
      if i < 12 then flags.getLsbD i || decide (i = 0)
      else decide (21 ≤ i) && phys.getLsbD i := by
  rw [hugeEntry, show PAGE_PRESENT = bitField 0 1 by decide, pageOffset_eq, BitVec.getLsbD_or,
    BitVec.getLsbD_or, getLsbD_hugeAddr, getLsbD_and_field _ (by decide),
    getLsbD_bitField (by decide)]
  by_cases h : i < 12
  · simp [h, show i < 21 by omega]
  · have hmore : decide (21 ≤ i) = !decide (i < 21) := by
      rw [← decide_not, decide_eq_decide]
      omega
    simp [h, hmore, show ¬ i < 1 by omega]

theorem getLsbD_notPresent (e : PageEntry) (i : Nat) :
    (e &&& ~~~ PAGE_PRESENT).getLsbD i = (decide (i ≠ 0) && e.getLsbD i) := by
  rw [show PAGE_PRESENT = bitField 0 1 by decide, getLsbD_and_not_field e (by decide)]
  simp

@[simp] theorem present_zero : present 0 = false := by decide
@[simp] theorem huge_zero : huge 0 = false := by decide

@[simp] theorem present_linkEntry (table : PhysAddr) : present (linkEntry table) = true := by
  rw [present_eq, getLsbD_linkEntry]
  simp

theorem IsPage.not_huge {table : PhysAddr} (h : IsPage table) : huge (linkEntry table) = false := by
  rw [huge_eq, getLsbD_linkEntry, h.eq_false (by decide)]
  rfl

@[simp] theorem present_leafEntry (phys flags : BitVec 64) :
    present (leafEntry phys flags) = true := by
  rw [present_eq, getLsbD_leafEntry]
  simp

@[simp] theorem present_hugeEntry (phys flags : BitVec 64) :
    present (hugeEntry phys flags) = true := by
  rw [present_eq, getLsbD_hugeEntry]
  simp

@[simp] theorem huge_hugeEntry (phys flags : BitVec 64) :
    huge (hugeEntry phys flags) = huge flags := by
  rw [huge_eq, huge_eq, getLsbD_hugeEntry]
  simp

@[simp] theorem present_notPresent (e : PageEntry) : present (e &&& ~~~ PAGE_PRESENT) = false := by
  rw [present_eq, getLsbD_notPresent]
  simp

theorem huge_or_huge (flags : BitVec 64) : huge (flags ||| PAGE_HUGE) = true := by
  rw [huge_eq, BitVec.getLsbD_or, show PAGE_HUGE.getLsbD 7 = true by decide, Bool.or_true]

theorem IsPage.frameAddr_linkEntry {table : PhysAddr} (h : IsPage table) :
    frameAddr (linkEntry table) = table := by
  refine BitVec.eq_of_getLsbD_eq fun i _ => ?_
  rw [getLsbD_frameAddr, getLsbD_linkEntry]
  by_cases hin : 12 ≤ i ∧ i < 52
  · simp [hin, show ¬ i < 2 by omega]
  · simp [hin, h.eq_false (i := i) (by omega)]

-- For an entry without reserved bits the code and the processor see one table.
theorem pageAddr_eq_frameAddr {e : PageEntry} (h : BitsWithin e 0 52) :
    pageAddr e = frameAddr e := by
  refine BitVec.eq_of_getLsbD_eq fun i _ => ?_
  rw [getLsbD_pageAddr, getLsbD_frameAddr]
  by_cases hlt : i < 52
  · have hmore : decide (12 ≤ i) = !decide (i < 12) := by
      rw [← decide_not, decide_eq_decide]
      omega
    simp [hlt, hmore]
  · simp [h.eq_false (i := i) (by omega)]

theorem IsPage.bitsWithin_linkEntry {table : PhysAddr} (h : IsPage table) :
    BitsWithin (linkEntry table) 0 52 := by
  intro i hbit
  rw [getLsbD_linkEntry, Bool.or_eq_true, decide_eq_true_eq] at hbit
  rcases hbit with hbit | hlow
  · exact ⟨Nat.zero_le i, (h i hbit).2⟩
  · omega

theorem bitsWithin_leafEntry {phys : PhysAddr} (flags : BitVec 64) (h : BitsWithin phys 0 52) :
    BitsWithin (leafEntry phys flags) 0 52 := by
  intro i hbit
  rw [getLsbD_leafEntry] at hbit
  split at hbit
  · omega
  · exact h i hbit

theorem bitsWithin_hugeEntry {phys : PhysAddr} (flags : BitVec 64) (h : BitsWithin phys 0 52) :
    BitsWithin (hugeEntry phys flags) 0 52 := by
  intro i hbit
  rw [getLsbD_hugeEntry] at hbit
  split at hbit
  · omega
  · exact h i (Bool.and_eq_true _ _ ▸ hbit).2

theorem frameAddr_leafEntry {phys : PhysAddr} (flags : BitVec 64) (h : IsPage phys) :
    frameAddr (leafEntry phys flags) = phys := by
  refine BitVec.eq_of_getLsbD_eq fun i _ => ?_
  rw [getLsbD_frameAddr, getLsbD_leafEntry]
  by_cases hin : 12 ≤ i ∧ i < 52
  · simp [hin, show ¬ i < 12 by omega]
  · simp [hin, h.eq_false (i := i) (by omega)]

theorem hugeFrameAddr_hugeEntry {phys : PhysAddr} (flags : BitVec 64) (h : BitsWithin phys 21 52) :
    hugeFrameAddr (hugeEntry phys flags) = phys := by
  refine BitVec.eq_of_getLsbD_eq fun i _ => ?_
  rw [getLsbD_hugeFrameAddr, getLsbD_hugeEntry]
  by_cases hin : 21 ≤ i ∧ i < 52
  · simp [hin, show ¬ i < 12 by omega]
  · simp [hin, h.eq_false (i := i) (by omega)]

-- An entry that the code takes for one of `phys` is one.
theorem frameAddr_of_pageAddr {e : PageEntry} {phys : PhysAddr} (h : BitsWithin phys 12 52)
    (heq : pageAddr e = pageAddr phys) : frameAddr e = phys := by
  refine BitVec.eq_of_getLsbD_eq fun i _ => ?_
  have hbit := congrArg (fun w => w.getLsbD i) heq
  simp only [getLsbD_pageAddr] at hbit
  rw [getLsbD_frameAddr]
  by_cases hin : 12 ≤ i ∧ i < 52
  · simpa [hin, show ¬ i < 12 by omega] using hbit
  · simp [hin, h.eq_false (i := i) (by omega)]

theorem hugeFrameAddr_of_hugeAddr {e : PageEntry} {phys : PhysAddr} (h : BitsWithin phys 0 52)
    (heq : hugeAddr e = hugeAddr phys) : hugeFrameAddr e = hugeAddr phys := by
  rw [← heq]
  refine BitVec.eq_of_getLsbD_eq fun i _ => ?_
  have hbit := congrArg (fun w => w.getLsbD i) heq
  simp only [getLsbD_hugeAddr] at hbit
  rw [getLsbD_hugeFrameAddr, getLsbD_hugeAddr]
  by_cases h52 : i < 52
  · by_cases h21 : i < 21
    · simp [h21, show ¬ 21 ≤ i by omega]
    · simp [h52, h21, show 21 ≤ i by omega]
  · rw [h.eq_false (i := i) (by omega)] at hbit
    simpa [h52, show ¬ i < 21 by omega] using hbit

theorem hugeAddr_eq_self {phys : PhysAddr} (h : BitsWithin phys 21 52) : hugeAddr phys = phys := by
  refine BitVec.eq_of_getLsbD_eq fun i _ => ?_
  rw [getLsbD_hugeAddr]
  by_cases hlt : i < 21
  · simp [h.eq_false (i := i) (.inl hlt)]
  · simp [hlt]

theorem hugeAddr_or_and_low (phys v : BitVec 64) :
    (hugeAddr phys ||| (v &&& 0x1FFFFF)) &&& 0x1FFFFF = v &&& 0x1FFFFF := by
  refine BitVec.eq_of_getLsbD_eq fun i _ => ?_
  rw [hugeOffset_eq, getLsbD_and_field _ (by decide), BitVec.getLsbD_or, getLsbD_hugeAddr,
    getLsbD_and_field _ (by decide)]
  by_cases hlt : i < 21 <;> simp [hlt]

end AosKernel.Mm
