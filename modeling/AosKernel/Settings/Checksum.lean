import Mathlib.Data.Nat.Bitwise
import AosKernel.Lib.Crc
import AosKernel.Settings.Ambrc

namespace AosKernel.Settings

open Verif

-- crc32_table and table_computed. A table that counts as computed has its entries.
structure CrcTable where
  entries : Vector (BitVec 32) 256
  tableComputed : Bool
  filled : tableComputed = true → ∀ i : Fin 256, entries.get i = crc32Table (BitVec.ofNat 32 i)

-- The static data before the first call.
def CrcTable.initial : CrcTable := ⟨.replicate 256 0, false, nofun⟩

def generateCrc32Table : CrcTable where
  entries := .ofFn fun i => crc32Table (BitVec.ofNat 32 i)
  tableComputed := true
  filled := fun _ i => Vector.getElem_ofFn i.isLt

theorem low_byte_lt (x : BitVec 32) : (x &&& 0xFF).toNat < 256 := by
  rw [BitVec.toNat_and]
  exact lt_of_le_of_lt Nat.and_le_right (by decide)

def CrcTable.lookup (t : CrcTable) (x : BitVec 32) : BitVec 32 :=
  t.entries.get ⟨(x &&& 0xFF).toNat, low_byte_lt x⟩

-- calculate_crc32, and the table as it leaves it.
def CrcTable.calculateCrc32 (t : CrcTable) (data : List (BitVec 8)) : BitVec 32 × CrcTable :=
  let t := if t.tableComputed then t else generateCrc32Table
  (data.foldl (fun (crc : BitVec 32) b => (crc >>> 8) ^^^ t.lookup (crc ^^^ b.setWidth 32))
    (0xFFFFFFFF : BitVec 32) ^^^ 0xFFFFFFFF, t)

-- The bits of a byte in the order in which they are sent, the lowest first.
def byteBits (b : BitVec 8) : List Bool := (List.range 8).map b.getLsbD

-- The CRC of the bits, one at a time.
def bitSerialCrc32 (data : List (BitVec 8)) : BitVec 32 :=
  Crc.run 0xEDB88320 (BitVec.allOnes 32) (data.flatMap byteBits) ^^^ BitVec.allOnes 32

-- The check value of the CRC, that of the digits from 1 to 9.
example : bitSerialCrc32 [0x31, 0x32, 0x33, 0x34, 0x35, 0x36, 0x37, 0x38, 0x39] = 0xCBF43926 := by
  decide +kernel

section Checksums

variable {data data' : List (BitVec 8)} {b b' : BitVec 8} {t t' : CrcTable} {x crc : BitVec 32}

theorem CrcTable.lookup_eq (hcomputed : t.tableComputed = true) :
    t.lookup x = crc32Table (x &&& 0xFF) := by
  rw [lookup, t.filled hcomputed, BitVec.ofNat_toNat, BitVec.setWidth_eq]

-- Whether the table is there or is to be computed, its entries are used.
theorem CrcTable.calculateCrc32_eq : (t.calculateCrc32 data).1 = Settings.calculateCrc32 data := by
  unfold CrcTable.calculateCrc32 Settings.calculateCrc32
  have hcomputed : (if t.tableComputed then t else generateCrc32Table).tableComputed = true := by
    split_ifs with h
    · exact h
    · rfl
  simp only [lookup_eq hcomputed]

theorem low_bit : x &&& 1 ≠ 0 ↔ x.getLsbD 0 = true := by
  change x &&& 1#32 ≠ 0 ↔ _
  rw [BitVec.and_one_eq_setWidth_ofBool_getLsbD]
  cases x.getLsbD 0 <;> decide

-- An entry of the table is what eight bits that are zero make of its index.
theorem crc32Table_eq : crc32Table x = Crc.shift 0xEDB88320 8 x := by
  unfold crc32Table Crc.shift
  rw [List.foldl_const, List.length_range]
  congr 1
  funext crc
  rw [Crc.step, Bool.xor_false, Crc.tap]
  simp only [low_bit]
  split_ifs
  · rfl
  · exact BitVec.xor_zero.symm

theorem length_byteBits : (byteBits b).length = 8 := by
  rw [byteBits, List.length_map, List.length_range]

theorem getD_byteBits (i : Nat) : (byteBits b).getD i false = b.getLsbD i := by
  rw [List.getD_eq_getElem?_getD, byteBits, List.getElem?_map]
  by_cases hi : i < 8
  · rw [List.getElem?_range hi]
    rfl
  · rw [List.getElem?_eq_none (by rw [List.length_range]; omega),
      BitVec.getLsbD_of_ge b i (by omega)]
    rfl

theorem pack_byteBits : Crc.pack 32 (byteBits b) = b.setWidth 32 :=
  BitVec.eq_of_getLsbD_eq fun i _ => by
    rw [Crc.getLsbD_pack, getD_byteBits, BitVec.getLsbD_setWidth]

theorem byteBits_inj (h : byteBits b = byteBits b') : b = b' :=
  BitVec.eq_of_getLsbD_eq fun i _ => by rw [← getD_byteBits, ← getD_byteBits, h]

-- The step of a byte is that of its eight bits.
theorem run_byteBits : Crc.run 0xEDB88320 crc (byteBits b) =
    (crc >>> 8) ^^^ crc32Table ((crc ^^^ b.setWidth 32) &&& 0xFF) := by
  rw [Crc.run_eq_table (by rw [length_byteBits]; decide), length_byteBits, pack_byteBits,
    crc32Table_eq]
  rfl

theorem calculateCrc32_eq_bitSerial : Settings.calculateCrc32 data = bitSerialCrc32 data := by
  have hrun (crc : BitVec 32) : data.foldl (fun (crc : BitVec 32) b =>
      (crc >>> 8) ^^^ crc32Table ((crc ^^^ b.setWidth 32) &&& 0xFF)) crc =
        Crc.run 0xEDB88320 crc (data.flatMap byteBits) := by
    induction data generalizing crc with
    | nil => rfl
    | cons b data ih => rw [List.foldl_cons, List.flatMap_cons, Crc.run_append, run_byteBits, ih]
  unfold Settings.calculateCrc32 bitSerialCrc32
  rw [hrun]
  rfl

-- Strings that differ in one byte are equal before it and behind it.
theorem differs_split (hlength : data.length = data'.length)
    (honce : ∃! i : Nat, data[i]? ≠ data'[i]?) :
    ∃ front b b' back, b ≠ b' ∧ data = front ++ b :: back ∧ data' = front ++ b' :: back := by
  obtain ⟨i, hdiffer, hunique⟩ := honce
  have hi : i < data.length := by
    by_contra hge
    exact hdiffer (by rw [List.getElem?_eq_none (by omega), List.getElem?_eq_none (by omega)])
  have hi' : i < data'.length := hlength ▸ hi
  have hsame (j : Nat) (hj : j ≠ i) : data[j]? = data'[j]? := by
    by_contra hne
    exact hj (hunique j hne)
  have hfront : data'.take i = data.take i := List.ext_getElem? fun j => by
    rw [List.getElem?_take, List.getElem?_take]
    split_ifs with hj
    · exact (hsame j hj.ne).symm
    · rfl
  have hback : data'.drop (i + 1) = data.drop (i + 1) := List.ext_getElem? fun j => by
    rw [List.getElem?_drop, List.getElem?_drop, hsame _ (by omega)]
  refine ⟨data.take i, data[i], data'[i], data.drop (i + 1), fun heq => hdiffer ?_, ?_, ?_⟩
  · rw [List.getElem?_eq_getElem hi, List.getElem?_eq_getElem hi', heq]
  · rw [← List.drop_eq_getElem_cons, List.take_append_drop]
  · rw [← hfront, ← hback, ← List.drop_eq_getElem_cons, List.take_append_drop]

theorem bitSerialCrc32_ne (hlength : data.length = data'.length)
    (honce : ∃! i : Nat, data[i]? ≠ data'[i]?) : bitSerialCrc32 data ≠ bitSerialCrc32 data' := by
  obtain ⟨front, b, b', back, hne, rfl, rfl⟩ := differs_split hlength honce
  unfold bitSerialCrc32
  rw [Ne, BitVec.xor_left_inj, List.flatMap_append, List.flatMap_append, List.flatMap_cons,
    List.flatMap_cons, ← List.append_assoc, ← List.append_assoc]
  refine Crc.run_ne_of_burst (by decide) (by rw [length_byteBits, length_byteBits])
    (by rw [length_byteBits]; decide) fun h => hne (byteBits_inj h)

end Checksums

-- From a table that is computed or not, the checksum is the CRC of the bits, and strings of one
-- length that differ in one byte have different ones.
theorem calculateCrc32_detects (t t' : CrcTable) :
    (∀ data, (t.calculateCrc32 data).1 = bitSerialCrc32 data) ∧
      ∀ data data' : List (BitVec 8), data.length = data'.length →
        (∃! i : Nat, data[i]? ≠ data'[i]?) →
          (t.calculateCrc32 data).1 ≠ (t'.calculateCrc32 data').1 := by
  refine ⟨fun data => ?_, fun data data' hlength honce => ?_⟩
  · rw [CrcTable.calculateCrc32_eq, calculateCrc32_eq_bitSerial]
  · rw [CrcTable.calculateCrc32_eq, CrcTable.calculateCrc32_eq, calculateCrc32_eq_bitSerial,
      calculateCrc32_eq_bitSerial]
    exact bitSerialCrc32_ne hlength honce

theorem calculateCrc32_detects_one :
    (CrcTable.initial.calculateCrc32 [0, 1]).1 ≠ (CrcTable.initial.calculateCrc32 [0, 2]).1 := by
  refine (calculateCrc32_detects .initial .initial).2 _ _ rfl ⟨1, by decide, fun i hi => ?_⟩
  match i with
  | 0 => exact absurd rfl hi
  | 1 => rfl
  | i + 2 => exact absurd rfl hi

end AosKernel.Settings
