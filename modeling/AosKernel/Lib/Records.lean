import AosKernel.Lib.Blit

namespace Verif

-- The lowest `width` bytes of a number, lowest one first.
def bytesOf : Nat → Nat → List UInt8
  | 0, _ => []
  | width + 1, x => UInt8.ofNat x :: bytesOf width (x / 256)

-- The number in the bytes that follow the first `offset` ones.
def readLe (data : List UInt8) (offset width : Nat) : Nat := leNat ((data.drop offset).take width)

variable {width offset skipped x : Nat} {data rest : List UInt8}

@[simp] theorem length_bytesOf (width x : Nat) : (bytesOf width x).length = width := by
  induction width generalizing x with
  | zero => rfl
  | succ width ih => rw [bytesOf, List.length_cons, ih]

theorem leNat_bytesOf (width x : Nat) : leNat (bytesOf width x) = x % 256 ^ width := by
  induction width generalizing x with
  | zero => rw [bytesOf, leNat, Nat.pow_zero, Nat.mod_one]
  | succ width ih =>
      have hbyte : (UInt8.ofNat x).toNat = x % 256 := UInt8.toNat_ofNat'
      rw [bytesOf, leNat, ih, hbyte, Nat.pow_succ', Nat.mod_mul]

theorem bytesOf_leNat (bytes : List UInt8) : bytesOf bytes.length (leNat bytes) = bytes := by
  induction bytes with
  | nil => rfl
  | cons b bytes ih =>
      have hlow : UInt8.ofNat (b.toNat + 256 * leNat bytes) = b := by
        apply UInt8.toNat_inj.mp
        have hlt : b.toNat < 256 := b.toNat_lt
        rw [UInt8.toNat_ofNat', Nat.add_mul_mod_self_left, Nat.mod_eq_of_lt hlt]
      have hhigh : (b.toNat + 256 * leNat bytes) / 256 = leNat bytes := by
        have hlt : b.toNat < 256 := b.toNat_lt
        omega
      rw [List.length_cons, leNat, bytesOf, hlow, hhigh, ih]

-- What is written at the front is read back.
theorem readLe_bytesOf (width x : Nat) (rest : List UInt8) :
    readLe (bytesOf width x ++ rest) 0 width = x % 256 ^ width := by
  have hfront : (bytesOf width x ++ rest).take width = bytesOf width x :=
    List.take_left' (length_bytesOf width x)
  rw [readLe, List.drop_zero, hfront, leNat_bytesOf]

-- A read behind a field does not see it.
theorem readLe_skip (h : skipped ≤ offset) (x : Nat) (rest : List UInt8) (width : Nat) :
    readLe (bytesOf skipped x ++ rest) offset width = readLe rest (offset - skipped) width := by
  rw [readLe, readLe, List.drop_append, List.drop_eq_nil_of_le (by rw [length_bytesOf]; exact h),
    length_bytesOf, List.nil_append]

theorem readLe_behind (front rest : List UInt8) (offset width : Nat) :
    readLe (front ++ rest) (front.length + offset) width = readLe rest offset width := by
  rw [readLe, readLe, List.drop_length_add_append]

section Fields

variable {w w' : Nat}

-- A field of a record as it lies in memory, and what is read at its place.
def fieldBytes (v : BitVec w) : List UInt8 := bytesOf (w / 8) v.toNat

def fieldAt (w : Nat) (data : List UInt8) (offset : Nat) : BitVec w :=
  BitVec.ofNat w (readLe data offset (w / 8))

@[simp] theorem length_fieldBytes (v : BitVec w) : (fieldBytes v).length = w / 8 :=
  length_bytesOf _ _

theorem fieldAt_here (h : w % 8 = 0) (v : BitVec w) (rest : List UInt8) :
    fieldAt w (fieldBytes v ++ rest) 0 = v := by
  have hwidth : 256 ^ (w / 8) = 2 ^ w := by
    rw [show 256 = 2 ^ 8 from rfl, ← Nat.pow_mul, Nat.mul_div_cancel' (Nat.dvd_of_mod_eq_zero h)]
  rw [fieldAt, fieldBytes, readLe_bytesOf, hwidth, Nat.mod_eq_of_lt v.isLt, BitVec.ofNat_toNat,
    BitVec.setWidth_eq]

theorem fieldAt_skip {offset : Nat} (h : w' / 8 ≤ offset) (v : BitVec w') (rest : List UInt8) :
    fieldAt w (fieldBytes v ++ rest) offset = fieldAt w rest (offset - w' / 8) := by
  rw [fieldAt, fieldBytes, readLe_skip h, fieldAt]

theorem fieldAt_behind (front rest : List UInt8) (offset : Nat) :
    fieldAt w (front ++ rest) (front.length + offset) = fieldAt w rest offset := by
  rw [fieldAt, readLe_behind, fieldAt]

theorem fieldAt_front (front rest : List UInt8) :
    fieldAt w (front ++ rest) front.length = fieldAt w rest 0 :=
  fieldAt_behind front rest 0

end Fields

end Verif
