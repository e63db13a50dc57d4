import AosKernel.Font.Packing
import AosKernel.Font.Writer

namespace AosKernel.Font

open Verif

-- How many bits a pixel has.
def PixelMode.depth : PixelMode → Nat
  | .mono => 1
  | .gray2 => 2
  | .gray4 => 4
  | _ => 8

-- The gray level in column `x` of row `y`. The pixels of a row follow each other from the
-- highest bit of its first byte on.
def FtBitmap.level (b : FtBitmap) (x y : Nat) : Nat :=
  let bit := x * b.pixelMode.depth
  (b.buffer.getD (y * b.pitch + bit / 8) 0).toNat / 2 ^ (8 - b.pixelMode.depth - bit % 8) %
    2 ^ b.pixelMode.depth

-- White, as opaque as the level says.
def FtBitmap.rgba (b : FtBitmap) (x y : Nat) : BitVec 32 :=
  rgbaWord 255 255 255 (UInt8.ofNat (b.level x y * 255 / (2 ^ b.pixelMode.depth - 1)))

theorem mono_level (byte : UInt8) (bit : Nat) :
    (if byte.toNat.testBit bit then (255 : UInt8) else 0) =
      UInt8.ofNat (byte.toNat / 2 ^ bit % 2 ^ 1 * 255 / (2 ^ 1 - 1)) := by
  rw [Nat.testBit_eq_decide_div_mod_eq, Nat.pow_one, Nat.div_one]
  rcases Nat.mod_two_eq_zero_or_one (byte.toNat / 2 ^ bit) with hclear | hset
  · rw [hclear]
    rfl
  · rw [hset]
    rfl

theorem shiftRight_toNat (byte : UInt8) {shift : Nat} (hshift : shift < 8) :
    (byte >>> UInt8.ofNat shift).toNat = byte.toNat / 2 ^ shift := by
  have hshift' : (UInt8.ofNat shift).toNat = shift := by
    rw [UInt8.toNat_ofNat']
    exact Nat.mod_eq_of_lt (by omega)
  rw [UInt8.toNat_shiftRight, hshift', Nat.mod_eq_of_lt hshift, Nat.shiftRight_eq_div_pow]

theorem gray2_level (byte : UInt8) {shift : Nat} (hshift : shift < 8) :
    (byte >>> UInt8.ofNat shift &&& 3) * 85 =
      UInt8.ofNat (byte.toNat / 2 ^ shift % 2 ^ 2 * 255 / (2 ^ 2 - 1)) := by
  have hmask : byte.toNat / 2 ^ shift &&& 3 = byte.toNat / 2 ^ shift % 2 ^ 2 :=
    Nat.and_two_pow_sub_one_eq_mod _ 2
  apply UInt8.toNat_inj.mp
  rw [UInt8.toNat_mul, UInt8.toNat_and, shiftRight_toNat byte hshift, UInt8.toNat_ofNat']
  show (byte.toNat / 2 ^ shift &&& 3) * 85 % 2 ^ 8 = _
  rw [hmask]
  omega

theorem gray4_level (byte : UInt8) {level : Nat} (hbyte : byte.toNat = level) :
    byte * 17 = UInt8.ofNat (level * 255 / (2 ^ 4 - 1)) := by
  apply UInt8.toNat_inj.mp
  rw [UInt8.toNat_mul, hbyte, UInt8.toNat_ofNat']
  show level * 17 % 2 ^ 8 = _
  omega

theorem gray_level (byte : UInt8) :
    byte = UInt8.ofNat (byte.toNat / 2 ^ 0 % 2 ^ 8 * 255 / (2 ^ 8 - 1)) := by
  have hbyte := byte.toNat_lt
  apply UInt8.toNat_inj.mp
  rw [UInt8.toNat_ofNat']
  omega

-- The converter sees each pixel at its level.
theorem pixel_level {b : FtBitmap} {format : Format}
    (hformat : getBitmapAosbfCformat b.pixelMode = some format) {row : Nat → Except Stop UInt8}
    {x y : Nat} (hx : x < b.width)
    (hrow : ∀ i < format.minimumPitch b.width, row i = .ok (b.buffer.getD (y * b.pitch + i) 0)) :
    format.pixel row x = .ok (b.rgba x y) := by
  unfold FtBitmap.rgba FtBitmap.level
  cases hmode : b.pixelMode with
  | mono =>
      rw [hmode] at hformat
      cases hformat
      have hbit : 7 - x % 8 = 8 - 1 - x * 1 % 8 := by omega
      rw [Format.pixel, hrow (x / 8) (by rw [Format.minimumPitch]; omega), bind_ok, mono_level, hbit]
      simp only [PixelMode.depth, Nat.mul_one]
  | gray =>
      rw [hmode] at hformat
      cases hformat
      have hbyte : x * 8 / 8 = x := by omega
      have hbit : 8 - 8 - x * 8 % 8 = 0 := by omega
      rw [Format.pixel, hrow x hx, bind_ok]
      simp only [PixelMode.depth, hbyte, hbit]
      rw [← gray_level]
  | gray2 =>
      rw [hmode] at hformat
      cases hformat
      have hbyte : x * 2 / 8 = x / 4 := by omega
      have hbit : 8 - 2 - x * 2 % 8 = 6 - x % 4 * 2 := by omega
      rw [Format.pixel, hrow (x / 4) (by rw [Format.minimumPitch]; omega), bind_ok,
        gray2_level _ (by omega)]
      simp only [PixelMode.depth, hbyte, hbit]
  | gray4 =>
      rw [hmode] at hformat
      cases hformat
      have hbyte : x * 4 / 8 = x / 2 := by omega
      rw [Format.pixel, hrow (x / 2) (by rw [Format.minimumPitch]; omega), bind_ok]
      simp only [PixelMode.depth, hbyte]
      generalize b.buffer.getD (y * b.pitch + x / 2) 0 = byte
      by_cases hodd : x % 2 = 1
      · have hbit : 8 - 4 - x * 4 % 8 = 0 := by omega
        have hmask : (byte &&& 0x0F).toNat = byte.toNat / 2 ^ 0 % 2 ^ 4 := by
          rw [UInt8.toNat_and, Nat.pow_zero, Nat.div_one]
          exact Nat.and_two_pow_sub_one_eq_mod _ 4
        rw [if_pos hodd, hbit, gray4_level _ hmask]
      · have hbit : 8 - 4 - x * 4 % 8 = 4 := by omega
        have hhigh : (byte >>> 4).toNat = byte.toNat / 2 ^ 4 % 2 ^ 4 := by
          have hlt := byte.toNat_lt
          have hshift : (byte >>> 4).toNat = byte.toNat / 2 ^ 4 :=
            shiftRight_toNat byte (by decide)
          rw [hshift]
          omega
        rw [if_neg hodd, hbit, gray4_level _ hhigh]
  | none | lcd | lcdV | bgra =>
      rw [hmode] at hformat
      cases hformat

end AosKernel.Font
