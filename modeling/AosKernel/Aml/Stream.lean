import Mathlib.Tactic.Ring
import AosKernel.Lib.Records
import AosKernel.Lib.Scan

namespace AosKernel.Aml

open Verif Exec

-- Why the parser stops: it reports an error, it reads outside the stream, or it has not come
-- to an end in the iterations it was given.
inductive AmlStop
  | refused
  | outside
  | unfinished
  deriving DecidableEq

section Reading

-- The bytes from `start` to `end`. The state is the place of `ptr` in them.
variable (data : List UInt8)

def amlPeek : Exec AmlStop Nat UInt8 := do
  let ptr ← get
  if ptr > data.length then throw .refused
  else
    match data[ptr]? with
    | some c => pure c
    | none => throw .outside

def amlNext : Exec AmlStop Nat UInt8 := do
  let ptr ← get
  match data[ptr]? with
  | none => throw .refused
  | some c => do
      set (ptr + 1)
      pure c

-- `count` bytes, each put eight bits above the one before.
def orBytes (w : Nat) : Nat → Nat → BitVec w → Exec AmlStop Nat (BitVec w)
  | 0, _, value => pure value
  | count + 1, shift, value => do
      let c ← amlNext data
      orBytes w count (shift + 8) (value ||| c.toBitVec.setWidth w <<< shift)

def amlParsePkglen : Exec AmlStop Nat (BitVec 32) := do
  let lead ← amlNext data
  let bytesFollow := lead >>> 6
  if bytesFollow = 0 then pure ((lead &&& 0b00111111).toBitVec.setWidth 32)
  else if bytesFollow > 3 then throw .refused
  else if (lead >>> 4) &&& 0b11 ≠ 0 then throw .refused
  else orBytes data 32 bytesFollow.toNat 4 ((lead &&& 0b00001111).toBitVec.setWidth 32)

def amlParseByte : Exec AmlStop Nat (BitVec 8) := do
  let c ← amlNext data
  pure c.toBitVec

def amlParseWord : Exec AmlStop Nat (BitVec 16) := orBytes data 16 2 0 0

def amlParseDword : Exec AmlStop Nat (BitVec 32) := orBytes data 32 4 0 0

def amlParseQword : Exec AmlStop Nat (BitVec 64) := orBytes data 64 8 0 0

end Reading

section Readers

variable {data : List UInt8} {p : Nat}

theorem prefix_singleton_iff {c : UInt8} : [c] <+: data.drop p ↔ data[p]? = some c := by
  rw [← List.head?_drop]
  cases data.drop p with
  | nil => simp
  | cons d rest => simp [eq_comm]

theorem amlNext_scans (data : List UInt8) (p : Nat) :
    Scans data AmlStop.refused (amlNext data) (fun _ code c => code = [c]) p where
  complete := by
    rintro _ c rfl hstarts
    have hc := prefix_singleton_iff.mp hstarts
    simp [Returns, amlNext, hc]
    rfl
  sound := by
    unfold amlNext
    rw [sat_bind, sat_get]
    cases hc : data[p]? with
    | none => rfl
    | some c => exact ⟨[c], rfl, prefix_singleton_iff.mpr hc, rfl⟩

-- A byte and what is read behind it.
theorem amlNext_bind_here {α : Type} {f : UInt8 → Exec AmlStop Nat α}
    {H : UInt8 → Nat → List UInt8 → α → Prop}
    (hf : ∀ c, data[p]? = some c → Scans data AmlStop.refused (f c) (H c) (p + 1)) :
    Scans data AmlStop.refused (amlNext data >>= f)
      (fun p code a => ∃ c back, code = c :: back ∧ H c (p + 1) back a) p := by
  refine ((amlNext_scans data p).bind (H := H) ?_).congr fun code a => ?_
  · rintro _ c rfl hstarts
    exact hf c (prefix_singleton_iff.mp hstarts)
  · constructor
    · rintro ⟨_, c, back, rfl, hback, rfl⟩
      exact ⟨c, back, rfl, hback⟩
    · rintro ⟨c, back, rfl, hback⟩
      exact ⟨[c], c, back, rfl, hback, rfl⟩

theorem amlNext_bind {α : Type} {f : UInt8 → Exec AmlStop Nat α}
    {H : UInt8 → Nat → List UInt8 → α → Prop}
    (hf : ∀ c, Scans data AmlStop.refused (f c) (H c) (p + 1)) :
    Scans data AmlStop.refused (amlNext data >>= f)
      (fun p code a => ∃ c back, code = c :: back ∧ H c (p + 1) back a) p :=
  amlNext_bind_here fun c _ => hf c

theorem amlPeek_at {c : UInt8} (h : data[p]? = some c) : Returns (amlPeek data) p c p := by
  have hlt : p < data.length := (List.getElem?_eq_some_iff.mp h).1
  simp [Returns, amlPeek, h, Nat.not_lt.mpr (Nat.le_of_lt hlt)]
  rfl

-- At the end the check lets the read pass, which is one outside.
theorem amlPeek_end : Stops (amlPeek data) data.length .outside := by
  simp [Stops, amlPeek]
  rfl

theorem amlPeek_behind (h : data.length < p) : Stops (amlPeek data) p .refused := by
  simp [Stops, amlPeek, h]
  rfl

theorem toNat_or_byte {w shift : Nat} {value : BitVec w} (c : UInt8) (hv : value.toNat < 2 ^ shift)
    (hw : shift + 8 ≤ w) :
    (value ||| c.toBitVec.setWidth w <<< shift).toNat = value.toNat + c.toNat * 2 ^ shift := by
  have hbyte : c.toNat < 2 ^ 8 := c.toNat_lt
  have hwide : c.toNat < 2 ^ w :=
    Nat.lt_of_lt_of_le hbyte (Nat.pow_le_pow_right (by decide) (by omega))
  have hshifted : c.toNat <<< shift < 2 ^ w := by
    rw [Nat.shiftLeft_eq]
    calc c.toNat * 2 ^ shift < 2 ^ 8 * 2 ^ shift :=
          Nat.mul_lt_mul_of_pos_right hbyte (Nat.two_pow_pos _)
      _ = 2 ^ (8 + shift) := (Nat.pow_add 2 8 shift).symm
      _ ≤ 2 ^ w := Nat.pow_le_pow_right (by decide) (by omega)
  rw [BitVec.toNat_or, BitVec.toNat_shiftLeft, BitVec.toNat_setWidth, UInt8.toNat_toBitVec,
    Nat.mod_eq_of_lt hwide, Nat.mod_eq_of_lt hshifted, Nat.or_comm,
    ← Nat.shiftLeft_add_eq_or_of_lt hv, Nat.shiftLeft_eq, Nat.add_comm]

-- The bytes are read as a number, above what there was.
theorem orBytes_scans {w count shift : Nat} {value : BitVec w} (hv : value.toNat < 2 ^ shift)
    (hw : shift + 8 * count ≤ w) :
    Scans data AmlStop.refused (orBytes data w count shift value) (fun _ code r =>
      code.length = count ∧ r.toNat = value.toNat + leNat code * 2 ^ shift) p := by
  induction count generalizing shift value p with
  | zero =>
      refine (Scans.pure value).congr fun code r => ?_
      constructor
      · rintro ⟨rfl, rfl⟩
        exact ⟨rfl, by rw [leNat, Nat.zero_mul, Nat.add_zero]⟩
      · rintro ⟨hlength, hr⟩
        obtain rfl := List.length_eq_zero_iff.mp hlength
        rw [leNat, Nat.zero_mul, Nat.add_zero] at hr
        exact ⟨rfl, BitVec.eq_of_toNat_eq hr⟩
  | succ count ih =>
      have hvalue (c : UInt8) := toNat_or_byte c hv (show shift + 8 ≤ w by omega)
      have hlt (c : UInt8) :
          (value ||| c.toBitVec.setWidth w <<< shift).toNat < 2 ^ (shift + 8) := by
        have hbyte : c.toNat + 1 ≤ 2 ^ 8 := c.toNat_lt
        have hmul := Nat.mul_le_mul_right (2 ^ shift) hbyte
        rw [Nat.add_mul, ← Nat.pow_add, Nat.add_comm 8 shift] at hmul
        rw [hvalue c]
        omega
      refine (amlNext_bind fun c => ih (hlt c) (by omega)).congr fun code r => ?_
      constructor
      · rintro ⟨c, back, rfl, hlength, hr⟩
        refine ⟨by rw [← hlength]; rfl, ?_⟩
        rw [hr, hvalue, leNat, Nat.pow_add]
        ring
      · rintro ⟨hlength, hr⟩
        obtain ⟨c, back, rfl⟩ := List.exists_cons_of_length_eq_add_one hlength
        refine ⟨c, back, rfl, Nat.succ.inj hlength, ?_⟩
        rw [hr, hvalue, leNat, Nat.pow_add]
        ring

-- What stands for a number of `count` bytes are the bytes of it.
theorem orBytes_number {w count : Nat} (hw : 8 * count = w) :
    Scans data AmlStop.refused (orBytes data w count 0 0) (fun _ code r =>
      code = bytesOf count r.toNat) p := by
  refine (orBytes_scans (by simp) (by omega)).congr fun code r => ?_
  have hr : r.toNat < 256 ^ count := by
    have hpow : 2 ^ w = 256 ^ count := by rw [← hw, Nat.pow_mul]
    rw [← hpow]
    exact r.isLt
  have hzero : (0 : BitVec w).toNat = 0 := by simp
  rw [hzero, Nat.zero_add, Nat.pow_zero, Nat.mul_one]
  constructor
  · rintro ⟨rfl, hnat⟩
    rw [hnat, bytesOf_leNat]
  · rintro rfl
    exact ⟨length_bytesOf count _, by rw [leNat_bytesOf, Nat.mod_eq_of_lt hr]⟩

end Readers

end AosKernel.Aml
