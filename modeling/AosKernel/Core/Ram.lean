import AosKernel.Lib.Copy
import AosKernel.Lib.Span
import AosKernel.Lib.Words

namespace AosKernel.Core

open Verif

-- Memory, and the ranges of it that have been written, oldest first.
structure Ram where
  bytes : Bytes
  written : List Span

namespace Ram

-- `n` bytes from `a` on.
def store (r : Ram) (a n : Nat) (f : Nat → BitVec 8) : Ram where
  bytes := fun x => if a ≤ x ∧ x < a + n then f (x - a) else r.bytes x
  written := r.written ++ [⟨a, n⟩]

def write16 (r : Ram) (a : Nat) (v : BitVec 16) : Ram :=
  r.store a 2 fun i => v.extractLsb' (8 * i) 8

def write32 (r : Ram) (a : Nat) (v : BitVec 32) : Ram :=
  r.store a 4 fun i => v.extractLsb' (8 * i) 8

def writeWord (r : Ram) (a : Nat) (v : BitVec 64) : Ram :=
  r.store a 8 fun i => v.extractLsb' (8 * i) 8

def read16 (r : Ram) (a : Nat) : BitVec 16 := r.bytes (a + 1) ++ r.bytes a

def read32 (r : Ram) (a : Nat) : BitVec 32 :=
  r.bytes (a + 3) ++ r.bytes (a + 2) ++ r.bytes (a + 1) ++ r.bytes a

-- The address 0 is NULL.
def memcpy (r : Ram) (dest src n : Nat) : Ram :=
  if dest = 0 ∨ src = 0 then r
  else if n = 0 ∨ dest = src then r
  else
    { bytes := copyUp r.bytes dest src n
      written := r.written ++ [⟨dest, n⟩] }

def memmove (r : Ram) (dest src n : Nat) : Ram :=
  if dest = 0 ∨ src = 0 then r
  else if n = 0 ∨ dest = src then r
  else if dest < src then r.memcpy dest src n
  else
    { bytes := copyDown r.bytes dest src n
      written := r.written ++ [⟨dest, n⟩] }

-- Since `r`, only bytes of `span` have been written.
structure WritesIn (r r' : Ram) (span : Span) : Prop where
  log : ∃ more, r'.written = r.written ++ more ∧ ∀ s ∈ more, s.Inside span
  kept : ∀ x, ¬ Span.Mem x span → r'.bytes x = r.bytes x

theorem WritesIn.refl (r : Ram) (span : Span) : WritesIn r r span :=
  ⟨⟨[], by simp⟩, fun _ _ => rfl⟩

theorem WritesIn.trans {r r' r'' : Ram} {span : Span} (h : WritesIn r r' span)
    (h' : WritesIn r' r'' span) : WritesIn r r'' span := by
  obtain ⟨more, hmore, hin⟩ := h.log
  obtain ⟨more', hmore', hin'⟩ := h'.log
  refine ⟨⟨more ++ more', by rw [hmore', hmore, List.append_assoc], ?_⟩, fun x hx => ?_⟩
  · exact List.forall_mem_append.mpr ⟨hin, hin'⟩
  · rw [h'.kept x hx, h.kept x hx]

theorem WritesIn.mono {r r' : Ram} {span span' : Span} (h : WritesIn r r' span)
    (hin : span.Inside span') : WritesIn r r' span' := by
  obtain ⟨more, hmore, hall⟩ := h.log
  refine ⟨⟨more, hmore, fun s hs => ?_⟩, fun x hx => h.kept x (mt hin.mem hx)⟩
  exact ⟨Nat.le_trans hin.1 (hall s hs).1, Nat.le_trans (hall s hs).2 hin.2⟩

theorem store_writes (r : Ram) (a n : Nat) (f : Nat → BitVec 8) :
    WritesIn r (r.store a n f) ⟨a, n⟩ := by
  refine ⟨⟨[⟨a, n⟩], rfl, ?_⟩, fun x hx => if_neg hx⟩
  rintro s hs
  rw [List.mem_singleton.mp hs]
  exact ⟨Nat.le_refl _, Nat.le_refl _⟩

theorem write16_writes (r : Ram) (a : Nat) (v : BitVec 16) :
    WritesIn r (r.write16 a v) ⟨a, 2⟩ :=
  store_writes r a 2 _

theorem write32_writes (r : Ram) (a : Nat) (v : BitVec 32) :
    WritesIn r (r.write32 a v) ⟨a, 4⟩ :=
  store_writes r a 4 _

theorem writeWord_writes (r : Ram) (a : Nat) (v : BitVec 64) :
    WritesIn r (r.writeWord a v) ⟨a, 8⟩ :=
  store_writes r a 8 _

theorem writeWord_bytes (r : Ram) (a : Nat) (v : BitVec 64) :
    (r.writeWord a v).bytes = r.bytes.writeWord a v := rfl

theorem memcpy_writes (r : Ram) {dest src n : Nat} (h : dest ≤ src ∨ src + n ≤ dest) :
    WritesIn r (r.memcpy dest src n) ⟨dest, n⟩ := by
  unfold memcpy
  split
  · exact .refl r _
  · split
    · exact .refl r _
    · refine ⟨⟨[⟨dest, n⟩], rfl, ?_⟩, fun x hx => ?_⟩
      · intro s hs
        rw [List.mem_singleton.mp hs]
        exact ⟨Nat.le_refl _, Nat.le_refl _⟩
      · have hout : x < dest ∨ dest + n ≤ x := by
          simp only [Span.Mem] at hx
          omega
        exact (copyUp_eq r.bytes h x).trans (moved_out r.bytes hout)

-- The bytes that are copied, also where the two ranges overlap.
theorem memcpy_bytes (r : Ram) {dest src n : Nat} (hdest : dest ≠ 0) (hsrc : src ≠ 0)
    (h : dest ≤ src ∨ src + n ≤ dest) (x : Nat) :
    (r.memcpy dest src n).bytes x = moved r.bytes dest src n x := by
  unfold memcpy
  rw [if_neg (by omega)]
  by_cases hnone : n = 0 ∨ dest = src
  · rw [if_pos hnone]
    unfold moved
    split
    · apply congrArg r.bytes
      omega
    · rfl
  · rw [if_neg hnone]
    exact copyUp_eq r.bytes h x

theorem memmove_bytes (r : Ram) {dest src : Nat} (hdest : dest ≠ 0) (hsrc : src ≠ 0)
    (n x : Nat) : (r.memmove dest src n).bytes x = moved r.bytes dest src n x := by
  unfold memmove
  rw [if_neg (by omega)]
  by_cases hnone : n = 0 ∨ dest = src
  · rw [if_pos hnone]
    unfold moved
    split
    · apply congrArg r.bytes
      omega
    · rfl
  · rw [if_neg hnone]
    by_cases hlt : dest < src
    · rw [if_pos hlt, memcpy_bytes r hdest hsrc (.inl (Nat.le_of_lt hlt))]
    · rw [if_neg hlt]
      exact copyDown_eq r.bytes (.inl (Nat.le_of_not_lt hlt)) x

theorem memmove_writes (r : Ram) (dest src n : Nat) :
    WritesIn r (r.memmove dest src n) ⟨dest, n⟩ := by
  unfold memmove
  split
  · exact .refl r _
  · split
    · exact .refl r _
    · split
      · rename_i hlt
        exact memcpy_writes r (.inl (Nat.le_of_lt hlt))
      · rename_i hge
        refine ⟨⟨[⟨dest, n⟩], rfl, ?_⟩, fun x hx => ?_⟩
        · intro s hs
          rw [List.mem_singleton.mp hs]
          exact ⟨Nat.le_refl _, Nat.le_refl _⟩
        · have hout : x < dest ∨ dest + n ≤ x := by
            simp only [Span.Mem] at hx
            omega
          exact (copyDown_eq r.bytes (.inl (Nat.le_of_not_lt hge)) x).trans
            (moved_out r.bytes hout)

theorem read16_write16 (r : Ram) (a : Nat) (v : BitVec 16) : (r.write16 a v).read16 a = v := by
  have hhigh : (r.write16 a v).bytes (a + 1) = v.extractLsb' 8 8 := by
    show (if a ≤ a + 1 ∧ a + 1 < a + 2 then v.extractLsb' (8 * (a + 1 - a)) 8 else _) = _
    rw [if_pos (by omega), Nat.add_sub_cancel_left]
  have hlow : (r.write16 a v).bytes a = v.extractLsb' 0 8 := by
    show (if a ≤ a ∧ a < a + 2 then v.extractLsb' (8 * (a - a)) 8 else _) = _
    rw [if_pos (by omega), Nat.sub_self]
  rw [read16, hhigh, hlow,
    BitVec.extractLsb'_append_extractLsb'_eq_extractLsb' (show 8 = 0 + 8 from rfl)]
  exact BitVec.extractLsb'_eq_self

-- A cell depends on its two bytes only.
theorem read16_congr {r r' : Ram} {a b : Nat} (h : r'.bytes a = r.bytes b)
    (h' : r'.bytes (a + 1) = r.bytes (b + 1)) : r'.read16 a = r.read16 b := by
  rw [read16, read16, h, h']

theorem WritesIn.read16 {r r' : Ram} {span : Span} (h : WritesIn r r' span) {a : Nat}
    (ha : a + 2 ≤ span.base ∨ span.limit ≤ a) : r'.read16 a = r.read16 a := by
  rw [Span.limit] at ha
  apply read16_congr
  · exact h.kept a fun hmem => by
      simp only [Span.Mem] at hmem
      omega
  · exact h.kept (a + 1) fun hmem => by
      simp only [Span.Mem] at hmem
      omega

theorem read32_write32 (r : Ram) (a : Nat) (v : BitVec 32) : (r.write32 a v).read32 a = v := by
  have hbyte (i : Nat) (hi : i < 4) : (r.write32 a v).bytes (a + i) = v.extractLsb' (8 * i) 8 := by
    show (if a ≤ a + i ∧ a + i < a + 4 then v.extractLsb' (8 * (a + i - a)) 8 else _) = _
    rw [if_pos (by omega), Nat.add_sub_cancel_left]
  have hlow := hbyte 0 (by decide)
  rw [Nat.add_zero] at hlow
  rw [read32, hbyte 3 (by decide), hbyte 2 (by decide), hbyte 1 (by decide), hlow,
    BitVec.extractLsb'_append_extractLsb'_eq_extractLsb' (show 8 * 3 = 8 * 2 + 8 from rfl),
    BitVec.extractLsb'_append_extractLsb'_eq_extractLsb' (show 8 * 2 = 8 * 1 + 8 from rfl),
    BitVec.extractLsb'_append_extractLsb'_eq_extractLsb' (show 8 * 1 = 8 * 0 + 8 from rfl)]
  exact BitVec.extractLsb'_eq_self

theorem read32_congr {r r' : Ram} {a b : Nat} (h : ∀ i < 4, r'.bytes (a + i) = r.bytes (b + i)) :
    r'.read32 a = r.read32 b := by
  have hlow := h 0 (by decide)
  rw [Nat.add_zero, Nat.add_zero] at hlow
  rw [read32, read32, h 3 (by decide), h 2 (by decide), h 1 (by decide), hlow]

theorem WritesIn.read32 {r r' : Ram} {span : Span} (h : WritesIn r r' span) {a : Nat}
    (ha : a + 4 ≤ span.base ∨ span.limit ≤ a) : r'.read32 a = r.read32 a := by
  rw [Span.limit] at ha
  apply read32_congr
  intro i hi
  apply h.kept
  simp only [Span.Mem]
  omega

end Ram

end AosKernel.Core
