import AosKernel.Elf.LoadRuns

namespace AosKernel.Elf

open Verif

-- The program headers of a 64-bit file.
def phdrs (data : List UInt8) : List ElfPhdr :=
  (List.range (le data 56 2)).map fun i => elf64Phdr data (le data 32 8 + i * sizeofElf64Phdr)

section Reads

variable {data : List UInt8}

theorem field_ok {offset width : Nat} (h : offset + width ≤ data.length) :
    field data offset width = .ok (le data offset width) := if_pos h

theorem le_lt (data : List UInt8) (offset width : Nat) : le data offset width < 256 ^ width := by
  refine (leNat_lt _).trans_le (Nat.pow_le_pow_right (by decide) ?_)
  exact List.length_take_le ..

theorem bind_ok {α β : Type} (a : α) (f : α → Except Fault β) : (Except.ok a >>= f) = f a := rfl

-- A read inside the file goes on with what is there.
theorem field_bind_ok {α : Type} {f : Nat → Except Fault α} {P : α → Prop} {offset width : Nat}
    (h : offset + width ≤ data.length) (hf : ∃ r, f (le data offset width) = .ok r ∧ P r) :
    ∃ r, (field data offset width >>= f) = .ok r ∧ P r := by
  rwa [field_ok h, bind_ok]

-- A check that fails ends with an answer of its own.
theorem checked_ok {α : Type} {c : Prop} [Decidable c] {no : α} {m : Except Fault α}
    {P : α → Prop} (hno : P no) (hm : ¬ c → ∃ r, m = .ok r ∧ P r) :
    ∃ r, (if c then pure no else m) = .ok r ∧ P r := by
  by_cases hc : c
  · rw [if_pos hc]
    exact ⟨no, rfl, hno⟩
  · rw [if_neg hc]
    exact hm hc

-- The check of a header reads inside it. It accepts program headers in the file.
theorem elfVerify_ok {phoffAt phoffWidth phentsizeAt phnumAt phdrSize : Nat}
    (hmagic : 4 ≤ data.length) (hphoff : phoffAt + phoffWidth ≤ data.length)
    (hphnum : phnumAt + 2 ≤ data.length) (hphentsize : phentsizeAt + 2 ≤ data.length)
    (hwidth : phoffWidth ≤ 8) :
    ∃ b, elfVerify phoffAt phoffWidth phentsizeAt phnumAt phdrSize data = .ok b ∧
      (b = true → le data phoffAt phoffWidth + le data phnumAt 2 * phdrSize ≤ data.length) := by
  have hno : false = true → le data phoffAt phoffWidth + le data phnumAt 2 * phdrSize ≤ data.length :=
    fun hyes => nomatch hyes
  unfold elfVerify
  refine field_bind_ok (by omega) (checked_ok hno fun _ => ?_)
  refine field_bind_ok hphoff (checked_ok hno fun _ => ?_)
  refine field_bind_ok hphnum (checked_ok hno fun _ => ?_)
  refine field_bind_ok hphentsize (checked_ok hno fun _ => ?_)
  refine checked_ok hno fun hfew => checked_ok hno fun hin => ?_
  have hlt : le data phoffAt phoffWidth < 2 ^ 64 :=
    (le_lt ..).trans_le (Nat.pow_le_pow_right (by decide) hwidth)
  have hmul : le data phnumAt 2 * phdrSize ≤ UINT64_MAX - le data phoffAt phoffWidth :=
    (Nat.mul_le_mul_right _ (Nat.not_lt.mp hfew)).trans (Nat.div_mul_le_self _ _)
  simp only [UINT64_MAX] at hmul
  exact ⟨true, rfl, fun _ => by omega⟩

theorem elf64Verify_ok (h : sizeofElf64Ehdr ≤ data.length) :
    ∃ b, elf64Verify data = .ok b ∧
      (b = true → le data 32 8 + le data 56 2 * sizeofElf64Phdr ≤ data.length) := by
  simp only [sizeofElf64Ehdr] at h
  exact elfVerify_ok (by omega) (by omega) (by omega) (by omega) (by decide)

theorem elf32Verify_ok (h : sizeofElf32Ehdr ≤ data.length) :
    ∃ b, elf32Verify data = .ok b ∧
      (b = true → le data 28 4 + le data 44 2 * sizeofElf32Phdr ≤ data.length) := by
  simp only [sizeofElf32Ehdr] at h
  exact elfVerify_ok (by omega) (by omega) (by omega) (by omega) (by decide)

theorem finishCtx_eq {b64 littleEndian : Bool} {type entry : Nat} {ctx : ElfCtx}
    (h : finishCtx b64 littleEndian type entry = some ctx) :
    ctx.b64 = b64 ∧ ctx.entry = entry := by
  unfold finishCtx at h
  split at h
  · cases h
    exact ⟨rfl, rfl⟩
  · split at h
    · cases h
      exact ⟨rfl, rfl⟩
    · cases h

-- elf_make_ctx reads inside the file, and so does who trusts its answer.
theorem elfMakeCtx_ok (data : List UInt8) :
    ∃ r, elfMakeCtx data = .ok r ∧ ∀ ctx, r = some ctx → ctx.b64 = true →
      sizeofElf64Ehdr ≤ data.length ∧
        le data 32 8 + le data 56 2 * sizeofElf64Phdr ≤ data.length ∧ ctx.entry < 2 ^ 64 := by
  have hno : ∀ ctx, (none : Option ElfCtx) = some ctx → ctx.b64 = true →
      sizeofElf64Ehdr ≤ data.length ∧
        le data 32 8 + le data 56 2 * sizeofElf64Phdr ≤ data.length ∧ ctx.entry < 2 ^ 64 :=
    fun _ hyes => nomatch hyes
  unfold elfMakeCtx
  refine checked_ok hno fun hsize => ?_
  have h52 : 52 ≤ data.length := by
    simp only [sizeofElf32Ehdr] at hsize
    omega
  refine field_bind_ok (by omega) (checked_ok hno fun _ => ?_)
  refine field_bind_ok (by omega) (checked_ok hno fun _ => ?_)
  refine field_bind_ok (by omega) (checked_ok hno fun _ => ?_)
  refine field_bind_ok (by omega) (checked_ok hno fun _ => ?_)
  refine field_bind_ok (by omega) (checked_ok hno fun _ => ?_)
  refine field_bind_ok (by omega) (checked_ok hno fun _ => ?_)
  by_cases hclass : le data 4 1 = ELFCLASS64
  · rw [if_pos hclass]
    refine checked_ok hno fun h64 => ?_
    obtain ⟨b, hb, htable⟩ := elf64Verify_ok (Nat.not_lt.mp h64)
    rw [hb, bind_ok]
    cases b with
    | false => exact ⟨none, rfl, hno⟩
    | true =>
        rw [if_pos rfl, field_ok (by omega), bind_ok, field_ok (by omega), bind_ok]
        refine ⟨_, rfl, fun ctx hctx _ => ⟨Nat.not_lt.mp h64, htable rfl, ?_⟩⟩
        rw [(finishCtx_eq hctx).2]
        exact le_lt ..
  · rw [if_neg hclass]
    obtain ⟨b, hb, -⟩ := elf32Verify_ok h52
    rw [hb, bind_ok]
    cases b with
    | false => exact ⟨none, rfl, hno⟩
    | true =>
        rw [if_pos rfl, field_ok (by omega), bind_ok, field_ok (by omega), bind_ok]
        refine ⟨_, rfl, fun ctx hctx hb64 => ?_⟩
        rw [(finishCtx_eq hctx).1] at hb64
        cases hb64

theorem phdrTable_ok {phoff count : Nat} (phdr : List UInt8 → Nat → ElfPhdr) {size : Nat}
    (h : phoff + count * size ≤ data.length) :
    phdrTable phdr size data phoff count =
      .ok ((List.range count).map fun i => phdr data (phoff + i * size)) := if_pos h

-- A 64-bit file that elf_make_ctx accepts is loaded by its program headers.
theorem elf64Load_eq {fw : Firmware} {ctx : ElfCtx} {s : LoadState} (hb64 : ctx.b64 = true)
    (hsize : sizeofElf64Ehdr ≤ data.length)
    (htable : le data 32 8 + le data 56 2 * sizeofElf64Phdr ≤ data.length) :
    elf64Load fw data ctx s = loadSegments fw 64 data ctx (phdrs data) s := by
  simp only [sizeofElf64Ehdr] at hsize
  have hgo : ¬ (data.length = 0 ∨ (!ctx.b64) = true) := by
    rw [hb64]
    simp only [Bool.not_true, Bool.false_eq_true, or_false]
    omega
  rw [elf64Load, if_neg hgo, field_ok (by omega), bind_ok, field_ok (by omega), bind_ok,
    phdrTable_ok _ htable, bind_ok, phdrs]

end Reads

end AosKernel.Elf
