import AosKernel.Lib.Blit

namespace AosKernel.Elf

open Verif

-- A read outside the file.
inductive Fault
  | outside
  deriving DecidableEq

-- The number in `width` bytes of the file.
def le (data : List UInt8) (offset width : Nat) : Nat := leNat ((data.drop offset).take width)

def field (data : List UInt8) (offset width : Nat) : Except Fault Nat :=
  if offset + width ≤ data.length then .ok (le data offset width) else .error .outside

def sizeofElf32Ehdr : Nat := 52
def sizeofElf64Ehdr : Nat := 64
def sizeofElf32Phdr : Nat := 32
def sizeofElf64Phdr : Nat := 56

def ELFMAG : Nat := 0x464C457F
def ELFCLASS32 : Nat := 1
def ELFCLASS64 : Nat := 2
def ELFDATA2LSB : Nat := 1
def ELFDATA2MSB : Nat := 2
def EV_CURRENT : Nat := 1
def EM_X86_64 : Nat := 62
def ET_EXEC : Nat := 2
def ET_DYN : Nat := 3
def PT_LOAD : Nat := 1
def PT_DYNAMIC : Nat := 2
def PF_X : Nat := 1 <<< 0
def PF_W : Nat := 1 <<< 1
def PF_R : Nat := 1 <<< 2
def UINT64_MAX : Nat := 2 ^ 64 - 1

-- An Elf64_Phdr or an Elf32_Phdr.
structure ElfPhdr where
  type : Nat
  flags : Nat
  offset : Nat
  vaddr : Nat
  filesz : Nat
  memsz : Nat
  align : Nat
  deriving DecidableEq

def elf64Phdr (data : List UInt8) (base : Nat) : ElfPhdr where
  type := le data base 4
  flags := le data (base + 4) 4
  offset := le data (base + 8) 8
  vaddr := le data (base + 16) 8
  filesz := le data (base + 32) 8
  memsz := le data (base + 40) 8
  align := le data (base + 48) 8

def elf32Phdr (data : List UInt8) (base : Nat) : ElfPhdr where
  type := le data base 4
  offset := le data (base + 4) 4
  vaddr := le data (base + 8) 4
  filesz := le data (base + 16) 4
  memsz := le data (base + 20) 4
  flags := le data (base + 24) 4
  align := le data (base + 28) 4

-- The program headers, `count` of them from `phoff` on.
def phdrTable (phdr : List UInt8 → Nat → ElfPhdr) (size : Nat) (data : List UInt8)
    (phoff count : Nat) : Except Fault (List ElfPhdr) :=
  if phoff + count * size ≤ data.length then
    .ok ((List.range count).map fun i => phdr data (phoff + i * size))
  else .error .outside

-- What elf64_verify and elf32_verify check, with the fields of their header and the
-- size of its program headers.
def elfVerify (phoffAt phoffWidth phentsizeAt phnumAt phdrSize : Nat) (data : List UInt8) :
    Except Fault Bool := do
  let magic ← field data 0 4
  if magic ≠ ELFMAG then pure false else do
  let phoff ← field data phoffAt phoffWidth
  if phoff ≥ data.length then pure false else do
  let phnum ← field data phnumAt 2
  if phnum = 0 then pure false else do
  let phentsize ← field data phentsizeAt 2
  if phentsize ≠ phdrSize then pure false
  else if phnum > (UINT64_MAX - phoff) / phdrSize then pure false
  else if (phoff + phnum * phdrSize) % 2 ^ 64 > data.length then pure false
  else pure true

def elf64Verify (data : List UInt8) : Except Fault Bool :=
  elfVerify 32 8 54 56 sizeofElf64Phdr data

def elf32Verify (data : List UInt8) : Except Fault Bool :=
  elfVerify 28 4 42 44 sizeofElf32Phdr data

-- An ELF_CTX that is valid. `entry` is that of the file.
structure ElfCtx where
  b64 : Bool
  le : Bool
  reloc : Bool
  entry : Nat
  deriving DecidableEq

def finishCtx (b64 littleEndian : Bool) (type entry : Nat) : Option ElfCtx :=
  if type = ET_EXEC then some ⟨b64, littleEndian, false, entry⟩
  else if type = ET_DYN then some ⟨b64, littleEndian, true, entry⟩
  else none

def elfMakeCtx (data : List UInt8) : Except Fault (Option ElfCtx) :=
  if data.length < sizeofElf32Ehdr then pure none else do
  let magic ← field data 0 4
  if magic ≠ ELFMAG then pure none else do
  let identVersion ← field data 6 1
  if identVersion ≠ EV_CURRENT then pure none else do
  let identClass ← field data 4 1
  if identClass ≠ ELFCLASS64 ∧ identClass ≠ ELFCLASS32 then pure none else do
  let identData ← field data 5 1
  if identData ≠ ELFDATA2LSB ∧ identData ≠ ELFDATA2MSB then pure none else do
  let machine ← field data 18 2
  if machine ≠ EM_X86_64 then pure none else do
  let version ← field data 20 4
  if version ≠ EV_CURRENT then pure none else
  if identClass = ELFCLASS64 then
    if data.length < sizeofElf64Ehdr then pure none else do
    if ← elf64Verify data then do
      let type ← field data 16 2
      let entry ← field data 24 8
      pure (finishCtx true (identData = ELFDATA2LSB) type entry)
    else pure none
  else do
    if ← elf32Verify data then do
      let type ← field data 16 2
      let entry ← field data 24 4
      pure (finishCtx false (identData = ELFDATA2LSB) type entry)
    else pure none

end AosKernel.Elf
