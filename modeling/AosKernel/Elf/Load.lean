import AosKernel.Lib.Span
import AosKernel.Elf.Format

namespace AosKernel.Elf

open Verif

def ALIGN_UP (x : Nat) : Nat := (x + 0xFFF) % 2 ^ 64 / 0x1000 * 0x1000

def ALIGN_DOWN (x : Nat) : Nat := x / 0x1000 * 0x1000

-- AllocatePages of the boot services, at a fixed address or at any. It fails for a
-- fixed address that is not aligned, and else it may answer pages that nobody has.
structure Firmware where
  initialized : Bool
  allocatePages : Option Nat → Nat → List Span → Option Nat
  aligned : ∀ {fixed pages taken base}, allocatePages fixed pages taken = some base →
    base % 0x1000 = 0
  fixed : ∀ {fixed pages taken base}, allocatePages (some fixed) pages taken = some base →
    base = fixed
  fits : ∀ {fixed pages taken base}, allocatePages fixed pages taken = some base →
    base + pages * 0x1000 ≤ 2 ^ 64
  own : ∀ {fixed pages taken base}, allocatePages fixed pages taken = some base →
    ∀ s ∈ taken, Span.Apart ⟨base, pages * 0x1000⟩ s

-- A write of `len` bytes from `addr` on, and the pages the loader had by then.
structure Write where
  addr : Nat
  len : Nat
  pages : List Span

structure LoadState where
  mem : Nat → UInt8
  pages : List Span
  writes : List Write

namespace LoadState

def write (s : LoadState) (addr len : Nat) (src : Nat → UInt8) : LoadState :=
  { s with mem := blit s.mem addr len src, writes := s.writes ++ [⟨addr, len, s.pages⟩] }

end LoadState

-- The image as the loader leaves it in its ELF_CTX.
structure Loaded where
  imageBase : Nat
  imageSize : Nat
  entry : Nat

namespace ElfPhdr

def loadable (ph : ElfPhdr) : Bool := ph.type == PT_LOAD && ph.memsz != 0

-- What the loader asks of a segment on its own, in a file of `size` bytes.
def sound (size : Nat) (ph : ElfPhdr) : Bool :=
  ph.align != 0 && ph.align &&& (ph.align - 1) == 0 && decide (ph.filesz ≤ ph.memsz) &&
    decide (ph.offset ≤ size) && decide (ph.filesz ≤ size - ph.offset) &&
    !(decide (ph.align > 1) && ph.vaddr % ph.align != ph.offset % ph.align) &&
    decide (ph.memsz ≤ UINT64_MAX - ph.vaddr)

-- Sums of p_vaddr and p_memsz have as many bits as these fields.
def overlaps (bits : Nat) (a b : ElfPhdr) : Bool :=
  decide (a.vaddr < (b.vaddr + b.memsz) % 2 ^ bits) &&
    decide (b.vaddr < (a.vaddr + a.memsz) % 2 ^ bits)

-- The inner loop, over the other segments.
def apartFrom (bits size : Nat) (phs : List ElfPhdr) (ph : ElfPhdr) (i : Nat) : Bool :=
  phs.zipIdx.all fun (xph, j) =>
    j == i || !xph.loadable || xph.sound size && !ph.overlaps bits xph

end ElfPhdr

-- memcpy of the part of a segment that is in the file.
def copyFile (data : List UInt8) (ph : ElfPhdr) (addr : Nat) (s : LoadState) : LoadState :=
  if ph.filesz > 0 then s.write addr ph.filesz fun k => data.getD (ph.offset + k) 0 else s

-- memset of the rest.
def clearRest (ph : ElfPhdr) (addr : Nat) (s : LoadState) : LoadState :=
  if ph.memsz > ph.filesz then
    s.write ((addr + ph.filesz) % 2 ^ 64) (ph.memsz - ph.filesz) fun _ => 0
  else s

def copySegment (data : List UInt8) (ph : ElfPhdr) (addr : Nat) (s : LoadState) :
    Except Fault LoadState :=
  if ph.filesz > 0 ∧ ¬ ph.offset + ph.filesz ≤ data.length then .error .outside
  else .ok (clearRest ph addr (copyFile data ph addr s))

-- What the first loop has found.
structure Scan where
  entryValid : Bool
  imageBase : Nat
  endSpace : Nat

def Scan.add (acc : Scan) (entry : Nat) (ph : ElfPhdr) : Scan where
  entryValid := acc.entryValid ||
    (ph.flags &&& PF_X != 0 && decide (entry < ph.vaddr + ph.memsz) && decide (entry ≥ ph.vaddr))
  imageBase := if ALIGN_DOWN ph.vaddr < acc.imageBase then ALIGN_DOWN ph.vaddr else acc.imageBase
  endSpace :=
    if ALIGN_UP (ph.vaddr + ph.memsz) > acc.endSpace then ALIGN_UP (ph.vaddr + ph.memsz)
    else acc.endSpace

section Load

variable (fw : Firmware) (bits : Nat) (data : List UInt8) (ctx : ElfCtx) (phs : List ElfPhdr)

-- The first loop. An image that is not relocatable is loaded in it.
def scanSegments : List (ElfPhdr × Nat) → Scan → LoadState →
    Except Fault (Option Scan × LoadState)
  | [], acc, s => .ok (some acc, s)
  | (ph, i) :: rest, acc, s =>
      if !ph.loadable then scanSegments rest acc s
      else if !(ph.sound data.length && ph.apartFrom bits data.length phs i) then .ok (none, s)
      else if ctx.reloc then scanSegments rest (acc.add ctx.entry ph) s
      else if ph.flags &&& PF_X = 0 ∧ ph.flags &&& PF_W = 0 ∧ ph.flags &&& PF_R = 0 then
        .ok (none, s)
      else
        match fw.allocatePages (some ph.vaddr) (ALIGN_UP ph.memsz / 0x1000) s.pages with
        | none => .ok (none, s)
        | some addr =>
            match copySegment data ph addr
                { s with pages := s.pages ++ [⟨addr, ALIGN_UP ph.memsz / 0x1000 * 0x1000⟩] } with
            | .error e => .error e
            | .ok s => scanSegments rest (acc.add ctx.entry ph) s

-- The second loop, for an image that is relocatable. `entry` is that of the image.
def placeSegments (imageBase loadBase entry : Nat) : List ElfPhdr → Bool → LoadState →
    Except Fault (Bool × LoadState)
  | [], entryValid, s => .ok (entryValid, s)
  | ph :: rest, entryValid, s =>
      if !ph.loadable then placeSegments imageBase loadBase entry rest entryValid s else
      let addr := (loadBase + (ph.vaddr + 2 ^ 64 - imageBase)) % 2 ^ 64
      match copySegment data ph addr s with
      | .error e => .error e
      | .ok s =>
          placeSegments imageBase loadBase entry rest
            (entryValid || (ph.flags &&& PF_X != 0 &&
              decide (entry < (addr + ph.memsz) % 2 ^ 64) && decide (entry ≥ addr))) s

-- elf64_load and elf32_load, once they have their program headers.
def loadSegments (s : LoadState) : Except Fault (Option Loaded × LoadState) :=
  match scanSegments fw bits data ctx phs phs.zipIdx ⟨false, UINT64_MAX, 0⟩ s with
  | .error e => .error e
  | .ok (none, s) => .ok (none, s)
  | .ok (some acc, s) =>
      if acc.imageBase = UINT64_MAX then .ok (none, s)
      else if acc.endSpace ≤ acc.imageBase then .ok (none, s)
      else
        let imageSize := acc.endSpace - acc.imageBase
        if ctx.reloc then
          match fw.allocatePages none (ALIGN_UP imageSize / 0x1000) s.pages with
          | none => .ok (none, s)
          | some loadBase =>
              let entry := (loadBase + (ctx.entry + 2 ^ 64 - acc.imageBase)) % 2 ^ 64
              match placeSegments data acc.imageBase loadBase entry phs acc.entryValid
                  { s with
                    pages := s.pages ++ [⟨loadBase, ALIGN_UP imageSize / 0x1000 * 0x1000⟩] } with
              | .error e => .error e
              | .ok (entryValid, s) =>
                  .ok (if entryValid then some ⟨loadBase, imageSize, entry⟩ else none, s)
        else
          .ok (if acc.entryValid then some ⟨acc.imageBase, imageSize, ctx.entry⟩ else none, s)

end Load

def elf64Load (fw : Firmware) (data : List UInt8) (ctx : ElfCtx) (s : LoadState) :
    Except Fault (Option Loaded × LoadState) :=
  if data.length = 0 ∨ !ctx.b64 then .ok (none, s) else do
  let phoff ← field data 32 8
  let phnum ← field data 56 2
  let phs ← phdrTable elf64Phdr sizeofElf64Phdr data phoff phnum
  loadSegments fw 64 data ctx phs s

def elf32Load (fw : Firmware) (data : List UInt8) (ctx : ElfCtx) (s : LoadState) :
    Except Fault (Option Loaded × LoadState) :=
  if data.length = 0 ∨ ctx.b64 then .ok (none, s) else do
  let phoff ← field data 28 4
  let phnum ← field data 44 2
  let phs ← phdrTable elf32Phdr sizeofElf32Phdr data phoff phnum
  loadSegments fw 32 data ctx phs s

def elfLoad (fw : Firmware) (data : List UInt8) (ctx : ElfCtx) (s : LoadState) :
    Except Fault (Option Loaded × LoadState) :=
  if data.length = 0 then .ok (none, s)
  else if ctx.b64 then elf64Load fw data ctx s
  else elf32Load fw data ctx s

-- What try_load_elf returns next to AOS_TRUE.
structure Kernel where
  image : Loaded
  stackBase : Nat
  stackTop : Nat

def tryLoadElf (fw : Firmware) (data : List UInt8) (s : LoadState) :
    Except Fault (Option Kernel × LoadState) :=
  if !fw.initialized then .ok (none, s) else do
  match ← elfMakeCtx data with
  | none => .ok (none, s)
  | some ctx =>
      let (image, s) ← elfLoad fw data ctx s
      .ok (image.map fun image =>
        { image
          stackTop := ALIGN_UP (image.imageBase + image.imageSize + 1 + 0x10000)
          stackBase := ALIGN_UP (image.imageBase + image.imageSize + 1) }, s)

end AosKernel.Elf
