import AosKernel.Boot.MemoryMap
import AosKernel.Lib.Blit

namespace AosKernel.Acpi

open Verif Boot

def AOS_DIRECT_MAP_BASE : Nat := 0xFFFF800000000000
def sizeofRsdpDescriptorV2 : Nat := 36

-- "RSD PTR "
def rsdpSignature : List UInt8 := [82, 83, 68, 32, 80, 84, 82, 32]

section Search

-- What the kernel reads at an address.
variable (mem : Nat → UInt8)

def acpiChecksum (table len : Nat) : UInt8 :=
  (List.range len).foldl (fun sum i => sum + mem (add64 table i)) 0

-- The descriptor at an address: its signature, the checksum of 20 bytes and, from revision
-- 2 on, that of the whole.
def rsdpValid (addr : Nat) : Bool :=
  (List.range 8).map (fun i => mem (add64 addr i)) == rsdpSignature &&
    acpiChecksum mem addr 20 == 0 &&
    (mem (add64 addr 15) < 2 || acpiChecksum mem addr sizeofRsdpDescriptorV2 == 0)

-- One of the three loops, up to the first descriptor. It has no value if it takes `fuel`
-- iterations or more.
def scan (limit : Nat) : Nat → Nat → Option (Option Nat)
  | 0, _ => none
  | fuel + 1, addr =>
      if addr < limit then
        if rsdpValid mem addr then some (some addr) else scan limit fuel (add64 addr 16)
      else some none

end Search

section Found

variable {mem : Nat → UInt8}

end Found

end AosKernel.Acpi
