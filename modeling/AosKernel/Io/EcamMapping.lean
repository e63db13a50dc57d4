import Mathlib.Algebra.Group.Int.Defs
import AosKernel.Io.Pcie
import AosKernel.Lib.Blit
import AosKernel.Mm.PagerRange

namespace AosKernel.Io

open Verif Verif.Exec Mm

def PAGE_PWT : BitVec 64 := 0x8

section Table

-- The memory from the MCFG table on.
variable (mem : Nat → UInt8)

end Table

namespace AcpiMcfgEntry

-- The product is one of int, negative where the last bus comes before the first.
def size (e : AcpiMcfgEntry) : Nat :=
  ((((e.endBus : Int) - e.startBus + 1) * 1024 * 1024) % 2 ^ 64).toNat

-- What acpi_parse_mcfg has mapped for an entry.
def window (e : AcpiMcfgEntry) : MapRange :=
  ⟨BitVec.ofNat 64 (AOS_DIRECT_MAP_BASE + e.baseAddr), BitVec.ofNat 64 e.baseAddr, e.size,
    PAGE_PRESENT ||| PAGE_RW ||| PAGE_PCD ||| PAGE_PWT⟩

def registers (e : AcpiMcfgEntry) : Span := ⟨e.baseAddr, e.size⟩

-- Firmware puts the registers of the buses on whole pages that the processor has and
-- the direct map reaches.
structure Placed (e : AcpiMcfgEntry) (bits : Nat) : Prop where
  buses : e.startBus ≤ e.endBus
  aligned : e.baseAddr % PAGE_SIZE = 0
  direct : e.registers.limit ≤ 2 ^ 47
  cpu : e.registers.limit ≤ 2 ^ bits
  bits_le : bits ≤ 52

end AcpiMcfgEntry

section Windows

variable {e e' : AcpiMcfgEntry} {bits : Nat}

theorem size_eq (h : e.startBus ≤ e.endBus) : e.size = (e.endBus - e.startBus + 1) * 2 ^ 20 := by
  have hend := e.endBus_lt
  unfold AcpiMcfgEntry.size
  omega

theorem toNat_phys (e : AcpiMcfgEntry) : e.window.phys.toNat = e.baseAddr := by
  rw [AcpiMcfgEntry.window, BitVec.toNat_ofNat, Nat.mod_eq_of_lt e.base_lt]

end Windows

section Parse

variable {alloc : Kernel (Option PhysAddr)} {entries : List AcpiMcfgEntry}

end Parse

-- Where the registers of a function are in physical memory.
def PcieArgs.register (a : PcieArgs) (e : AcpiMcfgEntry) : Nat :=
  e.baseAddr + 4 * a.index e.startBus

section Registers

variable {entries : List AcpiMcfgEntry} {a b : PcieArgs} {e e' : AcpiMcfgEntry}

end Registers

end AosKernel.Io
