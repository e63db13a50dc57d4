import AosKernel.Mm.Region

namespace AosKernel.Io

open Mm

-- An entry of the MCFG table.
structure AcpiMcfgEntry where
  baseAddr : Nat
  pcieSegment : Nat
  startBus : Nat
  endBus : Nat
  base_lt : baseAddr < 2 ^ 64
  segment_lt : pcieSegment < 2 ^ 16
  startBus_lt : startBus < 2 ^ 8
  endBus_lt : endBus < 2 ^ 8

-- What an access to configuration space names: the function and the byte in it.
structure PcieArgs where
  bus : Nat
  slot : Nat
  func : Nat
  offset : Nat
  bus_lt : bus < 256
  slot_lt : slot < 32
  func_lt : func < 8
  offset_lt : offset < 256

-- A dword of configuration space, by its virtual address or through the ports.
inductive PcieDword
  | mmio (virtAddr : Nat)
  | port (addr : Nat)
  deriving DecidableEq

-- Configuration space. `config` is behind port 0xCFC, for what was put in 0xCF8.
structure PcieSpace where
  mmio : Nat → UInt32
  config : Nat → UInt32
  cf8 : Nat

namespace PcieSpace

def load (m : PcieSpace) : PcieDword → UInt32 × PcieSpace
  | .mmio virtAddr => (m.mmio virtAddr, m)
  | .port addr => (m.config addr, { m with cf8 := addr })

def store (m : PcieSpace) (value : UInt32) : PcieDword → PcieSpace
  | .mmio virtAddr => { m with mmio := Function.update m.mmio virtAddr value }
  | .port addr => { m with config := Function.update m.config addr value, cf8 := addr }

def dword (m : PcieSpace) : PcieDword → UInt32
  | .mmio virtAddr => m.mmio virtAddr
  | .port addr => m.config addr

end PcieSpace

section Accessors

-- `none` where the machine has no MCFG table.
variable (mcfgTable : Option (List AcpiMcfgEntry))

-- The entry that get_segment finds.
def getSegment (bus : Nat) : Option AcpiMcfgEntry :=
  match mcfgTable with
  | none => none
  | some entries => entries.find? fun e => decide (bus ≥ e.startBus) && decide (bus ≤ e.endBus)

def legacyAddr (bus slot func offset : Nat) : Nat :=
  1 <<< 31 ||| bus <<< 16 ||| slot <<< 11 ||| func <<< 8 ||| offset &&& 0xFC

def pcieReadAt (bus slot func offset : Nat) : PcieDword :=
  let offset := offset &&& 0xFC
  match getSegment mcfgTable bus with
  | some e => .mmio (((AOS_DIRECT_MAP_BASE + e.baseAddr) +
      ((bus + 2 ^ 64 - e.startBus) % 2 ^ 64) <<< 20 + slot <<< 15 + func <<< 12 + offset) % 2 ^ 64)
  | none => .port (legacyAddr bus slot func offset)

def pcieWriteAt (bus slot func offset : Nat) : PcieDword :=
  let offset := offset &&& 0xFC
  match getSegment mcfgTable bus with
  | some e => .mmio (((AOS_DIRECT_MAP_BASE + e.baseAddr) + e.pcieSegment <<< 28 +
      ((bus + 2 ^ 64 - e.startBus) % 2 ^ 64) <<< 20 + slot <<< 15 + func <<< 12 + offset) % 2 ^ 64)
  | none => .port (legacyAddr bus slot func offset)

def pcieRead (bus slot func offset : Nat) (m : PcieSpace) : UInt32 × PcieSpace :=
  m.load (pcieReadAt mcfgTable bus slot func offset)

def pcieWrite (bus slot func offset : Nat) (value : UInt32) (m : PcieSpace) : PcieSpace :=
  m.store value (pcieWriteAt mcfgTable bus slot func offset)

def pcieConfigRead16 (bus slot func offset : Nat) (m : PcieSpace) : UInt16 × PcieSpace :=
  let offset := offset &&& 0xFC
  let (value, m) := pcieRead mcfgTable bus slot func (offset &&& 0xFC) m
  if offset &&& 2 ≠ 0 then ((value >>> 16).toUInt16, m) else ((value &&& 0xFFFF).toUInt16, m)

def pcieToggleBusmaster (bus slot func : Nat) (toggle : Bool) (m : PcieSpace) : PcieSpace :=
  let (cmdReg, m) := pcieRead mcfgTable bus slot func 0x04 m
  pcieWrite mcfgTable bus slot func 0x04
    (if toggle then cmdReg ||| (1 : UInt32) <<< 2 else cmdReg &&& ~~~((1 : UInt32) <<< 2)) m

end Accessors

namespace PcieArgs

def readAt (mcfgTable : Option (List AcpiMcfgEntry)) (a : PcieArgs) : PcieDword :=
  pcieReadAt mcfgTable a.bus a.slot a.func a.offset

def writeAt (mcfgTable : Option (List AcpiMcfgEntry)) (a : PcieArgs) : PcieDword :=
  pcieWriteAt mcfgTable a.bus a.slot a.func a.offset

-- The same dword of the same function.
def Same (a b : PcieArgs) : Prop :=
  a.bus = b.bus ∧ a.slot = b.slot ∧ a.func = b.func ∧ a.offset / 4 = b.offset / 4

-- How many dwords of 4 KiB windows, 256 for each bus, come before it.
def index (startBus : Nat) (a : PcieArgs) : Nat :=
  ((a.bus - startBus) * 256 + a.slot * 8 + a.func) * 1024 + a.offset / 4

-- The dword in the window of the function, or behind the ports its register.
def own (mcfgTable : Option (List AcpiMcfgEntry)) (a : PcieArgs) : PcieDword :=
  match getSegment mcfgTable a.bus with
  | some e => .mmio ((AOS_DIRECT_MAP_BASE + e.baseAddr + 4 * a.index e.startBus) % 2 ^ 64)
  | none => .port (2 ^ 31 + ((a.bus * 32 + a.slot) * 8 + a.func) * 256 + a.offset / 4 * 4)

end PcieArgs

-- The accessors agree on a dword, which is the one that is meant and no other's.
structure AccessorsAgree (mcfgTable : Option (List AcpiMcfgEntry)) (a : PcieArgs)
    (m : PcieSpace) : Prop where
  same : a.writeAt mcfgTable = a.readAt mcfgTable
  own : a.readAt mcfgTable = a.own mcfgTable
  distinct : ∀ b : PcieArgs, getSegment mcfgTable b.bus = getSegment mcfgTable a.bus →
    (b.readAt mcfgTable = a.readAt mcfgTable ∨ b.writeAt mcfgTable = a.writeAt mcfgTable) →
    b.Same a
  half : a.offset % 2 = 0 →
    (pcieConfigRead16 mcfgTable a.bus a.slot a.func a.offset m).1.toNat =
      (m.dword (a.own mcfgTable)).toNat / 2 ^ (8 * (a.offset % 4)) % 2 ^ 16

section Agreement

variable {mcfgTable : Option (List AcpiMcfgEntry)} {a b : PcieArgs} {m : PcieSpace}
  {e : AcpiMcfgEntry}

theorem and_dword {offset : Nat} (h : offset < 256) : offset &&& 0xFC = offset / 4 * 4 := by
  revert h
  revert offset
  decide +kernel

theorem or_of_dvd {x y i : Nat} (hx : 2 ^ i ∣ x) (hy : y < 2 ^ i) : x ||| y = x + y := by
  obtain ⟨q, rfl⟩ := hx
  rw [Nat.mul_comm, ← Nat.shiftLeft_eq, Nat.shiftLeft_add_eq_or_of_lt hy]

theorem legacyAddr_eq (a : PcieArgs) :
    legacyAddr a.bus a.slot a.func a.offset =
      2 ^ 31 + ((a.bus * 32 + a.slot) * 8 + a.func) * 256 + a.offset / 4 * 4 := by
  have hbus := a.bus_lt
  have hslot := a.slot_lt
  have hfunc := a.func_lt
  have hoffset := a.offset_lt
  have h1 : 1 <<< 31 ||| a.bus <<< 16 = 2 ^ 31 + a.bus * 2 ^ 16 := by
    rw [Nat.shiftLeft_eq, Nat.shiftLeft_eq, Nat.one_mul]
    exact or_of_dvd (Nat.dvd_refl _) (by omega)
  have h2 : 2 ^ 31 + a.bus * 2 ^ 16 ||| a.slot <<< 11 =
      2 ^ 31 + a.bus * 2 ^ 16 + a.slot * 2 ^ 11 := by
    rw [Nat.shiftLeft_eq]
    exact or_of_dvd (show 2 ^ 16 ∣ _ by omega) (by omega)
  have h3 : 2 ^ 31 + a.bus * 2 ^ 16 + a.slot * 2 ^ 11 ||| a.func <<< 8 =
      2 ^ 31 + a.bus * 2 ^ 16 + a.slot * 2 ^ 11 + a.func * 2 ^ 8 := by
    rw [Nat.shiftLeft_eq]
    exact or_of_dvd (show 2 ^ 11 ∣ _ by omega) (by omega)
  rw [legacyAddr, and_dword hoffset, h1, h2, h3, or_of_dvd (show 2 ^ 8 ∣ _ by omega) (by omega)]
  omega

theorem startBus_le (h : getSegment mcfgTable a.bus = some e) : e.startBus ≤ a.bus := by
  cases mcfgTable with
  | none => cases h
  | some entries =>
      have hin := List.find?_some h
      simp only [ge_iff_le, Bool.and_eq_true, decide_eq_true_eq] at hin
      exact hin.1

theorem readAt_eq_own : a.readAt mcfgTable = a.own mcfgTable := by
  have hoffset := and_dword a.offset_lt
  unfold PcieArgs.readAt PcieArgs.own pcieReadAt
  cases hseg : getSegment mcfgTable a.bus with
  | none =>
      have hlegacy := legacyAddr_eq a
      rw [legacyAddr] at hlegacy
      dsimp only
      rw [legacyAddr, Nat.and_assoc, Nat.and_self, hlegacy]
  | some e =>
      have hstart := startBus_le hseg
      have hbus := a.bus_lt
      dsimp only
      rw [hoffset, PcieArgs.index]
      simp only [Nat.shiftLeft_eq]
      congr 2
      omega

theorem writeAt_none (h : getSegment mcfgTable a.bus = none) :
    a.writeAt mcfgTable = a.readAt mcfgTable := by
  rw [PcieArgs.writeAt, PcieArgs.readAt, pcieWriteAt, pcieReadAt, h]

theorem writeAt_some (h : getSegment mcfgTable a.bus = some e) :
    a.writeAt mcfgTable = .mmio ((AOS_DIRECT_MAP_BASE + e.baseAddr + e.pcieSegment * 2 ^ 28 +
      4 * a.index e.startBus) % 2 ^ 64) := by
  have hstart := startBus_le h
  have hbus := a.bus_lt
  rw [PcieArgs.writeAt, pcieWriteAt, h, and_dword a.offset_lt, PcieArgs.index]
  dsimp only
  simp only [Nat.shiftLeft_eq]
  congr 2
  omega

theorem readAt_some (h : getSegment mcfgTable a.bus = some e) :
    a.readAt mcfgTable =
      .mmio ((AOS_DIRECT_MAP_BASE + e.baseAddr + 4 * a.index e.startBus) % 2 ^ 64) := by
  rw [readAt_eq_own, PcieArgs.own, h]

-- The segment goes into the address of a write only.
theorem writeAt_eq_readAt_iff :
    a.writeAt mcfgTable = a.readAt mcfgTable ↔
      ∀ e, getSegment mcfgTable a.bus = some e → e.pcieSegment = 0 := by
  cases h : getSegment mcfgTable a.bus with
  | none => exact ⟨(fun _ _ hno => nomatch hno), fun _ => writeAt_none h⟩
  | some e =>
      rw [writeAt_some h, readAt_some h, PcieDword.mmio.injEq]
      simp only [Option.some.injEq, forall_eq']
      have hlt := e.segment_lt
      omega

theorem same_of_index {startBus : Nat} (ha : startBus ≤ a.bus) (hb : startBus ≤ b.bus)
    (h : b.index startBus = a.index startBus) : b.Same a := by
  have := a.slot_lt
  have := a.func_lt
  have := a.offset_lt
  have := b.slot_lt
  have := b.func_lt
  have := b.offset_lt
  unfold PcieArgs.index at h
  unfold PcieArgs.Same
  omega

theorem index_lt (startBus : Nat) (a : PcieArgs) : a.index startBus < 2 ^ 26 := by
  have := a.bus_lt
  have := a.slot_lt
  have := a.func_lt
  have := a.offset_lt
  unfold PcieArgs.index
  omega

theorem same_of_readAt (hseg : getSegment mcfgTable b.bus = getSegment mcfgTable a.bus)
    (h : b.readAt mcfgTable = a.readAt mcfgTable) : b.Same a := by
  cases ha : getSegment mcfgTable a.bus with
  | none =>
      have hafunc := a.func_lt
      have haoffset := a.offset_lt
      have haslot := a.slot_lt
      have hbfunc := b.func_lt
      have hboffset := b.offset_lt
      have hbslot := b.slot_lt
      rw [readAt_eq_own, readAt_eq_own, PcieArgs.own, PcieArgs.own, hseg, ha,
        PcieDword.port.injEq] at h
      unfold PcieArgs.Same
      omega
  | some e =>
      have hb := hseg.trans ha
      rw [readAt_some ha, readAt_some hb, PcieDword.mmio.injEq] at h
      have haidx := index_lt e.startBus a
      have hbidx := index_lt e.startBus b
      exact same_of_index (startBus_le ha) (startBus_le hb) (by omega)

theorem same_of_writeAt (hseg : getSegment mcfgTable b.bus = getSegment mcfgTable a.bus)
    (h : b.writeAt mcfgTable = a.writeAt mcfgTable) : b.Same a := by
  cases ha : getSegment mcfgTable a.bus with
  | none =>
      rw [writeAt_none ha, writeAt_none (hseg.trans ha)] at h
      exact same_of_readAt hseg h
  | some e =>
      have hb := hseg.trans ha
      rw [writeAt_some ha, writeAt_some hb, PcieDword.mmio.injEq] at h
      have haidx := index_lt e.startBus a
      have hbidx := index_lt e.startBus b
      exact same_of_index (startBus_le ha) (startBus_le hb) (by omega)

-- pcie_config_read16 answers the low half of the dword, whatever the offset.
theorem configRead16_eq (mcfgTable : Option (List AcpiMcfgEntry)) (a : PcieArgs)
    (m : PcieSpace) :
    (pcieConfigRead16 mcfgTable a.bus a.slot a.func a.offset m).1.toNat =
      (m.dword (a.own mcfgTable)).toNat % 2 ^ 16 := by
  have hmask : (a.offset &&& 0xFC) &&& 2 = 0 := by
    rw [Nat.and_assoc]
    exact Nat.and_zero _
  have hload : ∀ d : PcieDword, (m.load d).1 = m.dword d := fun d => by
    cases d <;> rfl
  have hat : pcieReadAt mcfgTable a.bus a.slot a.func ((a.offset &&& 0xFC) &&& 0xFC) =
      a.own mcfgTable := by
    rw [← readAt_eq_own, PcieArgs.readAt, pcieReadAt, pcieReadAt]
    simp only [Nat.and_assoc, Nat.and_self]
  have hlow : ∀ value : UInt32, (value &&& 0xFFFF).toUInt16.toNat = value.toNat % 2 ^ 16 :=
    fun value => by
      rw [UInt32.toNat_toUInt16, UInt32.toNat_and]
      show (value.toNat &&& 2 ^ 16 - 1) % 2 ^ 16 = _
      rw [Nat.and_two_pow_sub_one_eq_mod, Nat.mod_mod]
  rw [pcieConfigRead16, pcieRead, hat]
  dsimp only
  rw [if_neg (by simp [hmask]), hload, hlow]

-- Exactly then the accessors agree: there is no segment in the entry, and no half of
-- its own to be read.
theorem accessorsAgree_iff (mcfgTable : Option (List AcpiMcfgEntry)) (a : PcieArgs)
    (m : PcieSpace) :
    AccessorsAgree mcfgTable a m ↔
      (∀ e, getSegment mcfgTable a.bus = some e → e.pcieSegment = 0) ∧
        (a.offset % 4 = 2 → (m.dword (a.own mcfgTable)).toNat / 2 ^ 16 =
          (m.dword (a.own mcfgTable)).toNat % 2 ^ 16) := by
  have hlt := (m.dword (a.own mcfgTable)).toNat_lt
  constructor
  · intro h
    refine ⟨writeAt_eq_readAt_iff.mp h.same, fun hoffset => ?_⟩
    have hhalf := h.half (by omega)
    rw [configRead16_eq, hoffset] at hhalf
    omega
  · rintro ⟨hseg, hhalf⟩
    refine ⟨writeAt_eq_readAt_iff.mpr hseg, readAt_eq_own, fun b hb h => ?_, fun heven => ?_⟩
    · exact h.elim (same_of_readAt hb) (same_of_writeAt hb)
    · rw [configRead16_eq]
      obtain hoffset | hoffset : a.offset % 4 = 0 ∨ a.offset % 4 = 2 := by omega
      · rw [hoffset, Nat.mul_zero, Nat.pow_zero, Nat.div_one]
      · have heq := hhalf hoffset
        rw [hoffset]
        omega

end Agreement

-- The first dword of the first function of a machine whose only segment has number 1.
theorem segment_splits : ¬ AccessorsAgree
    (some [⟨0xE0000000, 1, 0, 255, by decide, by decide, by decide, by decide⟩])
    ⟨0, 0, 0, 0, by decide, by decide, by decide, by decide⟩ ⟨fun _ => 0, fun _ => 0, 0⟩ :=
  fun h => absurd h.same (by decide +kernel)

-- Where reads and writes meet, bus mastering is switched in the command register alone.
theorem toggleBusmaster_dword {mcfgTable : Option (List AcpiMcfgEntry)} {a : PcieArgs}
    (hoffset : a.offset = 4) (h : a.writeAt mcfgTable = a.readAt mcfgTable) (toggle : Bool)
    (m : PcieSpace) (d : PcieDword) :
    (pcieToggleBusmaster mcfgTable a.bus a.slot a.func toggle m).dword d =
      if d = a.own mcfgTable then
        if toggle then m.dword d ||| (1 : UInt32) <<< 2 else m.dword d &&& ~~~((1 : UInt32) <<< 2)
      else m.dword d := by
  have hread : pcieReadAt mcfgTable a.bus a.slot a.func 4 = a.own mcfgTable := by
    rw [← readAt_eq_own, PcieArgs.readAt, hoffset]
  have hwrite : pcieWriteAt mcfgTable a.bus a.slot a.func 4 = a.own mcfgTable := by
    rw [← readAt_eq_own, ← h, PcieArgs.writeAt, hoffset]
  have hload : ∀ d : PcieDword, (m.load d).1 = m.dword d ∧ (m.load d).2.dword = m.dword := fun d => by
    cases d <;> exact ⟨rfl, funext fun d => by cases d <;> rfl⟩
  have hstore : ∀ (m : PcieSpace) (value : UInt32) (at' d : PcieDword),
      (m.store value at').dword d = if d = at' then value else m.dword d := fun m value at' d => by
    cases at' <;> cases d <;>
      simp [PcieSpace.store, PcieSpace.dword, Function.update_apply]
  rw [pcieToggleBusmaster, pcieRead, hread]
  dsimp only
  rw [pcieWrite, hwrite, hstore, (hload _).1, (hload _).2]
  by_cases hd : d = a.own mcfgTable
  · rw [if_pos hd, if_pos hd, hd]
  · rw [if_neg hd, if_neg hd]

end AosKernel.Io
