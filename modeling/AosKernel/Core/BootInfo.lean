import Mathlib.Algebra.Group.Nat.Defs
import Mathlib.Data.List.Basic

namespace AosKernel.Core

def UNIBOOT_MAGIC_SIZE : Nat := 8

-- "UNIBOOT" and the submagics of the nodes, with the zeros behind them.
def UNIBOOT_MAGIC : Vector UInt8 UNIBOOT_MAGIC_SIZE :=
  ⟨#[0x55, 0x4E, 0x49, 0x42, 0x4F, 0x4F, 0x54, 0], rfl⟩

def UNIBOOT_SUBMAGIC_BOOT_INFO : Vector UInt8 UNIBOOT_MAGIC_SIZE :=
  ⟨#[0x42, 0x49, 0x4E, 0x46, 0x4F, 0, 0, 0], rfl⟩

def UNIBOOT_SUBMAGIC_SYSTEM_MEM_MAP : Vector UInt8 UNIBOOT_MAGIC_SIZE :=
  ⟨#[0x53, 0x4D, 0x4D, 0x41, 0x50, 0, 0, 0], rfl⟩

def UNIBOOT_CVERSION : UInt64 := 0x010000
def UNIBOOT_CREVISION : UInt64 := 1
def UNIBOOT_ARCHITECTURE_x64 : UInt32 := 0x3

def UNIBOOT_BITMASK_FEATURES_X86F_SSE : UInt64 := (1 : UInt64) <<< 0
def UNIBOOT_BITMASK_FEATURES_X86F_AVX : UInt64 := (1 : UInt64) <<< 1
def UNIBOOT_BITMASK_FEATURES_PAGING : UInt64 := (1 : UInt64) <<< 10
def UNIBOOT_BITMASK_FEATURES_64BIT : UInt64 := (1 : UInt64) <<< 11
def UNIBOOT_BITMASK_FEATURES_KERNEL_SPACE_PRESENT : UInt64 := (1 : UInt64) <<< 12
def UNIBOOT_BITMASK_FEATURES_FRAMEBUFFER_PRESENT : UInt64 := (1 : UInt64) <<< 14

-- A header and what stands behind it: read as a uniboot_boot_info the bitmasks from
-- provided_features.root on, read as a uniboot_smmap the count and the entries.
structure UnibootHdr where
  addr : UInt64
  magic : Vector UInt8 UNIBOOT_MAGIC_SIZE
  submagic : Vector UInt8 UNIBOOT_MAGIC_SIZE
  version : UInt64
  revision : UInt64
  architecture : UInt32
  providedFeatures : List UInt64
  count : UInt64
  entries : UInt64
  deriving DecidableEq

-- The control registers, and ecx of cpuid leaf 1.
structure CpuControl where
  cr0 : UInt64
  cr4 : UInt64
  xcr0 : UInt64
  cpuidEcx : UInt32
  deriving DecidableEq

structure BootState where
  systemInfo : Option UnibootHdr
  systemMap : Option UnibootHdr
  cpu : CpuControl
  deriving DecidableEq

def enableSse (c : CpuControl) : CpuControl :=
  { c with
    cr0 := (c.cr0 &&& ~~~((1 : UInt64) <<< 2)) ||| (1 : UInt64) <<< 1
    cr4 := c.cr4 ||| (1 : UInt64) <<< 9 ||| (1 : UInt64) <<< 10 }

-- An aos_bool has eight bits.
def enableAvx (c : CpuControl) : CpuControl :=
  let hasAvx := (c.cpuidEcx &&& (1 : UInt32) <<< 28).toUInt8
  let hasXsave := (c.cpuidEcx &&& (1 : UInt32) <<< 26).toUInt8
  let hasOsxsave := (c.cpuidEcx &&& (1 : UInt32) <<< 27).toUInt8
  if hasAvx ≠ 0 ∧ hasXsave ≠ 0 ∧ hasOsxsave ≠ 0 then
    { c with cr4 := c.cr4 ||| (1 : UInt64) <<< 18, xcr0 := c.xcr0 ||| 0x7 }
  else c

structure BootFeatures where
  parsedBmask : Bool
  sse : Bool
  avx : Bool
  b64 : Bool
  paging : Bool
  kernelSpace : Bool
  fb : Bool
  deriving DecidableEq

def BootFeatures.none : BootFeatures := ⟨false, false, false, false, false, false, false⟩

-- The loop over the bitmasks.
def scanFeatures : List UInt64 → BootFeatures → BootFeatures
  | [], f => f
  | bitmask :: rest, f => scanFeatures rest
      { parsedBmask := true
        sse := f.sse || bitmask &&& UNIBOOT_BITMASK_FEATURES_X86F_SSE != 0
        avx := f.avx || bitmask &&& UNIBOOT_BITMASK_FEATURES_X86F_AVX != 0
        b64 := f.b64 || bitmask &&& UNIBOOT_BITMASK_FEATURES_64BIT != 0
        paging := f.paging || bitmask &&& UNIBOOT_BITMASK_FEATURES_PAGING != 0
        kernelSpace :=
          f.kernelSpace || bitmask &&& UNIBOOT_BITMASK_FEATURES_KERNEL_SPACE_PRESENT != 0
        fb := f.fb || bitmask &&& UNIBOOT_BITMASK_FEATURES_FRAMEBUFFER_PRESENT != 0 }

def kparseSystemInfo (info : UnibootHdr) (s : BootState) : Bool × BootState :=
  let s := { s with systemInfo := none }
  let f := scanFeatures info.providedFeatures BootFeatures.none
  if !f.kernelSpace || !f.paging || !f.b64 || !f.fb || !f.parsedBmask then (false, s)
  else
    let s := if f.sse then s else { s with cpu := enableSse s.cpu }
    let s := if f.avx then s else { s with cpu := enableAvx s.cpu }
    (true, { s with systemInfo := some info })

def kparseSystemMap (info : UnibootHdr) (s : BootState) : Bool × BootState :=
  let s := { s with systemMap := none }
  if info.entries = 0 ∨ info.count < 1 then (false, s)
  else (true, { s with systemMap := some info })

-- One header of the loop of kinit_bootinfo: `false` where it returns.
def visitHdr (hdr : UnibootHdr) (s : BootState) : Bool × BootState :=
  if hdr.magic ≠ UNIBOOT_MAGIC then (false, s)
  else if hdr.architecture ≠ UNIBOOT_ARCHITECTURE_x64 ∨ hdr.version > UNIBOOT_CVERSION ∨
      hdr.revision > UNIBOOT_CREVISION then (false, s)
  else if hdr.submagic = UNIBOOT_SUBMAGIC_BOOT_INFO then
    if s.systemInfo.isSome then (false, s) else kparseSystemInfo hdr s
  else if hdr.submagic = UNIBOOT_SUBMAGIC_SYSTEM_MEM_MAP then
    if s.systemMap.isSome then (false, s) else kparseSystemMap hdr s
  else (true, s)

def visitHdrs : List UnibootHdr → BootState → Bool × BootState
  | [], s => (true, s)
  | hdr :: rest, s =>
      let (ok, s) := visitHdr hdr s
      if ok then visitHdrs rest s else (false, s)

-- The argument is the chain from the root on, which is empty without a root, and `none`
-- without a boot_info.
def kinitBootinfo (bootInfo : Option (List UnibootHdr)) (s : BootState) : Bool × BootState :=
  let s := { s with systemInfo := none, systemMap := none }
  match bootInfo with
  | none => (false, s)
  | some [] => (false, s)
  | some chain =>
      let (ok, s) := visitHdrs chain s
      if !ok then (false, s)
      else if s.systemInfo.isNone then (false, s)
      else if s.systemMap.isNone then (false, s)
      else (true, s)

def kgetSysinfo (s : BootState) : Option UnibootHdr := s.systemInfo

def kgetSysmap (s : BootState) : Option UnibootHdr := s.systemMap

-- AVX is never turned on: the bits of cpuid are above the eight that are kept of them.
theorem enableAvx_eq (c : CpuControl) : enableAvx c = c := by
  have hlow : (c.cpuidEcx &&& (1 : UInt32) <<< 28).toUInt8 = 0 := by
    rw [UInt32.toUInt8_and]
    exact UInt8.and_zero
  unfold enableAvx
  rw [hlow]
  exact if_neg fun h => h.1 rfl

namespace UnibootHdr

variable (hdr : UnibootHdr)

-- The magic, the architecture, the version and the revision are right.
structure HeaderRight : Prop where
  magic : hdr.magic = UNIBOOT_MAGIC
  architecture : hdr.architecture = UNIBOOT_ARCHITECTURE_x64
  version : hdr.version ≤ UNIBOOT_CVERSION
  revision : hdr.revision ≤ UNIBOOT_CREVISION

def IsInfo : Prop := hdr.submagic = UNIBOOT_SUBMAGIC_BOOT_INFO

def IsMap : Prop := hdr.submagic = UNIBOOT_SUBMAGIC_SYSTEM_MEM_MAP

-- Some bitmask of the list has the bit.
def Provides (feature : UInt64) : Prop :=
  ∃ bitmask ∈ hdr.providedFeatures, bitmask &&& feature ≠ 0

-- A boot-info node with the features that are required.
structure GoodInfo : Prop where
  isInfo : hdr.IsInfo
  kernelSpace : hdr.Provides UNIBOOT_BITMASK_FEATURES_KERNEL_SPACE_PRESENT
  paging : hdr.Provides UNIBOOT_BITMASK_FEATURES_PAGING
  b64 : hdr.Provides UNIBOOT_BITMASK_FEATURES_64BIT
  fb : hdr.Provides UNIBOOT_BITMASK_FEATURES_FRAMEBUFFER_PRESENT

-- A memory-map node with entries.
structure GoodMap : Prop where
  isMap : hdr.IsMap
  entries : hdr.entries ≠ 0
  count : hdr.count ≠ 0

instance : Decidable hdr.HeaderRight :=
  decidable_of_iff (hdr.magic = UNIBOOT_MAGIC ∧ hdr.architecture = UNIBOOT_ARCHITECTURE_x64 ∧
      hdr.version ≤ UNIBOOT_CVERSION ∧ hdr.revision ≤ UNIBOOT_CREVISION)
    ⟨fun ⟨a, b, c, d⟩ => ⟨a, b, c, d⟩, fun ⟨a, b, c, d⟩ => ⟨a, b, c, d⟩⟩

instance : Decidable hdr.IsInfo := inferInstanceAs (Decidable (_ = _))

instance : Decidable hdr.IsMap := inferInstanceAs (Decidable (_ = _))

instance (feature : UInt64) : Decidable (hdr.Provides feature) :=
  inferInstanceAs (Decidable (∃ bitmask ∈ hdr.providedFeatures, bitmask &&& feature ≠ 0))

instance : Decidable hdr.GoodInfo :=
  decidable_of_iff (hdr.IsInfo ∧ hdr.Provides UNIBOOT_BITMASK_FEATURES_KERNEL_SPACE_PRESENT ∧
      hdr.Provides UNIBOOT_BITMASK_FEATURES_PAGING ∧ hdr.Provides UNIBOOT_BITMASK_FEATURES_64BIT ∧
      hdr.Provides UNIBOOT_BITMASK_FEATURES_FRAMEBUFFER_PRESENT)
    ⟨fun ⟨a, b, c, d, e⟩ => ⟨a, b, c, d, e⟩, fun ⟨a, b, c, d, e⟩ => ⟨a, b, c, d, e⟩⟩

instance : Decidable hdr.GoodMap :=
  decidable_of_iff (hdr.IsMap ∧ hdr.entries ≠ 0 ∧ hdr.count ≠ 0)
    ⟨fun ⟨a, b, c⟩ => ⟨a, b, c⟩, fun ⟨a, b, c⟩ => ⟨a, b, c⟩⟩

end UnibootHdr

section Parsers

variable {hdr : UnibootHdr} {s : BootState}

-- What the loop over the bitmasks finds: each flag is one that some bitmask has.
theorem scanFeatures_eq (masks : List UInt64) (f : BootFeatures) :
    scanFeatures masks f =
      { parsedBmask := f.parsedBmask || !masks.isEmpty
        sse := f.sse || masks.any (· &&& UNIBOOT_BITMASK_FEATURES_X86F_SSE != 0)
        avx := f.avx || masks.any (· &&& UNIBOOT_BITMASK_FEATURES_X86F_AVX != 0)
        b64 := f.b64 || masks.any (· &&& UNIBOOT_BITMASK_FEATURES_64BIT != 0)
        paging := f.paging || masks.any (· &&& UNIBOOT_BITMASK_FEATURES_PAGING != 0)
        kernelSpace := f.kernelSpace ||
          masks.any (· &&& UNIBOOT_BITMASK_FEATURES_KERNEL_SPACE_PRESENT != 0)
        fb := f.fb || masks.any (· &&& UNIBOOT_BITMASK_FEATURES_FRAMEBUFFER_PRESENT != 0) } := by
  induction masks generalizing f with
  | nil => simp [scanFeatures]
  | cons bitmask rest ih =>
      rw [scanFeatures, ih]
      simp [Bool.or_assoc]

theorem any_iff_provides (feature : UInt64) :
    hdr.providedFeatures.any (· &&& feature != 0) = true ↔ hdr.Provides feature := by
  simp [UnibootHdr.Provides]

-- The flags that kparse_system_info asks for are those of a node with the features.
theorem scanFeatures_good (hinfo : hdr.IsInfo) :
    ((scanFeatures hdr.providedFeatures BootFeatures.none).kernelSpace &&
      (scanFeatures hdr.providedFeatures BootFeatures.none).paging &&
      (scanFeatures hdr.providedFeatures BootFeatures.none).b64 &&
      (scanFeatures hdr.providedFeatures BootFeatures.none).fb &&
      (scanFeatures hdr.providedFeatures BootFeatures.none).parsedBmask) = true ↔
        hdr.GoodInfo := by
  simp only [scanFeatures_eq, BootFeatures.none, Bool.false_or, Bool.and_eq_true, any_iff_provides]
  constructor
  · rintro ⟨⟨⟨⟨hspace, hpaging⟩, hb64⟩, hfb⟩, _⟩
    exact ⟨hinfo, hspace, hpaging, hb64, hfb⟩
  · rintro ⟨_, hspace, hpaging, hb64, hfb⟩
    have hparsed : (!hdr.providedFeatures.isEmpty) = true := by
      obtain ⟨bitmask, hmem, _⟩ := hpaging
      rw [Bool.not_eq_true', List.isEmpty_eq_false_iff]
      exact List.ne_nil_of_mem hmem
    exact ⟨⟨⟨⟨hspace, hpaging⟩, hb64⟩, hfb⟩, hparsed⟩

-- The parser of a boot-info node takes the ones with the features, and drops the node it had.
theorem kparseSystemInfo_eq (hinfo : hdr.IsInfo) : ∃ cpu, kparseSystemInfo hdr s =
    (decide hdr.GoodInfo,
      { s with systemInfo := if hdr.GoodInfo then some hdr else none, cpu := cpu }) := by
  unfold kparseSystemInfo
  simp only [← Bool.not_and, Bool.not_eq_true']
  by_cases hgood : hdr.GoodInfo
  · rw [if_neg (Bool.not_eq_false _ ▸ (scanFeatures_good hinfo).mpr hgood), if_pos hgood,
      decide_eq_true hgood]
    cases (scanFeatures hdr.providedFeatures BootFeatures.none).sse <;>
      cases (scanFeatures hdr.providedFeatures BootFeatures.none).avx <;> exact ⟨_, rfl⟩
  · rw [if_pos (Bool.eq_false_iff.mpr fun h => hgood ((scanFeatures_good hinfo).mp h)),
      if_neg hgood, decide_eq_false hgood]
    exact ⟨_, rfl⟩

theorem kparseSystemMap_eq (hmap : hdr.IsMap) : kparseSystemMap hdr s =
    (decide hdr.GoodMap, { s with systemMap := if hdr.GoodMap then some hdr else none }) := by
  have hcount : hdr.count < 1 ↔ hdr.count = 0 := by
    rw [UInt64.lt_iff_toNat_lt, ← UInt64.toNat_inj]
    exact Nat.lt_one_iff
  unfold kparseSystemMap
  by_cases hg : hdr.GoodMap
  · rw [if_neg (fun h => h.elim hg.entries fun h => hg.count (hcount.mp h)), if_pos hg,
      decide_eq_true hg]
  · have hbad : hdr.entries = 0 ∨ hdr.count < 1 := by
      rw [hcount]
      by_contra hne
      rw [not_or] at hne
      exact hg ⟨hmap, hne.1, hne.2⟩
    rw [if_pos hbad, if_neg hg, decide_eq_false hg]

end Parsers

-- A header that is refused where `s` is what the headers before it left.
def Refused (hdr : UnibootHdr) (s : BootState) : Prop :=
  ¬ hdr.HeaderRight ∨ hdr.IsInfo ∧ (s.systemInfo.isSome ∨ ¬ hdr.GoodInfo) ∨
    hdr.IsMap ∧ (s.systemMap.isSome ∨ ¬ hdr.GoodMap)

section Visit

variable {hdr : UnibootHdr} {s s' : BootState}

theorem info_ne_map : ¬ (hdr.IsInfo ∧ hdr.IsMap) := by
  rintro ⟨hinfo, hmap⟩
  exact absurd (hinfo.symm.trans hmap) (by decide)

-- What the loop does with a header whose own fields are right.
theorem visitHdr_right (hright : hdr.HeaderRight) : visitHdr hdr s =
    if hdr.submagic = UNIBOOT_SUBMAGIC_BOOT_INFO then
      if s.systemInfo.isSome then (false, s) else kparseSystemInfo hdr s
    else if hdr.submagic = UNIBOOT_SUBMAGIC_SYSTEM_MEM_MAP then
      if s.systemMap.isSome then (false, s) else kparseSystemMap hdr s
    else (true, s) := by
  unfold visitHdr
  rw [if_neg (not_not_intro hright.magic), if_neg]
  rintro (h | h | h)
  · exact h hright.architecture
  · exact absurd hright.version (UInt64.not_le.mpr h)
  · exact absurd hright.revision (UInt64.not_le.mpr h)

theorem visitHdr_wrong (hwrong : ¬ hdr.HeaderRight) : visitHdr hdr s = (false, s) := by
  unfold visitHdr
  by_cases hmagic : hdr.magic ≠ UNIBOOT_MAGIC
  · rw [if_pos hmagic]
  rw [if_neg hmagic, if_pos]
  by_contra hrest
  simp only [not_or, not_not, UInt64.not_lt] at hrest
  exact hwrong ⟨not_not.mp hmagic, hrest.1, hrest.2.1, hrest.2.2⟩

-- All that the loop does with a header.
theorem visitHdr_cases (hdr : UnibootHdr) (s : BootState) :
    (Refused hdr s ∧ ∃ s', visitHdr hdr s = (false, s') ∧ s'.systemInfo = s.systemInfo ∧
      s'.systemMap = s.systemMap) ∨
    (hdr.HeaderRight ∧ hdr.GoodInfo ∧ s.systemInfo = none ∧
      ∃ cpu, visitHdr hdr s = (true, { s with systemInfo := some hdr, cpu := cpu })) ∨
    (hdr.HeaderRight ∧ hdr.GoodMap ∧ s.systemMap = none ∧
      visitHdr hdr s = (true, { s with systemMap := some hdr })) ∨
    (hdr.HeaderRight ∧ ¬ hdr.IsInfo ∧ ¬ hdr.IsMap ∧ visitHdr hdr s = (true, s)) := by
  by_cases hright : hdr.HeaderRight
  swap
  · exact .inl ⟨.inl hright, s, visitHdr_wrong hright, rfl, rfl⟩
  rw [visitHdr_right hright]
  by_cases hinfo : hdr.submagic = UNIBOOT_SUBMAGIC_BOOT_INFO
  · rw [if_pos hinfo]
    cases hs : s.systemInfo with
    | some first => exact .inl ⟨.inr (.inl ⟨hinfo, .inl (by rw [hs]; rfl)⟩), s, rfl, hs, rfl⟩
    | none =>
        obtain ⟨cpu, hparse⟩ := kparseSystemInfo_eq (s := s) hinfo
        by_cases hgood : hdr.GoodInfo
        · rw [if_pos hgood, decide_eq_true hgood] at hparse
          exact .inr (.inl ⟨hright, hgood, rfl, cpu, hparse⟩)
        · rw [if_neg hgood, decide_eq_false hgood] at hparse
          exact .inl ⟨.inr (.inl ⟨hinfo, .inr hgood⟩), _, hparse, rfl, rfl⟩
  rw [if_neg hinfo]
  by_cases hmap : hdr.submagic = UNIBOOT_SUBMAGIC_SYSTEM_MEM_MAP
  · rw [if_pos hmap]
    cases hs : s.systemMap with
    | some first => exact .inl ⟨.inr (.inr ⟨hmap, .inl (by rw [hs]; rfl)⟩), s, rfl, rfl, hs⟩
    | none =>
        have hparse := kparseSystemMap_eq (s := s) hmap
        by_cases hgood : hdr.GoodMap
        · rw [if_pos hgood, decide_eq_true hgood] at hparse
          exact .inr (.inr (.inl ⟨hright, hgood, rfl, hparse⟩))
        · rw [if_neg hgood, decide_eq_false hgood] at hparse
          exact .inl ⟨.inr (.inr ⟨hmap, .inr hgood⟩), _, hparse, rfl, rfl⟩
  · rw [if_neg hmap]
    exact .inr (.inr (.inr ⟨hright, hinfo, hmap, rfl⟩))

end Visit

-- What is known of the headers that the loop has accepted.
structure Recorded (chain : List UnibootHdr) (s : BootState) : Prop where
  right : ∀ hdr ∈ chain, hdr.HeaderRight
  info : chain.filter (fun hdr => decide hdr.IsInfo) = s.systemInfo.toList
  map : chain.filter (fun hdr => decide hdr.IsMap) = s.systemMap.toList
  goodInfo : ∀ hdr, s.systemInfo = some hdr → hdr.GoodInfo
  goodMap : ∀ hdr, s.systemMap = some hdr → hdr.GoodMap

section Runs

variable {hdr : UnibootHdr} {before chain : List UnibootHdr} {s s' : BootState}

-- One header: it is refused, or it is one more that is accepted.
theorem Recorded.visit (h : Recorded before s) (hdr : UnibootHdr) :
    (Refused hdr s ∧ ∃ s', visitHdr hdr s = (false, s') ∧ s'.systemInfo = s.systemInfo ∧
      s'.systemMap = s.systemMap) ∨
    ∃ s', visitHdr hdr s = (true, s') ∧ Recorded (before ++ [hdr]) s' := by
  have hright (hnew : hdr.HeaderRight) : ∀ h ∈ before ++ [hdr], h.HeaderRight := by
    intro other hmem
    rcases List.mem_append.mp hmem with hold | hlast
    · exact h.right other hold
    · rwa [List.mem_singleton.mp hlast]
  rcases visitHdr_cases hdr s with hrefused | ⟨hnew, hgood, hnone, cpu, hvisit⟩ |
    ⟨hnew, hgood, hnone, hvisit⟩ | ⟨hnew, hinfo, hmap, hvisit⟩
  · exact .inl hrefused
  · have hmap : ¬ hdr.IsMap := fun hmap => info_ne_map ⟨hgood.isInfo, hmap⟩
    refine .inr ⟨_, hvisit, hright hnew, ?_, ?_, ?_, h.goodMap⟩
    · rw [List.filter_append, h.info, hnone]
      simp [hgood.isInfo]
    · rw [List.filter_append, h.map]
      simp [hmap]
    · rintro other ⟨⟩
      exact hgood
  · have hinfo : ¬ hdr.IsInfo := fun hinfo => info_ne_map ⟨hinfo, hgood.isMap⟩
    refine .inr ⟨_, hvisit, hright hnew, ?_, ?_, h.goodInfo, ?_⟩
    · rw [List.filter_append, h.info]
      simp [hinfo]
    · rw [List.filter_append, h.map, hnone]
      simp [hgood.isMap]
    · rintro other ⟨⟩
      exact hgood
  · refine .inr ⟨_, hvisit, hright hnew, ?_, ?_, h.goodInfo, h.goodMap⟩
    · rw [List.filter_append, h.info]
      simp [hinfo]
    · rw [List.filter_append, h.map]
      simp [hmap]

-- A whole run: all of the chain is accepted, or some header is refused behind what is.
theorem Recorded.run (h : Recorded before s) (chain : List UnibootHdr) :
    (∃ s', visitHdrs chain s = (true, s') ∧ Recorded (before ++ chain) s') ∨
    ∃ accepted hdr rest s₁ s', chain = accepted ++ hdr :: rest ∧
      Recorded (before ++ accepted) s₁ ∧ Refused hdr s₁ ∧ visitHdrs chain s = (false, s') ∧
      s'.systemInfo = s₁.systemInfo ∧ s'.systemMap = s₁.systemMap := by
  induction chain generalizing before s with
  | nil => exact .inl ⟨s, rfl, by rwa [List.append_nil]⟩
  | cons hdr rest ih =>
      rcases h.visit hdr with ⟨hrefused, s', hvisit, hinfo, hmap⟩ | ⟨s₁, hvisit, hrecorded⟩
      · refine .inr ⟨[], hdr, rest, s, s', rfl, by rwa [List.append_nil], hrefused, ?_, hinfo, hmap⟩
        rw [visitHdrs, hvisit]
        rfl
      have hstep : visitHdrs (hdr :: rest) s = visitHdrs rest s₁ := by
        rw [visitHdrs, hvisit]
        rfl
      rw [hstep]
      rcases ih hrecorded with ⟨s', hrun, hall⟩ |
        ⟨accepted, hdr', rest', s₂, s', hrest, hall, hrefused, hrun, hinfo, hmap⟩
      · exact .inl ⟨s', hrun, by rwa [List.append_assoc] at hall⟩
      · rw [List.append_assoc] at hall
        exact .inr ⟨hdr :: accepted, hdr', rest', s₂, s', by rw [hrest]; rfl, hall, hrefused, hrun,
          hinfo, hmap⟩

-- What was found are the nodes that stand in what is accepted.
theorem Recorded.info_mem (h : Recorded before s) :
    hdr ∈ before ∧ hdr.IsInfo ↔ s.systemInfo = some hdr := by
  rw [← Option.mem_toList, ← h.info, List.mem_filter, decide_eq_true_iff]

theorem Recorded.map_mem (h : Recorded before s) :
    hdr ∈ before ∧ hdr.IsMap ↔ s.systemMap = some hdr := by
  rw [← Option.mem_toList, ← h.map, List.mem_filter, decide_eq_true_iff]

end Runs

-- A header that the loop does not just pass over, and one that it takes.
def Notable (hdr : UnibootHdr) : Prop := ¬ hdr.HeaderRight ∨ hdr.IsInfo ∨ hdr.IsMap

def Good (hdr : UnibootHdr) : Prop := hdr.HeaderRight ∧ (hdr.GoodInfo ∨ hdr.GoodMap)

instance : DecidablePred Notable := fun _ => inferInstanceAs (Decidable (_ ∨ _))

instance : DecidablePred Good := fun _ => inferInstanceAs (Decidable (_ ∧ _))

-- The first header that is not just passed over is not taken either.
def FirstAtFault (chain : List UnibootHdr) : Prop :=
  ∀ hdr, chain.find? (fun hdr => decide (Notable hdr)) = some hdr → ¬ Good hdr

-- Every header is right, one alone is a boot-info node with the features, and one alone is a
-- memory-map node with entries.
structure ValidChain (chain : List UnibootHdr) : Prop where
  right : ∀ hdr ∈ chain, hdr.HeaderRight
  info : chain.countP (fun hdr => decide hdr.GoodInfo) = 1
  map : chain.countP (fun hdr => decide hdr.GoodMap) = 1

-- No other header is a boot-info node or a memory-map node at all.
structure AcceptedChain (chain : List UnibootHdr) : Prop where
  right : ∀ hdr ∈ chain, hdr.HeaderRight
  info : ∃ hdr, chain.filter (fun hdr => decide hdr.IsInfo) = [hdr] ∧ hdr.GoodInfo
  map : ∃ hdr, chain.filter (fun hdr => decide hdr.IsMap) = [hdr] ∧ hdr.GoodMap

section Chains

variable {hdr : UnibootHdr} {before rest chain : List UnibootHdr} {s s' : BootState}

theorem countP_of_filter {p q : UnibootHdr → Prop} [DecidablePred p] [DecidablePred q]
    (hpq : ∀ hdr, q hdr → p hdr) (h : chain.filter (fun hdr => decide (p hdr)) = [hdr])
    (hq : q hdr) : chain.countP (fun hdr => decide (q hdr)) = 1 := by
  have hboth : (fun hdr => decide (q hdr)) = fun hdr => decide (q hdr) && decide (p hdr) := by
    funext hdr
    by_cases hq : q hdr
    · simp [hq, hpq hdr hq]
    · simp [hq]
  rw [List.countP_eq_length_filter, hboth, ← List.filter_filter, h]
  simp [hq]

theorem AcceptedChain.valid (h : AcceptedChain chain) : ValidChain chain := by
  obtain ⟨info, hinfo, hgoodInfo⟩ := h.info
  obtain ⟨map, hmap, hgoodMap⟩ := h.map
  exact ⟨h.right, countP_of_filter (fun _ h => h.isInfo) hinfo hgoodInfo,
    countP_of_filter (fun _ h => h.isMap) hmap hgoodMap⟩

-- A chain that the loop accepts to its end is accepted where both nodes were found.
theorem Recorded.accepted_iff (h : Recorded chain s) :
    AcceptedChain chain ↔ s.systemInfo.isSome ∧ s.systemMap.isSome := by
  constructor
  · rintro ⟨_, ⟨info, hinfo, _⟩, ⟨map, hmap, _⟩⟩
    rw [h.info] at hinfo
    rw [h.map] at hmap
    rw [Option.toList_eq_singleton_iff.mp hinfo, Option.toList_eq_singleton_iff.mp hmap]
    exact ⟨rfl, rfl⟩
  · rintro ⟨hinfo, hmap⟩
    obtain ⟨info, hinfo⟩ := Option.isSome_iff_exists.mp hinfo
    obtain ⟨map, hmap⟩ := Option.isSome_iff_exists.mp hmap
    exact ⟨h.right, ⟨info, by rw [h.info, hinfo]; rfl, h.goodInfo info hinfo⟩,
      ⟨map, by rw [h.map, hmap]; rfl, h.goodMap map hmap⟩⟩

-- A header that is refused keeps the chain from being accepted.
theorem Refused.not_accepted (hrefused : Refused hdr s) (h : Recorded before s) :
    ¬ AcceptedChain (before ++ hdr :: rest) := by
  rintro ⟨hright, ⟨info, hinfo, hgoodInfo⟩, ⟨map, hmap, hgoodMap⟩⟩
  rw [List.filter_append, h.info] at hinfo
  rw [List.filter_append, h.map] at hmap
  rcases hrefused with hwrong | ⟨his, hfault⟩ | ⟨his, hfault⟩
  · exact hwrong (hright hdr (List.mem_append_right _ (List.mem_cons_self ..)))
  · cases hs : s.systemInfo with
    | some first => simp [hs, his] at hinfo
    | none =>
        simp [hs, his] at hinfo
        simp [hs, hinfo.1, hgoodInfo] at hfault
  · cases hs : s.systemMap with
    | some first => simp [hs, his] at hmap
    | none =>
        simp [hs, his] at hmap
        simp [hs, hmap.1, hgoodMap] at hfault

theorem Recorded.notable_good (h : Recorded before s) (hmem : hdr ∈ before)
    (hnotable : Notable hdr) : Good hdr := by
  have hright := h.right hdr hmem
  rcases hnotable with hwrong | hinfo | hmap
  · exact absurd hright hwrong
  · exact ⟨hright, .inl (h.goodInfo hdr (h.info_mem.mp ⟨hmem, hinfo⟩))⟩
  · exact ⟨hright, .inr (h.goodMap hdr (h.map_mem.mp ⟨hmem, hmap⟩))⟩

-- Nothing was found where everything was passed over.
theorem Recorded.none_iff (h : Recorded before s) : s.systemInfo = none ∧ s.systemMap = none ↔
    before.find? (fun hdr => decide (Notable hdr)) = none := by
  rw [List.find?_eq_none]
  constructor
  · rintro ⟨hinfo, hmap⟩ hdr hmem hnotable
    rcases of_decide_eq_true hnotable with hwrong | his | his
    · exact hwrong (h.right hdr hmem)
    · exact Option.some_ne_none hdr ((h.info_mem.mp ⟨hmem, his⟩).symm.trans hinfo)
    · exact Option.some_ne_none hdr ((h.map_mem.mp ⟨hmem, his⟩).symm.trans hmap)
  · intro hnone
    constructor
    · refine Option.eq_none_iff_forall_ne_some.mpr fun hdr hs => ?_
      obtain ⟨hmem, his⟩ := h.info_mem.mpr hs
      exact hnone hdr hmem (decide_eq_true (.inr (.inl his)))
    · refine Option.eq_none_iff_forall_ne_some.mpr fun hdr hs => ?_
      obtain ⟨hmem, his⟩ := h.map_mem.mpr hs
      exact hnone hdr hmem (decide_eq_true (.inr (.inr his)))

-- Where the loop stops with nothing found, the first header that matters is at fault.
theorem Recorded.firstAtFault_of_found (h : Recorded before s) (rest : List UnibootHdr)
    (hfault : FirstAtFault (before ++ rest)) : s.systemInfo = none ∧ s.systemMap = none := by
  rw [h.none_iff, Option.eq_none_iff_forall_ne_some]
  intro hdr hfirst
  refine hfault hdr (by rw [List.find?_append, hfirst]; rfl) ?_
  have hnotable := List.find?_some (p := fun hdr => decide (Notable hdr)) hfirst
  exact h.notable_good (List.mem_of_find?_eq_some hfirst) (of_decide_eq_true hnotable)

theorem Recorded.firstAtFault_end (h : Recorded chain s) :
    s.systemInfo = none ∧ s.systemMap = none ↔ FirstAtFault chain := by
  constructor
  · intro hnone hdr hfirst
    rw [h.none_iff.mp hnone] at hfirst
    cases hfirst
  · intro hfault
    exact h.firstAtFault_of_found [] (by rwa [List.append_nil])

theorem Recorded.firstAtFault_refused (h : Recorded before s) (hrefused : Refused hdr s) :
    s.systemInfo = none ∧ s.systemMap = none ↔ FirstAtFault (before ++ hdr :: rest) := by
  refine ⟨fun hnone other hfirst => ?_, h.firstAtFault_of_found _⟩
  have hnotable : Notable hdr := hrefused.imp id (Or.imp And.left And.left)
  rw [List.find?_append, h.none_iff.mp hnone, Option.none_or,
    List.find?_cons_of_pos (p := fun hdr => decide (Notable hdr)) (decide_eq_true hnotable)]
    at hfirst
  cases hfirst
  rintro ⟨hright, hgood⟩
  rcases hrefused with hwrong | ⟨his, hfault⟩ | ⟨his, hfault⟩
  · exact hwrong hright
  · rw [hnone.1] at hfault
    have hbad := hfault.resolve_left Bool.false_ne_true
    exact hgood.elim hbad fun hmap => info_ne_map ⟨his, hmap.isMap⟩
  · rw [hnone.2] at hfault
    have hbad := hfault.resolve_left Bool.false_ne_true
    exact hgood.elim (fun hinfo => info_ne_map ⟨hinfo.isInfo, his⟩) hbad

end Chains

-- What kinit_bootinfo is to do, on any chain and whatever was found before.
structure AllOrNothing (bootInfo : Option (List UnibootHdr)) (s : BootState) : Prop where
  accepts : (kinitBootinfo bootInfo s).1 = true ↔ ValidChain (bootInfo.getD [])
  gives : (kinitBootinfo bootInfo s).1 = true →
    (∃ info ∈ bootInfo.getD [], info.GoodInfo ∧
      kgetSysinfo (kinitBootinfo bootInfo s).2 = some info) ∧
    ∃ map ∈ bootInfo.getD [], map.GoodMap ∧ kgetSysmap (kinitBootinfo bootInfo s).2 = some map
  leaves : (kinitBootinfo bootInfo s).1 = false →
    kgetSysinfo (kinitBootinfo bootInfo s).2 = none ∧
      kgetSysmap (kinitBootinfo bootInfo s).2 = none

section Result

variable {bootInfo : Option (List UnibootHdr)} {s : BootState}

theorem recorded_nil (s : BootState) :
    Recorded [] { s with systemInfo := none, systemMap := none } where
  right := fun _ hmem => absurd hmem List.not_mem_nil
  info := rfl
  map := rfl
  goodInfo := fun _ h => by cases h
  goodMap := fun _ h => by cases h

-- The chain is accepted and its nodes are found, or nothing is left only where the first
-- header that matters is at fault.
theorem kinitBootinfo_cases (bootInfo : Option (List UnibootHdr)) (s : BootState) :
    (AcceptedChain (bootInfo.getD []) ∧ ∃ s', kinitBootinfo bootInfo s = (true, s') ∧
      Recorded (bootInfo.getD []) s' ∧ s'.systemInfo.isSome ∧ s'.systemMap.isSome) ∨
    (¬ AcceptedChain (bootInfo.getD []) ∧ ∃ s', kinitBootinfo bootInfo s = (false, s') ∧
      (s'.systemInfo = none ∧ s'.systemMap = none ↔ FirstAtFault (bootInfo.getD []))) := by
  have hempty : ¬ AcceptedChain [] := fun h => by
    obtain ⟨_, hinfo, _⟩ := h.info
    cases hinfo
  match bootInfo with
  | none => exact .inr ⟨hempty, _, rfl, (recorded_nil s).firstAtFault_end⟩
  | some [] => exact .inr ⟨hempty, _, rfl, (recorded_nil s).firstAtFault_end⟩
  | some (hdr :: rest) =>
      rcases (recorded_nil s).run (hdr :: rest) with ⟨s', hrun, hall⟩ |
        ⟨accepted, refused, behind, s₁, s', hchain, hall, hrefused, hrun, hinfo, hmap⟩
      · have hend : kinitBootinfo (some (hdr :: rest)) s =
            (s'.systemInfo.isSome && s'.systemMap.isSome, s') := by
          unfold kinitBootinfo
          simp only [hrun]
          cases s'.systemInfo <;> cases s'.systemMap <;> rfl
        rw [List.nil_append] at hall
        by_cases hboth : s'.systemInfo.isSome ∧ s'.systemMap.isSome
        · rw [hboth.1, hboth.2] at hend
          exact .inl ⟨hall.accepted_iff.mpr hboth, s', hend, hall, hboth⟩
        · rw [← Bool.and_eq_true, Bool.not_eq_true] at hboth
          rw [hboth] at hend
          refine .inr ⟨fun h => ?_, s', hend, hall.firstAtFault_end⟩
          have hfound := hall.accepted_iff.mp h
          rw [← Bool.and_eq_true, hboth] at hfound
          exact Bool.false_ne_true hfound
      · have hend : kinitBootinfo (some (hdr :: rest)) s = (false, s') := by
          unfold kinitBootinfo
          simp only [hrun]
          rfl
        rw [List.nil_append] at hall
        refine .inr ⟨?_, s', hend, ?_⟩
        · rw [Option.getD_some, hchain]
          exact hrefused.not_accepted hall
        · rw [Option.getD_some, hchain, hinfo, hmap]
          exact hall.firstAtFault_refused hrefused

theorem kinitBootinfo_allOrNothing_iff (bootInfo : Option (List UnibootHdr)) (s : BootState) :
    AllOrNothing bootInfo s ↔ AcceptedChain (bootInfo.getD []) ∨
      FirstAtFault (bootInfo.getD []) ∧ ¬ ValidChain (bootInfo.getD []) := by
  rcases kinitBootinfo_cases bootInfo s with ⟨haccepted, s', hinit, hall, hinfo, hmap⟩ |
    ⟨hrefused, s', hinit, hnone⟩
  · refine iff_of_true ⟨?_, fun _ => ?_, fun h => ?_⟩ (.inl haccepted)
    · rw [hinit]
      exact iff_of_true rfl haccepted.valid
    · rw [hinit]
      obtain ⟨info, hinfo⟩ := Option.isSome_iff_exists.mp hinfo
      obtain ⟨map, hmap⟩ := Option.isSome_iff_exists.mp hmap
      exact ⟨⟨info, (hall.info_mem.mpr hinfo).1, hall.goodInfo info hinfo, hinfo⟩,
        ⟨map, (hall.map_mem.mpr hmap).1, hall.goodMap map hmap, hmap⟩⟩
    · rw [hinit] at h
      cases h
  · constructor
    · intro h
      refine .inr ⟨hnone.mp ?_, fun hvalid => ?_⟩
      · have hleft := h.leaves (by rw [hinit])
        rwa [hinit] at hleft
      · have htrue := h.accepts.mpr hvalid
        rw [hinit] at htrue
        cases htrue
    · rintro (haccepted | ⟨hfault, hinvalid⟩)
      · exact absurd haccepted hrefused
      refine ⟨?_, fun h => ?_, fun _ => ?_⟩
      · rw [hinit]
        exact iff_of_false Bool.false_ne_true hinvalid
      · rw [hinit] at h
        cases h
      · rw [hinit]
        exact hnone.mpr hfault

-- A boot-info node with the four features, and a node whose magic is damaged.
def loaderInfo : UnibootHdr where
  addr := 0x1000
  magic := UNIBOOT_MAGIC
  submagic := UNIBOOT_SUBMAGIC_BOOT_INFO
  version := UNIBOOT_CVERSION
  revision := UNIBOOT_CREVISION
  architecture := UNIBOOT_ARCHITECTURE_x64
  providedFeatures := [0x5C00]
  count := 0
  entries := 0

def damagedMap : UnibootHdr :=
  { loaderInfo with addr := 0x2000, magic := UNIBOOT_SUBMAGIC_SYSTEM_MEM_MAP }

-- The chain is refused at its second node, and the first one stays in system_info.
theorem kinitBootinfo_keeps_info :
    ¬ AllOrNothing (some [loaderInfo, damagedMap]) ⟨none, none, ⟨0, 0, 0, 0⟩⟩ := by
  intro h
  have hleft := h.leaves (by decide +kernel)
  exact absurd hleft.1 (by decide +kernel)

end Result

end AosKernel.Core
