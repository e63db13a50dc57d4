import AosKernel.Boot.StaticTables
import AosKernel.Mm.PagerRange

namespace AosKernel.Boot

open Verif Verif.Exec Verif.Radix Mm

-- The loop of bits_needed; 64 turns leave nothing of a uint64_t.
def bitsNeededFrom : Nat → Nat → Nat
  | 0, _ => 0
  | turns + 1, n => if n / 2 = 0 then 1 else bitsNeededFrom turns (n / 2) + 1

def bitsNeeded (n : Nat) : Nat := bitsNeededFrom 64 n

-- What pager_init reads: the memory map, __kstart and __bss_end, the bounds of
-- kernel_space in the boot info and the physical address bits of CPUID.
structure PagerBoot where
  entries : List SmmapEntry
  kstart : Nat
  bssEnd : Nat
  kernelSpace : Nat
  kernelSpaceEnd : Nat
  cpuPhysBits : Nat
  cpuPhysBits_le : cpuPhysBits ≤ 52

namespace PagerBoot

variable (b : PagerBoot)

def privilaged : Nat := alignUpPage (b.bssEnd + 0x1000000)

def lastPhysAddr : Nat :=
  b.entries.foldl (fun last e => if e.size = 0 then last else max last e.limit) 0

def maxPhysAddr : Nat :=
  if bitsNeeded b.lastPhysAddr > b.cpuPhysBits then
    if b.cpuPhysBits ≥ 64 then UINT64_MAX else 2 ^ b.cpuPhysBits - 1
  else b.lastPhysAddr

-- The four families of mappings.
def direct : MapRange :=
  ⟨BitVec.ofNat 64 AOS_DIRECT_MAP_BASE, 0, b.maxPhysAddr,
    PAGE_PRESENT ||| PAGE_RW ||| PAGE_PCD ||| PAGE_XD⟩

def image : MapRange :=
  ⟨BitVec.ofNat 64 b.kstart, BitVec.ofNat 64 b.kstart, sub64 b.bssEnd b.kstart,
    PAGE_PRESENT ||| PAGE_RW⟩

def space : MapRange :=
  ⟨BitVec.ofNat 64 b.kernelSpace, BitVec.ofNat 64 b.kernelSpace,
    sub64 b.kernelSpaceEnd b.kernelSpace, PAGE_PRESENT ||| PAGE_RW ||| PAGE_XD⟩

end PagerBoot

def SmmapEntry.range (e : SmmapEntry) : MapRange :=
  ⟨BitVec.ofNat 64 e.physStart, BitVec.ofNat 64 e.physStart, e.size,
    PAGE_PRESENT ||| PAGE_RW ||| PAGE_XD⟩

section Code

variable (alloc : Kernel (Option PhysAddr))

def mapRange (r : MapRange) : Kernel Unit := pagerMapRange alloc r.virt r.phys r.size r.flags

-- `while (!kernel_pml4.table)`. The first turn fails without need where the
-- pool starts at address 0; when the second fails as well every other does.
def allocPml4 : Nat → Kernel Unit
  | 0 => throw .outOfFuel
  | turns + 1 => do
      let s ← get
      if s.rest.table.isNone then
        let table ← alloc
        modifyPager fun p => { p with table := table }
        spinUnlock .pml4
        allocPml4 turns
      else return ()

-- The loop over the entries that maps those of UNIBOOT_STRUCTS.
def mapStructs : List SmmapEntry → Kernel Unit
  | [] => return ()
  | e :: entries => do
      if e.size ≠ 0 ∧ e.type = .unibootStructs then mapRange alloc e.range
      mapStructs entries

end Code

-- pager_init up to pager_load. The lock is set to 0 with the table.
def pagerInitMaps (b : PagerBoot) : Kernel Unit := do
  modifyPager fun p =>
    { p with ready := false, firstPagemaps := b.kernelSpace, firstPagemapsEnd := b.kernelSpaceEnd }
  match pagerRanges b.privilaged b.entries with
  | none => throw .outOfBounds
  | some ranges =>
      modifyPager fun p =>
        { p with cpuPhysBits := b.cpuPhysBits, cpuPhysBits_le := b.cpuPhysBits_le }
      spinLock .avmf
      modifyAvmf fun _ => avmfInit (physBounds ranges)
      spinUnlock .avmf
      let alloc := allocPageTable (pagerServices 0)
      allocPml4 alloc 3
      mapRange alloc b.direct
      mapRange alloc b.image
      mapRange alloc b.space
      mapStructs alloc b.entries

def pagerLoad : Kernel Unit := do
  spinLock .pml4
  spinUnlock .pml4
  modifyPager fun p => { p with loaded := true }

def pagerInit (b : PagerBoot) : Kernel Unit := do
  pagerInitMaps b
  pagerLoad
  modifyPager fun p => { p with ready := true }

-- The static data of the kernel before pager_init; memory holds anything.
structure Unbooted (s : KernelState) : Prop where
  held : s.held = []
  table : s.rest.table = none
  ptr : s.rest.firstPagemapsPtr = 0
  tables : s.rest.tables = []

-- The pages of a span that starts one.
def pagesOf (s : Span) : Span := ⟨s.base, alignUpPage s.size⟩

namespace PagerBoot

variable (b : PagerBoot)

-- What is to be mapped to itself.
def structs : List SmmapEntry :=
  b.entries.filter fun e => decide (e.size ≠ 0 ∧ e.type = .unibootStructs)

def identity : List Span :=
  ⟨b.kstart, b.bssEnd - b.kstart⟩ :: ⟨b.kernelSpace, b.kernelSpaceEnd - b.kernelSpace⟩ ::
    b.structs.map fun e => ⟨e.physStart, e.size⟩

-- The linker and the loader put what is to be mapped to itself on pages of its
-- own below max_phys_addr.
structure Placed : Prop where
  bits : b.cpuPhysBits ≤ 45
  image : b.kstart ≤ b.bssEnd
  space : b.kernelSpace ≤ b.kernelSpaceEnd
  aligned : ∀ s ∈ b.identity, s.base % PAGE_SIZE = 0
  below : ∀ s ∈ b.identity, s.limit ≤ b.maxPhysAddr
  apart : b.identity.Pairwise fun s t => (pagesOf s).Apart (pagesOf t)

-- The boot mapping is complete.
structure Mapped (p : Pager) : Prop where
  direct : ∀ x < b.maxPhysAddr,
    p.translate (BitVec.ofNat 64 (AOS_DIRECT_MAP_BASE + x)) = some (BitVec.ofNat 64 x)
  identity : ∀ s ∈ b.identity, ∀ x, Span.Mem x s →
    p.translate (BitVec.ofNat 64 x) = some (BitVec.ofNat 64 x)

def ranges : List MapRange := b.direct :: b.image :: b.space :: b.structs.map SmmapEntry.range

def calls : List MapCall := b.ranges.flatMap MapRange.calls

-- The places of the tree that hold a table: those on the way to a page.
def tablePaths : Finset (List Index) :=
  insert [] (b.calls.flatMap fun c => c.path.inits.filter (· ≠ c.path)).toFinset

-- The page at address 0 holds no table.
def skipped : Nat := if b.kernelSpace = 0 then 1 else 0

-- kernel_space has a page for each table.
def PoolSuffices : Prop :=
  b.kernelSpace + (b.skipped + b.tablePaths.card) * PAGE_SIZE ≤ b.kernelSpaceEnd

end PagerBoot

-- Different tables stand at different places of the tree.
theorem length_le_of_places {l : List PhysAddr} {N : Finset (List Index)}
    {place : List Index → Option PhysAddr} (hnodup : l.Nodup)
    (h : ∀ a ∈ l, ∃ path ∈ N, place path = some a) : l.length ≤ N.card := by
  have hsub : l.toFinset ⊆ N.image fun path => (place path).getD 0 := by
    intro a ha
    obtain ⟨path, hpath, hplace⟩ := h a (List.mem_toFinset.mp ha)
    exact Finset.mem_image.mpr ⟨path, hpath, by simp [hplace]⟩
  calc l.length = l.toFinset.card := (List.toFinset_card_of_nodup hnodup).symm
    _ ≤ (N.image fun path => (place path).getD 0).card := Finset.card_le_card hsub
    _ ≤ N.card := Finset.card_image_le

section Pool

variable (b : PagerBoot)

-- The pool while pager_init runs: the tables are its first pages.
structure PoolUsed (s : KernelState) : Prop where
  ready : s.rest.ready = false
  first : s.rest.firstPagemaps = b.kernelSpace
  last : s.rest.firstPagemapsEnd = b.kernelSpaceEnd
  bits : s.rest.cpuPhysBits = b.cpuPhysBits
  used : ∀ a ∈ s.rest.tables, a.toNat < b.kernelSpace + s.rest.firstPagemapsPtr
  nodup : s.rest.tables.Nodup

-- With a PML4 every page but the skipped one is a table in its place.
structure PoolState (pml4 : PhysAddr) (s : KernelState) : Prop extends PoolUsed b s where
  count : s.rest.firstPagemapsPtr = (b.skipped + s.rest.tables.length) * PAGE_SIZE
  placed : ∀ a ∈ s.rest.tables, ∃ path ∈ b.tablePaths,
    follow pageLink s.rest.entries 0 pml4 path = some a

end Pool

theorem lt_bitsNeededFrom {turns n : Nat} (h : n < 2 ^ turns) : n < 2 ^ bitsNeededFrom turns n := by
  induction turns generalizing n with
  | zero => exact h
  | succ turns ih =>
      rw [Nat.pow_succ] at h
      unfold bitsNeededFrom
      split
      · omega
      · have hhalf := ih (n := n / 2) (by omega)
        rw [Nat.pow_succ]
        omega

theorem lastPhysAddr_lt (b : PagerBoot) : b.lastPhysAddr < 2 ^ 64 := by
  suffices h : ∀ (entries : List SmmapEntry) (last : Nat), last < 2 ^ 64 →
      entries.foldl (fun last e => if e.size = 0 then last else max last e.limit) last < 2 ^ 64 from
    h b.entries 0 (by decide)
  intro entries
  induction entries with
  | nil => exact fun _ h => h
  | cons e entries ih =>
      intro last hlast
      refine ih _ ?_
      dsimp only
      have hlimit : e.limit < 2 ^ 64 := Nat.mod_lt _ (by decide)
      split
      · exact hlast
      · exact max_lt hlast hlimit

-- Physical addresses below max_phys_addr pass the check of pager_map.
theorem maxPhysAddr_le (b : PagerBoot) : b.maxPhysAddr ≤ 2 ^ b.cpuPhysBits := by
  have hbits := b.cpuPhysBits_le
  unfold PagerBoot.maxPhysAddr
  split
  · rw [if_neg (by omega)]
    exact Nat.sub_le _ _
  · have hlt := lt_bitsNeededFrom (lastPhysAddr_lt b)
    have hle : 2 ^ bitsNeeded b.lastPhysAddr ≤ 2 ^ b.cpuPhysBits :=
      Nat.pow_le_pow_right (by decide) (by omega)
    exact (Nat.lt_of_lt_of_le hlt hle).le

section Placed

variable {b : PagerBoot} (hb : b.Placed)

include hb

theorem maxPhysAddr_le_max : b.maxPhysAddr ≤ 2 ^ 45 :=
  (maxPhysAddr_le b).trans (Nat.pow_le_pow_right (by decide) hb.bits)

theorem space_aligned : b.kernelSpace % PAGE_SIZE = 0 :=
  hb.aligned ⟨b.kernelSpace, b.kernelSpaceEnd - b.kernelSpace⟩ (by simp [PagerBoot.identity])

theorem space_below : b.kernelSpaceEnd ≤ b.maxPhysAddr := by
  have hbelow := hb.below ⟨b.kernelSpace, b.kernelSpaceEnd - b.kernelSpace⟩
    (by simp [PagerBoot.identity])
  have hspace := hb.space
  simp only [Span.limit] at hbelow
  omega

-- Whenever the pool has a page left, that page becomes the table.
theorem poolTable_spec {s : KernelState} (h : PoolUsed b s) {sv : Services Pager}
    (haligned : s.rest.firstPagemapsPtr % PAGE_SIZE = 0)
    (hpos : 0 < b.kernelSpace + s.rest.firstPagemapsPtr)
    (hroom : b.kernelSpace + s.rest.firstPagemapsPtr + PAGE_SIZE ≤ b.kernelSpaceEnd) :
    Sat (allocPageTable sv) s (fun r t => ∃ a, r = some a ∧
      a.toNat = b.kernelSpace + s.rest.firstPagemapsPtr ∧ NewTable s t a ∧
      t.rest.firstPagemapsPtr = s.rest.firstPagemapsPtr + PAGE_SIZE) fun _ => False := by
  have hfirst := space_aligned hb
  have hbelow := space_below hb
  have hmax := maxPhysAddr_le b
  have hbits : 2 ^ b.cpuPhysBits ≤ 2 ^ 45 := Nat.pow_le_pow_right (by decide) hb.bits
  have hnat : (BitVec.ofNat 64 (b.kernelSpace + s.rest.firstPagemapsPtr)).toNat =
      b.kernelSpace + s.rest.firstPagemapsPtr := by
    rw [BitVec.toNat_ofNat]
    omega
  have hne : BitVec.ofNat 64 (b.kernelSpace + s.rest.firstPagemapsPtr) ≠ 0 := by
    intro hzero
    rw [hzero] at hnat
    simp only [BitVec.ofNat_eq_ofNat, BitVec.toNat_ofNat, Nat.zero_mod] at hnat
    omega
  unfold allocPageTable
  rw [sat_bind, sat_get, h.ready, if_neg (by simp), h.first, h.last, if_neg (by omega)]
  dsimp only
  rw [if_neg hne]
  refine ⟨_, rfl, hnat, ⟨fun hmem => ?_, isPage_of_fresh (p := s.rest) ?_ ?_, rfl, rfl⟩, rfl⟩
  · have hlt := h.used _ hmem
    omega
  · rw [pageOffset_eq]
    have hlow := (and_low_eq_iff (BitVec.ofNat 64 (b.kernelSpace + s.rest.firstPagemapsPtr)) 0
      (show 12 ≤ 64 by decide)).mpr
    rw [hnat] at hlow
    refine (hlow ?_).trans (by decide)
    unfold PAGE_SIZE at *
    rw [show BitVec.toNat (0 : BitVec 64) = 0 from rfl]
    omega
  · rw [h.bits]
    refine not_beyond_of_lt b.cpuPhysBits_le ?_
    unfold PAGE_SIZE at *
    omega

omit hb in
-- A pool without a page left is too small: each page but the skipped one
-- holds a table, and the one that is missing has a place of its own.
theorem short_of_full {s : KernelState} {pml4 a : PhysAddr} {path : List Index} {i : Index}
    (h : PoolState b pml4 s) (hpath : follow pageLink s.rest.entries 0 pml4 path = some a)
    (hvacant : present (s.rest.entries a i) = false) (hplace : path ++ [i] ∈ b.tablePaths)
    (hfull : b.kernelSpaceEnd < b.kernelSpace + s.rest.firstPagemapsPtr + PAGE_SIZE) :
    ¬ b.PoolSuffices := by
  have hmissing : follow pageLink s.rest.entries 0 pml4 (path ++ [i]) = none := by
    rw [follow_snoc, hpath, Option.bind_some, Nat.zero_add,
      pageLink_none_of_not_present hvacant]
  have hplaces : ∀ x ∈ s.rest.tables, ∃ q ∈ b.tablePaths.erase (path ++ [i]),
      follow pageLink s.rest.entries 0 pml4 q = some x := by
    intro x hx
    obtain ⟨q, hq, hfollow⟩ := h.placed x hx
    refine ⟨q, Finset.mem_erase.mpr ⟨?_, hq⟩, hfollow⟩
    rintro rfl
    rw [hmissing] at hfollow
    cases hfollow
  have hle := length_le_of_places h.nodup hplaces
  have hcard := Finset.card_erase_lt_of_mem hplace
  have hcount := h.count
  unfold PagerBoot.PoolSuffices
  unfold PAGE_SIZE at *
  omega

theorem pool_source (sv : Services Pager) (pml4 : PhysAddr) :
    TableSource (allocPageTable sv) pml4 (PoolState b pml4) (fun _ => ¬ b.PoolSuffices)
      (· ∈ b.tablePaths) fun _ => False := by
  refine ⟨fun s held h => ⟨⟨h.ready, h.first, h.last, h.bits, h.used, h.nodup⟩, h.count, h.placed⟩,
    fun s path a i h _ htree hpath hlen hvacant hplace => ?_, fun s path a i e h hwrite hold => ?_,
    ⟨nofun, nofun, nofun, nofun, nofun⟩, nofun⟩
  · by_cases hroom : b.kernelSpace + s.rest.firstPagemapsPtr + PAGE_SIZE ≤ b.kernelSpaceEnd
    · have hpos : 0 < b.kernelSpace + s.rest.firstPagemapsPtr := by
        have hcount := h.count
        have hpml4 := List.length_pos_of_mem (htree.known _ ⟨path, hpath⟩)
        unfold PAGE_SIZE at hcount
        omega
      have haligned : s.rest.firstPagemapsPtr % PAGE_SIZE = 0 := by
        rw [h.count, Nat.mul_mod_left]
      refine (poolTable_spec hb h.toPoolUsed haligned hpos hroom).mono ?_ fun _ => False.elim
      rintro r t ⟨x, rfl, hnat, hnew, hptr⟩ -
      refine ⟨hnew, ?_⟩
      have hlink : s.rest.CanLink pml4 path a i x :=
        ⟨htree, hpath, hlen, hvacant, hnew.isPage, hnew.fresh⟩
      have htables : t.rest.tables = x :: s.rest.tables := congrArg Pager.tables hnew.rest
      have hzeroed : t.rest.entries = (s.rest.newTable x).entries :=
        (congrArg Pager.entries hnew.rest).trans rfl
      have hentries : (t.rest.writeLink a i x).entries = (s.rest.linkTable a i x).entries :=
        congrArg (fun m => put m a i (linkEntry x)) hzeroed
      refine ⟨⟨(congrArg Pager.ready hnew.rest).trans h.ready,
        (congrArg Pager.firstPagemaps hnew.rest).trans h.first,
        (congrArg Pager.firstPagemapsEnd hnew.rest).trans h.last,
        (congrArg Pager.cpuPhysBits hnew.rest).trans h.bits, fun y hy => ?_, ?_⟩, ?_, fun y hy => ?_⟩
      · change y ∈ t.rest.tables at hy
        change y.toNat < b.kernelSpace + t.rest.firstPagemapsPtr
        rw [htables] at hy
        rcases List.mem_cons.mp hy with rfl | hy
        · unfold PAGE_SIZE at hptr
          omega
        · have hlt := h.used y hy
          omega
      · change t.rest.tables.Nodup
        rw [htables]
        exact .cons hnew.fresh h.nodup
      · change t.rest.firstPagemapsPtr = (b.skipped + t.rest.tables.length) * PAGE_SIZE
        rw [hptr, htables, h.count, List.length_cons, ← Nat.add_assoc, Nat.succ_mul]
      · change y ∈ t.rest.tables at hy
        change ∃ q ∈ b.tablePaths, follow pageLink (t.rest.writeLink a i x).entries 0 pml4 q = some y
        rw [hentries]
        rw [htables] at hy
        rcases List.mem_cons.mp hy with rfl | hy
        · exact ⟨_, hplace, hlink.linked⟩
        · obtain ⟨q, hq, hfollow⟩ := h.placed y hy
          exact ⟨q, hq, (hlink.follow_iff q y).mpr (.inr hfollow)⟩
    · have hshort := short_of_full h hpath hvacant hplace (by omega)
      unfold allocPageTable
      rw [sat_bind, sat_get, h.ready, if_neg (by simp), h.first, h.last, if_pos (by omega)]
      exact hshort
  · refine ⟨⟨h.ready, h.first, h.last, h.bits, h.used, h.nodup⟩, h.count, fun y hy => ?_⟩
    obtain ⟨q, hq, hfollow⟩ := h.placed y hy
    exact ⟨q, hq, (hwrite.follow_eq hold q).trans hfollow⟩

omit hb in
theorem mem_tablePaths_nil : [] ∈ b.tablePaths := Finset.mem_insert_self _ _

omit hb in
theorem tablePaths_pos : 0 < b.tablePaths.card := Finset.card_pos.mpr ⟨[], mem_tablePaths_nil⟩

omit hb in
-- The loop never ends when the pool has no page left.
theorem allocPml4_full {s : KernelState} (h : PoolUsed b s) {sv : Services Pager}
    (hfull : b.kernelSpaceEnd < b.kernelSpace + s.rest.firstPagemapsPtr + PAGE_SIZE)
    (hshort : ¬ b.PoolSuffices) (htable : s.rest.table = none) (turns : Nat)
    (Q : Unit → KernelState → Prop) :
    Sat (allocPml4 (allocPageTable sv) turns) s Q fun _ => ¬ b.PoolSuffices := by
  induction turns generalizing s with
  | zero => exact hshort
  | succ turns ih =>
      unfold allocPml4
      rw [sat_bind, sat_get, htable, Option.isNone_none, if_pos rfl, sat_bind]
      have hnone : Sat (allocPageTable sv) s (fun r t => r = none ∧ t = s)
          fun _ => ¬ b.PoolSuffices := by
        unfold allocPageTable
        rw [sat_bind, sat_get, h.ready, if_neg (by simp), h.first, h.last, if_pos (by omega)]
        exact ⟨rfl, rfl⟩
      refine hnone.imp ?_
      rintro r t ⟨rfl, rfl⟩
      exact ih ⟨h.ready, h.first, h.last, h.bits, h.used, h.nodup⟩ hfull rfl

-- With a page left the loop ends with an empty PML4.
theorem allocPml4_room {s : KernelState} (h : PoolUsed b s) {sv : Services Pager}
    (hptr : s.rest.firstPagemapsPtr = b.skipped * PAGE_SIZE)
    (hroom : b.kernelSpace + s.rest.firstPagemapsPtr + PAGE_SIZE ≤ b.kernelSpaceEnd)
    (htables : s.rest.tables = []) (htable : s.rest.table = none) (hheld : s.held = [])
    (turns : Nat) (E : Halt → Prop) :
    Sat (allocPml4 (allocPageTable sv) (turns + 2)) s (fun _ t => ∃ pml4,
      t.rest.Started pml4 ∧ PoolState b pml4 t ∧ t.held = []) E := by
  have hpos : 0 < b.kernelSpace + s.rest.firstPagemapsPtr := by
    rw [hptr]
    unfold PagerBoot.skipped PAGE_SIZE
    split <;> omega
  have haligned : s.rest.firstPagemapsPtr % PAGE_SIZE = 0 := by rw [hptr, Nat.mul_mod_left]
  unfold allocPml4
  rw [sat_bind, sat_get, htable, Option.isNone_none, if_pos rfl, sat_bind]
  refine (poolTable_spec hb h haligned hpos hroom).mono ?_ fun _ => False.elim
  rintro r t ⟨a, rfl, hnat, hnew, hptr'⟩
  have htables' : t.rest.tables = [a] := (congrArg Pager.tables hnew.rest).trans (by rw [← htables]; rfl)
  have hentries : t.rest.entries = fill s.rest.entries a 0 :=
    (congrArg Pager.entries hnew.rest).trans rfl
  refine ⟨a, ⟨rfl, ?_, fun i => ?_⟩, ⟨⟨(congrArg Pager.ready hnew.rest).trans h.ready,
    (congrArg Pager.firstPagemaps hnew.rest).trans h.first,
    (congrArg Pager.firstPagemapsEnd hnew.rest).trans h.last,
    (congrArg Pager.cpuPhysBits hnew.rest).trans h.bits, fun y hy => ?_, ?_⟩, ?_, fun y hy => ?_⟩, ?_⟩
  · change a ∈ t.rest.tables
    simp [htables']
  · change t.rest.entries a i = 0
    rw [hentries, fill_same]
  · change y ∈ t.rest.tables at hy
    change y.toNat < b.kernelSpace + t.rest.firstPagemapsPtr
    rw [htables', List.mem_singleton] at hy
    subst hy
    unfold PAGE_SIZE at hptr'
    omega
  · change t.rest.tables.Nodup
    simp [htables']
  · change t.rest.firstPagemapsPtr = (b.skipped + t.rest.tables.length) * PAGE_SIZE
    rw [hptr', hptr, htables', List.length_singleton, Nat.succ_mul]
  · change y ∈ t.rest.tables at hy
    rw [htables', List.mem_singleton] at hy
    subst hy
    exact ⟨[], mem_tablePaths_nil, rfl⟩
  · change t.held.erase .pml4 = []
    rw [hnew.held, hheld]
    rfl

theorem allocPml4_spec {s : KernelState} (h : PoolUsed b s) {sv : Services Pager}
    (hptr : s.rest.firstPagemapsPtr = 0) (htables : s.rest.tables = [])
    (htable : s.rest.table = none) (hheld : s.held = []) :
    Sat (allocPml4 (allocPageTable sv) 3) s (fun _ t => ∃ pml4,
      t.rest.Started pml4 ∧ PoolState b pml4 t ∧ t.held = []) fun _ => ¬ b.PoolSuffices := by
  have hcard := tablePaths_pos (b := b)
  by_cases hfull : b.kernelSpaceEnd < b.kernelSpace + PAGE_SIZE
  · refine allocPml4_full h (by omega) ?_ htable 3 _
    unfold PagerBoot.PoolSuffices
    unfold PAGE_SIZE at *
    omega
  · by_cases hzero : b.kernelSpace = 0
    · -- the page at address 0 is taken for a failure
      have hskip : Sat (allocPageTable sv) s (fun r t => r = none ∧
          t = { s with rest := { s.rest with firstPagemapsPtr := PAGE_SIZE } })
          fun _ => ¬ b.PoolSuffices := by
        unfold allocPageTable
        rw [sat_bind, sat_get, h.ready, if_neg (by simp), h.first, h.last, hptr,
          if_neg (by omega), hzero]
        dsimp only
        rw [sat_bind, modifyPager, sat_modify, if_pos (by decide), hptr, Nat.zero_add]
        exact ⟨rfl, rfl⟩
      unfold allocPml4
      rw [sat_bind, sat_get, htable, Option.isNone_none, if_pos rfl, sat_bind]
      refine hskip.imp ?_
      rintro r t ⟨rfl, rfl⟩
      have hused : PoolUsed b { s with
          held := s.held.erase .pml4
          rest := { s.rest with firstPagemapsPtr := PAGE_SIZE, table := none } } := by
        refine ⟨h.ready, h.first, h.last, h.bits, fun a ha => ?_, h.nodup⟩
        have hmem : a ∈ s.rest.tables := ha
        rw [htables] at hmem
        cases hmem
      by_cases hfull' : b.kernelSpaceEnd < b.kernelSpace + PAGE_SIZE + PAGE_SIZE
      · refine allocPml4_full hused hfull' ?_ rfl 2 _
        unfold PagerBoot.PoolSuffices PagerBoot.skipped
        rw [if_pos hzero]
        unfold PAGE_SIZE at *
        omega
      · refine allocPml4_room hb hused ?_ (by dsimp only; omega) htables rfl ?_ 0 _
        · rw [PagerBoot.skipped, if_pos hzero, Nat.one_mul]
        · rw [hheld]
          rfl
    · refine allocPml4_room hb h ?_ (by omega) htables htable hheld 1 _
      rw [hptr, PagerBoot.skipped, if_neg hzero, Nat.zero_mul]

end Placed

theorem mapRange_eq (alloc : Kernel (Option PhysAddr)) (r : MapRange) :
    mapRange alloc r = mapCalls alloc r.calls :=
  r.pagerMapRange_eq alloc

theorem mapStructs_eq (alloc : Kernel (Option PhysAddr)) (entries : List SmmapEntry) :
    mapStructs alloc entries = mapCalls alloc (((entries.filter fun e =>
      decide (e.size ≠ 0 ∧ e.type = .unibootStructs)).map SmmapEntry.range).flatMap
        MapRange.calls) := by
  induction entries with
  | nil => rfl
  | cons e entries ih =>
      unfold mapStructs
      rw [ih, List.filter_cons]
      by_cases he : e.size ≠ 0 ∧ e.type = .unibootStructs
      · rw [if_pos he, decide_eq_true he, if_pos rfl, List.map_cons, List.flatMap_cons,
          mapCalls_append, mapRange_eq]
      · rw [if_neg he, decide_eq_false he, if_neg (by simp)]

-- A range that is mapped to itself.
def selfRange (s : Span) (flags : BitVec 64) : MapRange :=
  ⟨BitVec.ofNat 64 s.base, BitVec.ofNat 64 s.base, s.size, flags⟩

-- What is mapped to itself, with the flags it gets.
def selfMapped (b : PagerBoot) : List (Span × BitVec 64) :=
  (⟨b.kstart, b.bssEnd - b.kstart⟩, PAGE_PRESENT ||| PAGE_RW) ::
    (⟨b.kernelSpace, b.kernelSpaceEnd - b.kernelSpace⟩, PAGE_PRESENT ||| PAGE_RW ||| PAGE_XD) ::
    b.structs.map fun e => (⟨e.physStart, e.size⟩, PAGE_PRESENT ||| PAGE_RW ||| PAGE_XD)

theorem selfMapped_fst (b : PagerBoot) : (selfMapped b).map Prod.fst = b.identity := by
  simp [selfMapped, PagerBoot.identity, Function.comp_def]

theorem selfMapped_small (b : PagerBoot) {x : Span × BitVec 64} (hx : x ∈ selfMapped b) :
    huge x.2 = false := by
  have hrw : huge (PAGE_PRESENT ||| PAGE_RW) = false := by decide
  have hrwxd : huge (PAGE_PRESENT ||| PAGE_RW ||| PAGE_XD) = false := by decide
  simp only [selfMapped, List.mem_cons, List.mem_map] at hx
  rcases hx with rfl | rfl | ⟨e, -, rfl⟩
  · exact hrw
  · exact hrwxd
  · exact hrwxd

theorem mem_identity {b : PagerBoot} {x : Span × BitVec 64} (hx : x ∈ selfMapped b) :
    x.1 ∈ b.identity :=
  selfMapped_fst b ▸ List.mem_map_of_mem hx

section Ranges

variable {b : PagerBoot} (hb : b.Placed)

include hb

theorem identity_below {s : Span} (hs : s ∈ b.identity) : s.base + s.size ≤ 2 ^ b.cpuPhysBits :=
  (hb.below s hs).trans (maxPhysAddr_le b)

theorem identity_low {s : Span} (hs : s ∈ b.identity) : s.base + s.size ≤ 2 ^ 45 :=
  (identity_below hb hs).trans (Nat.pow_le_pow_right (by decide) hb.bits)

theorem toNat_base {s : Span} (hs : s ∈ b.identity) : (BitVec.ofNat 64 s.base).toNat = s.base := by
  have hlow := identity_low hb hs
  rw [BitVec.toNat_ofNat, Nat.mod_eq_of_lt (by omega)]

theorem selfRange_fits {s : Span} (hs : s ∈ b.identity) {flags : BitVec 64}
    (hsmall : huge flags = false) : (selfRange s flags).Fits b.cpuPhysBits := by
  have hlow := identity_low hb hs
  have hbase := toNat_base hb hs
  have haligned := hb.aligned s hs
  have hbelow := identity_below hb hs
  unfold selfRange
  refine ⟨hsmall, ?_, ?_, ?_, ?_, b.cpuPhysBits_le⟩ <;> dsimp only <;> rw [hbase]
  · exact haligned
  · exact haligned
  · unfold alignUpPage PAGE_SIZE
    omega
  · exact hbelow

theorem selfRange_span {s : Span} (hs : s ∈ b.identity) (flags : BitVec 64) :
    (selfRange s flags).span = pagesOf s := by
  have hlow := identity_low hb hs
  rw [MapRange.span, selfRange, toNat_base hb hs, pagesOf, Nat.mod_eq_of_lt (by omega)]

theorem direct_fits : b.direct.Fits b.cpuPhysBits := by
  have hmax := maxPhysAddr_le_max hb
  have hvirt : b.direct.virt.toNat = AOS_DIRECT_MAP_BASE := rfl
  refine ⟨show huge (PAGE_PRESENT ||| PAGE_RW ||| PAGE_PCD ||| PAGE_XD) = false by decide, ?_, rfl,
    ?_, ?_, b.cpuPhysBits_le⟩
  · rw [hvirt]
    decide
  · rw [hvirt, show AOS_DIRECT_MAP_BASE % 2 ^ 48 = 2 ^ 47 by decide]
    unfold PagerBoot.direct alignUpPage PAGE_SIZE
    dsimp only
    omega
  · rw [show b.direct.phys.toNat = 0 from rfl, Nat.zero_add]
    exact maxPhysAddr_le b

theorem image_eq : b.image =
    selfRange ⟨b.kstart, b.bssEnd - b.kstart⟩ (PAGE_PRESENT ||| PAGE_RW) := by
  have hlow := identity_low hb (s := ⟨b.kstart, b.bssEnd - b.kstart⟩) (by simp [PagerBoot.identity])
  have hle := hb.image
  dsimp only at hlow
  rw [PagerBoot.image, selfRange, sub64_eq hle (by omega)]

theorem space_eq : b.space = selfRange ⟨b.kernelSpace, b.kernelSpaceEnd - b.kernelSpace⟩
    (PAGE_PRESENT ||| PAGE_RW ||| PAGE_XD) := by
  have hlow := identity_low hb (s := ⟨b.kernelSpace, b.kernelSpaceEnd - b.kernelSpace⟩)
    (by simp [PagerBoot.identity])
  have hle := hb.space
  dsimp only at hlow
  rw [PagerBoot.space, selfRange, sub64_eq hle (by omega)]

theorem ranges_eq :
    b.ranges = b.direct :: (selfMapped b).map fun x => selfRange x.1 x.2 := by
  rw [PagerBoot.ranges, image_eq hb, space_eq hb, selfMapped, List.map_cons, List.map_cons,
    List.map_map]
  rfl

theorem ranges_fit {r : MapRange} (hr : r ∈ b.ranges) : r.Fits b.cpuPhysBits := by
  rw [ranges_eq hb, List.mem_cons, List.mem_map] at hr
  rcases hr with rfl | ⟨x, hx, rfl⟩
  · exact direct_fits hb
  · exact selfRange_fits hb (mem_identity hx) (selfMapped_small b hx)

-- The direct map has PML4 entries of its own.
theorem ranges_apart : b.ranges.Pairwise fun r r' => r.span.Apart r'.span := by
  rw [ranges_eq hb, List.pairwise_cons, List.pairwise_map]
  constructor
  · intro r hr x hdirect hself
    obtain ⟨y, hy, rfl⟩ := List.mem_map.mp hr
    have hlow := identity_low hb (mem_identity hy)
    have hbase : b.direct.span.base = 2 ^ 47 := by
      rw [MapRange.span, show b.direct.virt.toNat = AOS_DIRECT_MAP_BASE from rfl]
      exact show AOS_DIRECT_MAP_BASE % 2 ^ 48 = 2 ^ 47 by decide
    have haligned := hb.aligned _ (mem_identity hy)
    rw [selfRange_span hb (mem_identity hy)] at hself
    unfold Span.Mem at hdirect hself
    unfold pagesOf alignUpPage PAGE_SIZE at hself
    dsimp only at hself
    omega
  · have hpages : ((selfMapped b).map Prod.fst).Pairwise fun s t => (pagesOf s).Apart (pagesOf t) :=
      (selfMapped_fst b).symm ▸ hb.apart
    refine (List.pairwise_map.mp hpages).imp_of_mem fun {x y} hx hy h => ?_
    rw [selfRange_span hb (mem_identity hx), selfRange_span hb (mem_identity hy)]
    exact h

theorem mapped_of_maps {p : Pager} (h : ∀ c ∈ b.calls, p.Maps c) : b.Mapped p := by
  have hrange {r : MapRange} (hr : r ∈ b.ranges) {x : Nat} (hx : x < r.size) :=
    MapRange.translate_of_maps (ranges_fit hb hr)
      (fun c hc => h c (List.mem_flatMap.mpr ⟨r, hr, hc⟩)) hx
  refine ⟨fun x hx => ?_, fun s hs x hx => ?_⟩
  · have hx' := hrange (r := b.direct) (by simp [PagerBoot.ranges]) hx
    rwa [show b.direct.virt = BitVec.ofNat 64 AOS_DIRECT_MAP_BASE from rfl,
      show b.direct.phys = 0#64 from rfl, ← BitVec.ofNat_add, BitVec.zero_add] at hx'
  · rw [← selfMapped_fst, List.mem_map] at hs
    obtain ⟨y, hy, rfl⟩ := hs
    have hmem : selfRange y.1 y.2 ∈ b.ranges := by
      rw [ranges_eq hb]
      exact List.mem_cons_of_mem _ (List.mem_map_of_mem hy)
    have hx' := hrange hmem (x := x - y.1.base) (by unfold Span.Mem at hx; dsimp only [selfRange]; omega)
    dsimp only [selfRange] at hx'
    rwa [← BitVec.ofNat_add, Nat.add_sub_cancel' hx.1] at hx'

theorem calls_apart : b.calls.Pairwise MapCall.Apart :=
  MapRange.flatMap_calls_apart (fun _ hr => ranges_fit hb hr) (ranges_apart hb)

theorem calls_proper {c : MapCall} (hc : c ∈ b.calls) : c.Proper b.cpuPhysBits := by
  obtain ⟨r, hr, hc⟩ := List.mem_flatMap.mp hc
  exact MapRange.calls_proper (ranges_fit hb hr) hc

omit hb in
theorem mem_tablePaths {c : MapCall} (hc : c ∈ b.calls) {path : List Index}
    (hpre : path <+: c.path) (hne : path ≠ c.path) : path ∈ b.tablePaths := by
  refine Finset.mem_insert_of_mem (List.mem_toFinset.mpr (List.mem_flatMap.mpr ⟨c, hc, ?_⟩))
  exact List.mem_filter.mpr ⟨(List.mem_inits _ _).mpr hpre, by simpa using hne⟩

omit hb in
theorem mapRanges_eq (alloc : Kernel (Option PhysAddr)) :
    (do mapRange alloc b.direct; mapRange alloc b.image; mapRange alloc b.space
        mapStructs alloc b.entries) = mapCalls alloc b.calls := by
  simp only [PagerBoot.calls, PagerBoot.ranges, List.flatMap_cons, mapCalls_append, mapRange_eq,
    mapStructs_eq, PagerBoot.structs]

-- All the calls of pager_map, on an empty PML4.
theorem bootCalls_spec {s : KernelState} {pml4 : PhysAddr} (hstarted : s.rest.Started pml4)
    (hpool : PoolState b pml4 s) (hheld : s.held = []) (sv : Services Pager) :
    Sat (mapCalls (allocPageTable sv) b.calls) s (fun _ t => b.Mapped t.rest)
      fun _ => ¬ b.PoolSuffices := by
  have hlock : Lock.pml4 ∈ s.held → ¬ b.PoolSuffices := by
    rw [hheld]
    exact fun h => nomatch h
  refine (mapCalls_spec (pool_source hb sv pml4) (fun c hc => calls_proper hb hc) (calls_apart hb)
    (fun c hc path _ hpre hne => mem_tablePaths hc hpre hne) hpool hstarted.tree hpool.bits
    hlock).imp fun _ t ht => ?_
  exact mapped_of_maps hb fun c hc => ((ht nofun).2.2.maps c hc).mpr (.inr (hstarted.vacant c))

-- pager_init ends with the complete map unless a table has no room.
theorem pagerInitMaps_spec {s : KernelState} (hs : Unbooted s) :
    Sat (pagerInitMaps b) s (fun _ t => b.Mapped t.rest) fun _ =>
      ¬ (b.PoolSuffices ∧ (collected b.privilaged b.entries).length ≤ 256) := by
  unfold pagerInitMaps
  rw [sat_bind, modifyPager, sat_modify, pagerRanges_eq]
  by_cases hcount : (collected b.privilaged b.entries).length ≤ 256
  · rw [if_pos hcount]
    dsimp only
    rw [sat_bind, modifyPager, sat_modify, sat_bind, sat_spinLock]
    refine ⟨fun hmem => ?_, fun _ => ?_⟩
    · rw [hs.held] at hmem
      cases hmem
    · rw [sat_bind, sat_modifyAvmf, sat_bind, sat_spinUnlock]
      dsimp only
      rw [mapRanges_eq]
      have hshort (e : Halt) (h : ¬ b.PoolSuffices) :
          ¬ (b.PoolSuffices ∧ (collected b.privilaged b.entries).length ≤ 256) :=
        fun hboth => h hboth.1
      refine Sat.mono (Q := fun _ t => b.Mapped t.rest) (E := fun _ => ¬ b.PoolSuffices) ?_
        (fun _ _ h => h) hshort
      refine Sat.bind (allocPml4_spec hb ⟨rfl, rfl, rfl, rfl, fun a ha => ?_, ?_⟩ hs.ptr hs.tables
        hs.table ?_) fun _ t ht => ?_
      · change a ∈ s.rest.tables at ha
        rw [hs.tables] at ha
        cases ha
      · change s.rest.tables.Nodup
        rw [hs.tables]
        exact .nil
      · rw [hs.held]
        rfl
      · obtain ⟨pml4, hstarted, hpool, hheld⟩ := ht
        exact bootCalls_spec hb hstarted hpool hheld _
  · rw [if_neg hcount]
    exact fun h => hcount h.2

end Ranges

-- When pager_init reaches pager_load the boot mapping is complete, and it
-- does so when its arrays and the pool are large enough.
theorem boot_mapped {b : PagerBoot} {s : KernelState} (hb : b.Placed) (hs : Unbooted s) :
    (∀ t, Returns (pagerInitMaps b) s () t → b.Mapped t.rest) ∧
      (b.PoolSuffices → (collected b.privilaged b.entries).length ≤ 256 →
        ∃ t, Returns (pagerInitMaps b) s () t) := by
  have hspec := pagerInitMaps_spec hb hs
  refine ⟨fun t ht => hspec.of_returns ht, fun hpool hcount => ?_⟩
  rcases hspec.returns_or_stops with ⟨⟨⟩, t, ht, -⟩ | ⟨-, -, hshort⟩
  · exact ⟨t, ht⟩
  · exact absurd ⟨hpool, hcount⟩ hshort

-- A machine of 4 MiB and a page, with the structures in that page.
def smallBoot : PagerBoot where
  entries := [⟨.free, 0, 0, 0x400000⟩, ⟨.unibootStructs, 0x400000, 0, 0x1000⟩]
  kstart := 0x100000
  bssEnd := 0x102010
  kernelSpace := 0x200000
  kernelSpaceEnd := 0x209000
  cpuPhysBits := 36
  cpuPhysBits_le := by decide

theorem smallBoot_placed : smallBoot.Placed where
  bits := by decide
  image := by decide
  space := by decide
  aligned := by decide
  below := by decide
  apart := by
    have hidentity : smallBoot.identity =
        [⟨0x100000, 0x2010⟩, ⟨0x200000, 0x9000⟩, ⟨0x400000, 0x1000⟩] := by decide
    simp only [hidentity, List.pairwise_cons, List.mem_cons, List.not_mem_nil, or_false,
      forall_eq_or_imp, forall_eq, pagesOf, alignUpPage, PAGE_SIZE, Span.Apart, Span.Mem]
    refine ⟨⟨?_, ?_⟩, ?_, ?_⟩ <;> first | omega | simp

-- The kernel before pager_init, on a machine whose memory holds zeros.
def unbooted : KernelState where
  avmf := avmfInit []
  held := []
  requests := []
  rest :=
    { table := none
      loaded := false
      ready := false
      cpuPhysBits := 0
      cpuPhysBits_le := by decide
      firstPagemaps := 0
      firstPagemapsEnd := 0
      firstPagemapsPtr := 0
      entries := fun _ _ => 0
      tables := []
      writes := [] }

theorem unbooted_unbooted : Unbooted unbooted := ⟨rfl, rfl, rfl, rfl⟩

-- Nine tables are needed and fit.
theorem boot_mapped_small :
    ∃ t, Returns (pagerInitMaps smallBoot) unbooted () t ∧ smallBoot.Mapped t.rest := by
  obtain ⟨hmapped, hreach⟩ := boot_mapped smallBoot_placed unbooted_unbooted
  have hpool : smallBoot.PoolSuffices := by
    unfold PagerBoot.PoolSuffices
    decide
  obtain ⟨t, ht⟩ := hreach hpool (by decide)
  exact ⟨t, ht, hmapped t ht⟩

end AosKernel.Boot
