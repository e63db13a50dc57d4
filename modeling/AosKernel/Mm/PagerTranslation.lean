import AosKernel.Mm.PagerMap

namespace AosKernel.Mm

open Verif Verif.Exec Verif.Radix

-- The page a call maps: 2 MiB with PAGE_HUGE, else 4 KiB.
def pageShift (flags : BitVec 64) : Nat := if huge flags then 21 else 12

-- The page of `virt` among the 48 bits that a walk looks at.
def pageNumber (flags virt : BitVec 64) : Nat := virt.toNat % 2 ^ 48 / 2 ^ pageShift flags

theorem extract_eq_iff (v w : BitVec 64) (start len : Nat) :
    v.extractLsb' start len = w.extractLsb' start len ↔
      v.toNat / 2 ^ start % 2 ^ len = w.toNat / 2 ^ start % 2 ^ len := by
  rw [← BitVec.toNat_inj, BitVec.extractLsb'_toNat, BitVec.extractLsb'_toNat,
    Nat.shiftRight_eq_div_pow, Nat.shiftRight_eq_div_pow]

-- Two addresses lie in one page exactly when the walk uses the same indices.
theorem pagePath_eq_iff (flags v w : BitVec 64) :
    pagePath flags v = pagePath flags w ↔ pageNumber flags v = pageNumber flags w := by
  unfold pagePath pageNumber pageShift walkPath idxPml4 idxPdpt idxPd idxPt
  cases huge flags with
  | true =>
      simp only [if_true, List.take, List.cons.injEq, extract_eq_iff, and_true]
      omega
  | false =>
      simp only [Bool.false_eq_true, if_false, List.take, List.cons.injEq, extract_eq_iff, and_true]
      omega

theorem pageNumber_add {flags virt : BitVec 64} {k : Nat}
    (hvirt : virt.toNat % 2 ^ pageShift flags = 0) (hk : k < 2 ^ pageShift flags) :
    pageNumber flags (virt + BitVec.ofNat 64 k) = pageNumber flags virt := by
  have hshift : pageShift flags ≤ 48 := by
    unfold pageShift
    split <;> omega
  have hsplit : 2 ^ 48 = 2 ^ pageShift flags * 2 ^ (48 - pageShift flags) := by
    rw [← Nat.pow_add, Nat.add_sub_cancel' hshift]
  unfold pageNumber
  rw [hsplit, Nat.mod_mul_right_div_self, Nat.mod_mul_right_div_self,
    toNat_add_offset (by omega) hvirt hk]

-- What pager_map promises of the translation before and after it.
structure MapsPage (p q : Pager) (virt phys flags : BitVec 64) (r : Bool) : Prop where
  mapped : r = true → ∀ k < 2 ^ pageShift flags,
    q.translate (virt + BitVec.ofNat 64 k) = some (phys + BitVec.ofNat 64 k)
  frame : ∀ v, pageNumber flags v ≠ pageNumber flags virt → q.translate v = p.translate v

-- A 4 KiB mapping meets the entry of a 2 MiB page that agrees with it on the
-- masked address: one that pager_unmap has left there, or one in which the two
-- addresses have different offsets.
def Leftover (p : Pager) (virt phys flags : BitVec 64) : Prop :=
  huge flags = false ∧ beyondCpu p.cpuPhysBits phys = false ∧ huge (p.pdSlot virt) = true ∧
    hugeAddr (p.pdSlot virt) = hugeAddr phys ∧
    (present (p.pdSlot virt) = false ∨ virt.toNat % 2 ^ 21 ≠ phys.toNat % 2 ^ 21)

theorem physOf_huge {virt phys : BitVec 64} {links : List PageEntry} {e : PageEntry} {k : Nat}
    (hlen : links.length = 2) (hvirt : virt.toNat % 2 ^ 21 = 0) (hphys : BitsWithin phys 21 52)
    (he : hugeFrameAddr e = phys) (hk : k < 2 ^ 21) :
    physOf (virt + BitVec.ofNat 64 k) (links ++ [e]) = some (phys + BitVec.ofNat 64 k) := by
  match links, hlen with
  | [x, y], _ =>
      simp only [List.cons_append, List.nil_append, physOf, he, hugeOffset_eq,
        (bitsWithin_of_mod hvirt).add_and_low (by decide) hk, hphys.add_eq_or hk]

theorem physOf_page {virt phys : BitVec 64} {links : List PageEntry} {e : PageEntry} {k : Nat}
    (hlen : links.length = 3) (hvirt : virt.toNat % 2 ^ 12 = 0) (hphys : BitsWithin phys 12 52)
    (he : frameAddr e = phys) (hk : k < 2 ^ 12) :
    physOf (virt + BitVec.ofNat 64 k) (links ++ [e]) = some (phys + BitVec.ofNat 64 k) := by
  match links, hlen with
  | [x, y, z], _ =>
      simp only [List.cons_append, List.nil_append, physOf, he, pageOffset_eq,
        (bitsWithin_of_mod hvirt).add_and_low (by decide) hk, hphys.add_eq_or hk]

theorem prefix_iff_huge {flags v w : BitVec 64} (hflags : huge flags = true) :
    [idxPml4 w, idxPdpt w] ++ [idxPd w] <+: walkPath v ↔ pageNumber flags v = pageNumber flags w := by
  rw [← pagePath_eq_iff]
  simp [pagePath, walkPath, hflags, eq_comm]

theorem prefix_iff_page {flags v w : BitVec 64} (hflags : huge flags = false) :
    [idxPml4 w, idxPdpt w, idxPd w] ++ [idxPt w] <+: walkPath v ↔
      pageNumber flags v = pageNumber flags w := by
  rw [← pagePath_eq_iff]
  simp [pagePath, walkPath, hflags, eq_comm]

-- The walk through a page directory slot that holds a 2 MiB entry.
theorem Pager.Tree.walk_huge {p : Pager} {pml4 : PhysAddr} (h : p.Tree pml4) {v w : BitVec 64}
    (hhuge : huge (p.pdSlot w) = true)
    (hv : [idxPml4 w, idxPdpt w] ++ [idxPd w] <+: walkPath v) :
    ∃ links, links.length = 2 ∧ (∀ l ∈ links, ∃ b, IsPage b ∧ l = linkEntry b) ∧
      p.walk v = if present (p.pdSlot w) then some (links ++ [p.pdSlot w]) else none := by
  refine h.walk_slot ?_ ?_ hv
  · intro hzero
    rw [Pager.pdSlot, hzero, huge_zero] at hhuge
    cases hhuge
  · have hhuge' : huge (p.slot [idxPml4 w, idxPdpt w] (idxPd w)) = true := hhuge
    simp [pageLink, hhuge']

theorem Pager.Tree.walk_page {p : Pager} {pml4 : PhysAddr} (h : p.Tree pml4) {v w : BitVec 64}
    (hpresent : present (p.ptSlot w) = true)
    (hv : [idxPml4 w, idxPdpt w, idxPd w] ++ [idxPt w] <+: walkPath v) :
    ∃ links, links.length = 3 ∧ (∀ l ∈ links, ∃ b, IsPage b ∧ l = linkEntry b) ∧
      p.walk v = some (links ++ [p.ptSlot w]) := by
  have hwalk := h.walk_slot ?_ ?_ hv
  · obtain ⟨links, hlen, hlinks, hw⟩ := hwalk
    have hpresent' : present (p.slot [idxPml4 w, idxPdpt w, idxPd w] (idxPt w)) = true := hpresent
    rw [hpresent', if_pos rfl] at hw
    exact ⟨links, hlen, hlinks, hw⟩
  · intro hzero
    rw [Pager.ptSlot, hzero, present_zero] at hpresent
    cases hpresent
  · simp [pageLink]

namespace MapResult

variable {p q : Pager} {pml4 : PhysAddr} {virt phys flags : BitVec 64} {r : Bool}

-- Whatever pager_map returns, no walk outside the page changes.
theorem walk_frame (h : MapResult p q pml4 virt phys flags r) {v : BitVec 64}
    (hv : pageNumber flags v ≠ pageNumber flags virt) : q.walk v = p.walk v := by
  cases h with
  | beyond _ hq => rw [hq]
  | hugeTaken _ _ _ hgrown => exact hgrown.walk v
  | hugeSet _ hflags _ hset => exact hset.walk_other fun hpre => hv ((prefix_iff_huge hflags).mp hpre)
  | insideHuge _ _ _ hgrown => exact hgrown.walk v
  | pageTaken _ _ _ _ hgrown => exact hgrown.walk v
  | pageSet _ hflags _ _ hset => exact hset.walk_other fun hpre => hv ((prefix_iff_page hflags).mp hpre)

theorem bitsWithin_phys {bits n : Nat} (hbits : bits ≤ 52) (hcpu : beyondCpu bits phys = false)
    (hphys : phys.toNat % 2 ^ n = 0) : BitsWithin phys n 52 :=
  (bitsWithin_of_mod hphys).inter (bitsWithin_of_not_beyond hbits hcpu)

-- A call that ends inside an entry for a 2 MiB page is right about the page
-- exactly when that entry is in use and the offsets agree.
theorem insideHuge_iff (htree : p.Tree pml4) (hgrown : p.Grown q pml4 3)
    (hflags : huge flags = false) (hcpu : beyondCpu p.cpuPhysBits phys = false)
    (hhuge : huge (p.pdSlot virt) = true) (heq : hugeAddr (p.pdSlot virt) = hugeAddr phys)
    (hvirt : virt.toNat % 2 ^ 12 = 0) (hphys : phys.toNat % 2 ^ 12 = 0) :
    (∀ k < 2 ^ 12, q.translate (virt + BitVec.ofNat 64 k) = some (phys + BitVec.ofNat 64 k)) ↔
      present (p.pdSlot virt) = true ∧ virt.toNat % 2 ^ 21 = phys.toNat % 2 ^ 21 := by
  have hbits := bitsWithin_phys p.cpuPhysBits_le hcpu hphys
  have hvirtBits := bitsWithin_of_mod hvirt
  have hframe := hugeFrameAddr_of_hugeAddr (hbits.mono (Nat.zero_le 12) (Nat.le_refl 52)) heq
  -- every byte of the page goes through the entry
  have htranslate : ∀ k < 2 ^ 12, q.translate (virt + BitVec.ofNat 64 k) =
      if present (p.pdSlot virt) then
        some (hugeAddr phys ||| ((virt + BitVec.ofNat 64 k) &&& 0x1FFFFF)) else none := by
    intro k hk
    have hshift : pageShift flags = 12 := by simp [pageShift, hflags]
    have hnumber := @pageNumber_add flags virt k (hshift ▸ hvirt) (hshift ▸ hk)
    obtain ⟨rest, hrest⟩ := (prefix_iff_page hflags).mpr hnumber
    have hpre : [idxPml4 virt, idxPdpt virt] ++ [idxPd virt] <+:
        walkPath (virt + BitVec.ofNat 64 k) := ⟨idxPt virt :: rest, by simpa using hrest⟩
    obtain ⟨links, hlen, -, hwalk⟩ := htree.walk_huge hhuge hpre
    rw [Pager.translate, hgrown.walk, hwalk]
    match links, hlen with
    | [x, y], _ => split <;> simp [physOf, hframe]
  rw [← and_low_eq_iff virt phys (by decide), ← hugeOffset_eq]
  constructor
  · intro h
    have hzero := h 0 (by decide)
    rw [htranslate 0 (by decide)] at hzero
    cases hp : present (p.pdSlot virt) with
    | false => simp [hp] at hzero
    | true =>
        rw [hp, if_pos rfl, BitVec.add_zero, BitVec.add_zero, Option.some.injEq] at hzero
        have hlow := hugeAddr_or_and_low phys virt
        rw [hzero] at hlow
        refine ⟨rfl, ?_⟩
        exact hlow.symm
  · rintro ⟨hp, hoffset⟩ k hk
    rw [htranslate k hk, hp, if_pos rfl]
    refine congrArg some (BitVec.eq_of_getLsbD_eq fun i _ => ?_)
    have hlow := congrArg (fun w => w.getLsbD i) hoffset
    simp only [hugeOffset_eq, getLsbD_and_field _ (show 21 ≤ 64 by decide)] at hlow
    rw [hvirtBits.add_eq_or hk, hbits.add_eq_or hk, hugeOffset_eq, BitVec.getLsbD_or,
      getLsbD_hugeAddr, getLsbD_and_field _ (by decide), BitVec.getLsbD_or, BitVec.getLsbD_or]
    by_cases hi : i < 21
    · simpa [hi] using congrArg (· || (BitVec.ofNat 64 k).getLsbD i) hlow
    · simp [hi, (bitsWithin_ofNat hk).eq_false (i := i) (.inr (by omega))]

theorem mapped_of_not_inside (htree : p.Tree pml4)
    (hvirt : virt.toNat % 2 ^ pageShift flags = 0) (hphys : phys.toNat % 2 ^ pageShift flags = 0)
    (h : MapResult p q pml4 virt phys flags true)
    (hout : huge flags = true ∨ huge (p.pdSlot virt) = false) :
    ∀ k < 2 ^ pageShift flags,
      q.translate (virt + BitVec.ofNat 64 k) = some (phys + BitVec.ofNat 64 k) := by
  intro k hk
  have hnumber := pageNumber_add hvirt hk
  obtain ⟨r, hr⟩ : ∃ r, true = r := ⟨_, rfl⟩
  rw [hr] at h
  cases h with
  | beyond => cases hr
  | hugeTaken hcpu hflags htaken hgrown =>
      have hshift : pageShift flags = 21 := by simp [pageShift, hflags]
      rw [hshift] at hvirt hphys hk
      have hbits := bitsWithin_phys p.cpuPhysBits_le hcpu hphys
      rw [eq_comm, Bool.and_eq_true, beq_iff_eq] at hr
      obtain ⟨links, hlen, -, hwalk⟩ :=
        htree.walk_huge hr.1 ((prefix_iff_huge hflags).mpr hnumber)
      have hframe := hugeFrameAddr_of_hugeAddr (hbits.mono (Nat.zero_le 21) (Nat.le_refl 52)) hr.2
      rw [hugeAddr_eq_self hbits] at hframe
      rw [Pager.translate, hgrown.walk, hwalk, htaken, if_pos rfl, Option.bind_some]
      exact physOf_huge hlen hvirt hbits hframe hk
  | hugeSet hcpu hflags hfree hset =>
      have hshift : pageShift flags = 21 := by simp [pageShift, hflags]
      rw [hshift] at hvirt hphys hk
      have hbits := bitsWithin_phys p.cpuPhysBits_le hcpu hphys
      obtain ⟨links, hlen, -, hwalk⟩ :=
        hset.walk_through ((prefix_iff_huge hflags).mpr hnumber)
      rw [Pager.translate, hwalk, present_hugeEntry, if_pos rfl, Option.bind_some]
      exact physOf_huge hlen hvirt hbits (hugeFrameAddr_hugeEntry flags hbits) hk
  | insideHuge hcpu hflags htaken hgrown =>
      rcases hout with hout | hout
      · rw [hflags] at hout
        cases hout
      · rw [htaken] at hout
        cases hout
  | pageTaken hcpu hflags hsmall htaken hgrown =>
      have hshift : pageShift flags = 12 := by simp [pageShift, hflags]
      rw [hshift] at hvirt hphys hk
      have hbits := bitsWithin_phys p.cpuPhysBits_le hcpu hphys
      rw [eq_comm, beq_iff_eq] at hr
      obtain ⟨links, hlen, -, hwalk⟩ :=
        htree.walk_page htaken ((prefix_iff_page hflags).mpr hnumber)
      rw [Pager.translate, hgrown.walk, hwalk, Option.bind_some]
      exact physOf_page hlen hvirt hbits (frameAddr_of_pageAddr hbits hr) hk
  | pageSet hcpu hflags hsmall hfree hset =>
      have hshift : pageShift flags = 12 := by simp [pageShift, hflags]
      rw [hshift] at hvirt hphys hk
      have hbits := bitsWithin_phys p.cpuPhysBits_le hcpu hphys
      obtain ⟨links, hlen, -, hwalk⟩ :=
        hset.walk_through ((prefix_iff_page hflags).mpr hnumber)
      rw [Pager.translate, hwalk, present_leafEntry, if_pos rfl, Option.bind_some]
      exact physOf_page hlen hvirt hbits (frameAddr_leafEntry flags hbits) hk

theorem mapsPage_iff (htree : p.Tree pml4) (hvirt : virt.toNat % 2 ^ pageShift flags = 0)
    (hphys : phys.toNat % 2 ^ pageShift flags = 0) (h : MapResult p q pml4 virt phys flags r) :
    MapsPage p q virt phys flags r ↔ ¬ Leftover p virt phys flags := by
  have hframe : ∀ v, pageNumber flags v ≠ pageNumber flags virt → q.translate v = p.translate v :=
    fun v hv => by rw [Pager.translate, Pager.translate, h.walk_frame hv]
  by_cases hout : huge flags = true ∨ huge (p.pdSlot virt) = false
  · have hnot : ¬ Leftover p virt phys flags := by
      rintro ⟨hflags, -, hhuge, -⟩
      rcases hout with hout | hout
      · rw [hflags] at hout
        cases hout
      · rw [hhuge] at hout
        cases hout
    refine iff_of_true ⟨fun hr => ?_, hframe⟩ hnot
    subst hr
    exact h.mapped_of_not_inside htree hvirt hphys hout
  · obtain ⟨hflags, hhuge⟩ : huge flags = false ∧ huge (p.pdSlot virt) = true := by
      simpa using hout
    have hshift : pageShift flags = 12 := by simp [pageShift, hflags]
    cases h with
    | beyond hbeyond _ =>
        refine iff_of_true ⟨nofun, hframe⟩ ?_
        rintro ⟨-, hcpu, -⟩
        rw [hbeyond] at hcpu
        cases hcpu
    | hugeTaken _ hflags' | hugeSet _ hflags' =>
        rw [hflags] at hflags'
        cases hflags'
    | pageTaken _ _ hsmall | pageSet _ _ hsmall =>
        rw [hhuge] at hsmall
        cases hsmall
    | insideHuge hcpu _ _ hgrown =>
        by_cases heq : hugeAddr (p.pdSlot virt) = hugeAddr phys
        · rw [hshift] at hvirt hphys
          have hiff := insideHuge_iff htree hgrown hflags hcpu hhuge heq hvirt hphys
          constructor
          · rintro hmaps ⟨-, -, -, -, hbad⟩
            have hmapped := hmaps.mapped (by simpa using heq)
            rw [hshift] at hmapped
            obtain ⟨hpresent, hoffset⟩ := hiff.mp hmapped
            rcases hbad with hbad | hbad
            · rw [hpresent] at hbad
              cases hbad
            · exact hbad hoffset
          · intro hnot
            refine ⟨fun _ => ?_, hframe⟩
            rw [hshift]
            refine hiff.mpr ⟨?_, ?_⟩
            · by_contra hp
              exact hnot ⟨hflags, hcpu, hhuge, heq, .inl (by simpa using hp)⟩
            · by_contra hoffset
              exact hnot ⟨hflags, hcpu, hhuge, heq, .inr hoffset⟩
        · refine iff_of_true ⟨fun hr => absurd (by simpa using hr) heq, hframe⟩ ?_
          rintro ⟨-, -, -, heq', -⟩
          exact heq heq'

end MapResult

inductive PagerCall
  | map (virt phys flags : BitVec 64)
  | unmap (virt : BitVec 64)

def PagerStep (alloc : Kernel (Option PhysAddr)) (s : KernelState) (call : PagerCall)
    (t : KernelState) : Prop :=
  match call with
  | .map virt phys flags => ∃ r, Returns (pagerMap alloc virt phys flags) s r t
  | .unmap virt => Returns (pagerUnmap virt) s () t

-- The page tables once alloc_page_table has returned the PML4.
structure Pager.Started (p : Pager) (pml4 : PhysAddr) : Prop where
  table : p.table = some pml4
  known : pml4 ∈ p.tables
  empty : ∀ i, p.entries pml4 i = 0

-- No path leaves an empty PML4.
theorem Pager.Started.follow_eq {p : Pager} {pml4 : PhysAddr} (h : p.Started pml4)
    {path : List Index} {a : PhysAddr} (ha : follow pageLink p.entries 0 pml4 path = some a) :
    path = [] ∧ a = pml4 := by
  cases path with
  | nil =>
      cases ha
      exact ⟨rfl, rfl⟩
  | cons i rest =>
      rw [follow, h.empty, pageLink_none_of_not_present present_zero] at ha
      cases ha

theorem Pager.Started.tree {p : Pager} {pml4 : PhysAddr} (h : p.Started pml4) : p.Tree pml4 := by
  refine ⟨h.table, ?_, ?_, ?_⟩
  · intro path path' a ha ha'
    rw [(h.follow_eq ha).1, (h.follow_eq ha').1]
  · rintro a ⟨path, ha⟩
    rw [(h.follow_eq ha).2]
    exact h.known
  · intro path a i ha
    rw [(h.follow_eq ha).2, h.empty]
    exact entryOk_of_not_present present_zero

theorem Pager.Started.slot_eq {p : Pager} {pml4 : PhysAddr} (h : p.Started pml4)
    (path : List Index) (i : Index) : p.slot path i = 0 := by
  cases hpath : follow pageLink p.entries 0 pml4 path with
  | none => exact h.tree.slot_none hpath i
  | some a => rw [h.tree.slot_eq hpath, (h.follow_eq hpath).2, h.empty]

theorem MapResult.tree {p q : Pager} {pml4 : PhysAddr} {virt phys flags : BitVec 64} {r : Bool}
    (htree : p.Tree pml4) (h : MapResult p q pml4 virt phys flags r) : q.Tree pml4 := by
  cases h with
  | beyond _ hq => exact hq ▸ htree
  | hugeTaken _ _ _ hgrown | insideHuge _ _ _ hgrown | pageTaken _ _ _ _ hgrown => exact hgrown.tree
  | hugeSet _ _ _ hset | pageSet _ _ _ _ hset => exact hset.tree

theorem UnmapResult.tree {p q : Pager} {pml4 virt : PhysAddr} (htree : p.Tree pml4)
    (h : UnmapResult p q pml4 virt) : q.Tree pml4 := by
  cases h with
  | nothing hq => exact hq ▸ htree
  | hugeCleared _ hset | pageCleared _ hset => exact hset.tree

theorem PagerStep.tree {alloc : Kernel (Option PhysAddr)} (halloc : FreshTables alloc)
    {s t : KernelState} {pml4 : PhysAddr} {call : PagerCall} (htree : s.rest.Tree pml4)
    (hstep : PagerStep alloc s call t) : t.rest.Tree pml4 := by
  cases call with
  | map virt phys flags =>
      obtain ⟨r, hcall⟩ := hstep
      exact ((pagerMap_spec halloc virt phys flags htree).of_returns hcall).2.tree htree
  | unmap virt => exact ((pagerUnmap_spec virt htree).of_returns hstep).2.2.tree htree

theorem tree_of_reachable {alloc : Kernel (Option PhysAddr)} (halloc : FreshTables alloc)
    {start s : KernelState} {pml4 : PhysAddr} (hstart : start.rest.Started pml4)
    (hs : Reachable (PagerStep alloc) start s) : s.rest.Tree pml4 :=
  hs.invariant (I := fun s => s.rest.Tree pml4) hstart.tree fun _ _ _ hI hstep =>
    hstep.tree halloc hI

-- pager_map keeps its promise in exactly the reachable states in which the
-- page does not meet a leftover.
theorem pagerMap_mapsPage_iff {alloc : Kernel (Option PhysAddr)} (halloc : FreshTables alloc)
    {start s t : KernelState} {pml4 : PhysAddr} (hstart : start.rest.Started pml4)
    (hs : Reachable (PagerStep alloc) start s) {virt phys flags : BitVec 64} {r : Bool}
    (hvirt : virt.toNat % 2 ^ pageShift flags = 0) (hphys : phys.toNat % 2 ^ pageShift flags = 0)
    (hcall : Returns (pagerMap alloc virt phys flags) s r t) :
    MapsPage s.rest t.rest virt phys flags r ↔ ¬ Leftover s.rest virt phys flags := by
  have htree := tree_of_reachable halloc hstart hs
  exact ((pagerMap_spec halloc virt phys flags htree).of_returns hcall).2.mapsPage_iff
    htree hvirt hphys

-- A supply of tables that goes up from the last one taken and stops where the
-- next page would not do.
def bumpTables : Kernel (Option PhysAddr) := do
  let s ← get
  let b := s.rest.tables.headD 0 + 0x1000
  if b ∈ s.rest.tables ∨ b &&& 0xFFF ≠ 0 ∨ beyondCpu s.rest.cpuPhysBits b then
    throw .outOfBounds
  else
    takeTable b
    zeroTable b
    return some b

theorem bumpTables_fresh : FreshTables bumpTables := by
  refine ⟨fun s => ?_⟩
  unfold bumpTables
  rw [sat_bind, sat_get]
  refine Sat.ite (fun _ => trivial) fun hok => ?_
  simp only [not_or, not_not, Bool.not_eq_true] at hok
  exact ⟨_, rfl, hok.1, hok.2.1, hok.2.2, rfl, rfl⟩

-- A machine of 4 GiB with its PML4 at 0x1000.
def freshMachine : KernelState where
  avmf := avmfInit []
  held := []
  requests := []
  rest :=
    { table := some 0x1000
      loaded := true
      ready := true
      cpuPhysBits := 32
      cpuPhysBits_le := by decide
      firstPagemaps := 0
      firstPagemapsEnd := 0
      firstPagemapsPtr := 0
      entries := fun _ _ => 0
      tables := [0x1000]
      writes := [] }

theorem freshMachine_started : freshMachine.rest.Started 0x1000 :=
  ⟨rfl, by decide, fun _ => rfl⟩

theorem pagerMap_mapsPage_iff_first :
    ∃ t, Returns (pagerMap bumpTables 0x400000 0x80000000 PAGE_RW) freshMachine true t ∧
      (MapsPage freshMachine.rest t.rest 0x400000 0x80000000 PAGE_RW true ↔
        ¬ Leftover freshMachine.rest 0x400000 0x80000000 PAGE_RW) := by
  obtain ⟨t, ht⟩ := returns_of_value (m := pagerMap bumpTables 0x400000 0x80000000 PAGE_RW)
    (s := freshMachine) (a := true) rfl
  exact ⟨t, ht, pagerMap_mapsPage_iff bumpTables_fresh freshMachine_started ⟨[], .nil⟩
    (by decide) (by decide) ht⟩

-- A 2 MiB page, unmapped and mapped again as 4 KiB pages.
def remapSmall : Kernel (Bool × Option PhysAddr) := do
  let _ ← pagerMap bumpTables 0x200000 0x40000000 (PAGE_RW ||| PAGE_HUGE)
  pagerUnmap 0x200000
  let r ← pagerMap bumpTables 0x200000 0x40000000 PAGE_RW
  return (r, (← get).rest.translate 0x200000)

-- pager_map reports success and the page stays unmapped.
theorem pagerMap_mapsPage_fails :
    ∃ s t, Reachable (PagerStep bumpTables) freshMachine s ∧
      Returns (pagerMap bumpTables 0x200000 0x40000000 PAGE_RW) s true t ∧
      ¬ MapsPage s.rest t.rest 0x200000 0x40000000 PAGE_RW true := by
  obtain ⟨u, hu⟩ := returns_of_value (m := remapSmall) (s := freshMachine) (a := (true, none)) rfl
  simp only [remapSmall, returns_bind, returns_get, returns_pure, Prod.mk.injEq] at hu
  obtain ⟨r₁, s₁, hmap, _, s₂, hunmap, r₂, s₃, hagain, v, s₄, ⟨rfl, rfl⟩, ⟨rfl, hnone⟩, rfl⟩ := hu
  have hmapStep : PagerStep bumpTables freshMachine
      (.map 0x200000 0x40000000 (PAGE_RW ||| PAGE_HUGE)) s₁ := ⟨r₁, hmap⟩
  have hunmapStep : PagerStep bumpTables s₁ (.unmap 0x200000) s₂ := hunmap
  refine ⟨s₂, s₃, ⟨_, .snoc (.snoc .nil hmapStep) hunmapStep⟩, hagain, fun hmaps => ?_⟩
  have hfirst := hmaps.mapped rfl 0 (by decide)
  rw [BitVec.add_zero, hnone] at hfirst
  cases hfirst

end AosKernel.Mm
