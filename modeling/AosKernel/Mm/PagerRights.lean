import AosKernel.Mm.PagerTranslation

namespace AosKernel.Mm

open Verif Verif.Exec Verif.Radix

-- What the processor lets a page be used for.
structure Rights where
  writable : Bool
  user : Bool
  noExecute : Bool
  uncached : Bool
  deriving DecidableEq, Repr

def hasFlag (e flag : BitVec 64) : Bool := e &&& flag != 0

-- Every level must allow writes and user accesses, any level can forbid
-- execution, and the last one says how the page is cached.
def rightsOf (met : List PageEntry) : Rights where
  writable := met.all fun e => hasFlag e PAGE_RW
  user := met.all fun e => hasFlag e PAGE_USER
  noExecute := met.any fun e => hasFlag e PAGE_XD
  uncached := (met.getLast?).any fun e => hasFlag e PAGE_PCD

def Pager.rights (p : Pager) (virt : BitVec 64) : Option Rights := (p.walk virt).map rightsOf

-- The rights a flag word asks for.
def askedRights (f : BitVec 64) : Rights :=
  ⟨hasFlag f PAGE_RW, hasFlag f PAGE_USER, hasFlag f PAGE_XD, hasFlag f PAGE_PCD⟩

theorem hasFlag_eq (e : BitVec 64) {flag : BitVec 64} {n : Nat} (hn : n < 64)
    (h : flag = bitField n (n + 1)) : hasFlag e flag = e.getLsbD n := by
  rw [hasFlag, h]
  exact and_bit_bne e hn

theorem hasFlag_rw (e : BitVec 64) : hasFlag e PAGE_RW = e.getLsbD 1 :=
  hasFlag_eq e (by decide) (by decide)

theorem hasFlag_user (e : BitVec 64) : hasFlag e PAGE_USER = e.getLsbD 2 :=
  hasFlag_eq e (by decide) (by decide)

theorem hasFlag_pcd (e : BitVec 64) : hasFlag e PAGE_PCD = e.getLsbD 4 :=
  hasFlag_eq e (by decide) (by decide)

theorem hasFlag_xd (e : BitVec 64) : hasFlag e PAGE_XD = e.getLsbD 63 :=
  hasFlag_eq e (by decide) (by decide)

-- Below links made by pager_map a last entry never gives user access or
-- forbids execution, whatever was asked for.
theorem rightsOf_links {links : List PageEntry} {e f : PageEntry} (hne : links ≠ [])
    (hlinks : ∀ l ∈ links, ∃ b, IsPage b ∧ l = linkEntry b) (hbits : BitsWithin e 0 52)
    (hlow : ∀ i, 0 < i → i < 12 → e.getLsbD i = f.getLsbD i) :
    rightsOf (links ++ [e]) = ⟨hasFlag f PAGE_RW, false, false, hasFlag f PAGE_PCD⟩ := by
  have hrw : links.all (fun l => hasFlag l PAGE_RW) = true := by
    refine List.all_eq_true.mpr fun l hl => ?_
    obtain ⟨b, -, rfl⟩ := hlinks l hl
    rw [hasFlag_rw, getLsbD_linkEntry]
    simp
  have huser : links.all (fun l => hasFlag l PAGE_USER) = false := by
    obtain ⟨l, hl⟩ := List.exists_mem_of_ne_nil links hne
    obtain ⟨b, hb, rfl⟩ := hlinks l hl
    refine List.all_eq_false.mpr ⟨_, hl, ?_⟩
    rw [hasFlag_user, getLsbD_linkEntry, hb.eq_false (by decide)]
    decide
  have hxd : links.any (fun l => hasFlag l PAGE_XD) = false := by
    refine List.any_eq_false.mpr fun l hl => ?_
    obtain ⟨b, hb, rfl⟩ := hlinks l hl
    rw [hasFlag_xd, getLsbD_linkEntry, hb.eq_false (by decide)]
    decide
  have hxd' : hasFlag e PAGE_XD = false := by
    rw [hasFlag_xd, hbits.eq_false (by decide)]
  have hrw' : hasFlag e PAGE_RW = hasFlag f PAGE_RW := by
    rw [hasFlag_rw, hasFlag_rw, hlow 1 (by decide) (by decide)]
  have hpcd' : hasFlag e PAGE_PCD = hasFlag f PAGE_PCD := by
    rw [hasFlag_pcd, hasFlag_pcd, hlow 4 (by decide) (by decide)]
  simp [rightsOf, hrw, huser, hxd, hxd', hrw', hpcd']

theorem leafEntry_low (phys flags : BitVec 64) {i : Nat} (hpos : 0 < i) (hlt : i < 12) :
    (leafEntry phys flags).getLsbD i = flags.getLsbD i := by
  rw [getLsbD_leafEntry, if_pos hlt, decide_eq_false (by omega), Bool.or_false]

theorem hugeEntry_low (phys flags : BitVec 64) {i : Nat} (hpos : 0 < i) (hlt : i < 12) :
    (hugeEntry phys flags).getLsbD i = flags.getLsbD i := by
  rw [getLsbD_hugeEntry, if_pos hlt, decide_eq_false (by omega), Bool.or_false]

-- The rights of the page that is mapped, and of all others.
structure RightsAsAsked (p q : Pager) (virt flags : BitVec 64) : Prop where
  page : ∀ v, pageNumber flags v = pageNumber flags virt → q.rights v = some (askedRights flags)
  others : ∀ v, pageNumber flags v ≠ pageNumber flags virt → q.rights v = p.rights v

namespace MapResult

variable {p q : Pager} {pml4 : PhysAddr} {virt phys flags : BitVec 64}

-- The rights a successful call leaves on a page that was not mapped.
theorem rights_page (htree : p.Tree pml4) (hnone : p.walk virt = none)
    (h : MapResult p q pml4 virt phys flags true) {v : BitVec 64}
    (hv : pageNumber flags v = pageNumber flags virt) :
    q.rights v = if huge flags = false ∧ huge (p.pdSlot virt) = true then none
      else some ⟨hasFlag flags PAGE_RW, false, false, hasFlag flags PAGE_PCD⟩ := by
  obtain ⟨r, hr⟩ : ∃ r, true = r := ⟨_, rfl⟩
  rw [hr] at h
  cases h with
  | beyond => cases hr
  | hugeTaken hcpu hflags htaken hgrown =>
      rw [eq_comm, Bool.and_eq_true] at hr
      obtain ⟨links, -, -, hwalk⟩ := htree.walk_huge hr.1 ((prefix_iff_huge hflags).mpr rfl)
      rw [htaken, if_pos rfl, hnone] at hwalk
      cases hwalk
  | hugeSet hcpu hflags hfree hset =>
      obtain ⟨links, hlen, hlinks, hwalk⟩ := hset.walk_through ((prefix_iff_huge hflags).mpr hv)
      rw [present_hugeEntry, if_pos rfl] at hwalk
      rw [Pager.rights, hwalk, Option.map_some, rightsOf_links (by rintro rfl; cases hlen) hlinks
        (bitsWithin_hugeEntry flags (bitsWithin_of_not_beyond p.cpuPhysBits_le hcpu))
        fun i hpos hlt => hugeEntry_low phys flags hpos hlt]
      simp [hflags]
  | insideHuge hcpu hflags htaken hgrown =>
      have hpre {w : BitVec 64} (hw : pageNumber flags w = pageNumber flags virt) :
          [idxPml4 virt, idxPdpt virt] ++ [idxPd virt] <+: walkPath w := by
        obtain ⟨rest, hrest⟩ := (prefix_iff_page hflags).mpr hw
        exact ⟨idxPt virt :: rest, by simpa using hrest⟩
      have habsent : present (p.pdSlot virt) = false := by
        obtain ⟨links, -, -, hwalk⟩ := htree.walk_huge htaken (hpre rfl)
        rw [hnone] at hwalk
        by_contra hp
        simp [hp] at hwalk
      obtain ⟨links, -, -, hwalk⟩ := htree.walk_huge htaken (hpre hv)
      rw [Pager.rights, hgrown.walk, hwalk, habsent, if_pos (And.intro hflags htaken)]
      rfl
  | pageTaken hcpu hflags hsmall htaken hgrown =>
      obtain ⟨links, -, -, hwalk⟩ := htree.walk_page htaken ((prefix_iff_page hflags).mpr rfl)
      rw [hnone] at hwalk
      cases hwalk
  | pageSet hcpu hflags hsmall hfree hset =>
      obtain ⟨links, hlen, hlinks, hwalk⟩ := hset.walk_through ((prefix_iff_page hflags).mpr hv)
      rw [present_leafEntry, if_pos rfl] at hwalk
      rw [Pager.rights, hwalk, Option.map_some, rightsOf_links (by rintro rfl; cases hlen) hlinks
        (bitsWithin_leafEntry flags (bitsWithin_of_not_beyond p.cpuPhysBits_le hcpu))
        fun i hpos hlt => leafEntry_low phys flags hpos hlt]
      simp [hsmall]

theorem rightsAsAsked_iff (htree : p.Tree pml4) (hnone : p.walk virt = none)
    (h : MapResult p q pml4 virt phys flags true) :
    RightsAsAsked p q virt flags ↔ hasFlag flags PAGE_USER = false ∧
      hasFlag flags PAGE_XD = false ∧ ¬ (huge flags = false ∧ huge (p.pdSlot virt) = true) := by
  constructor
  · intro hasked
    have hpage := (h.rights_page htree hnone rfl).symm.trans (hasked.page virt rfl)
    by_cases hleft : huge flags = false ∧ huge (p.pdSlot virt) = true
    · rw [if_pos hleft] at hpage
      cases hpage
    · rw [if_neg hleft, Option.some.injEq, askedRights, Rights.mk.injEq] at hpage
      exact ⟨hpage.2.1.symm, hpage.2.2.1.symm, hleft⟩
  · rintro ⟨huser, hxd, hleft⟩
    refine ⟨fun v hv => ?_, fun v hv => ?_⟩
    · rw [h.rights_page htree hnone hv, if_neg hleft, askedRights, huser, hxd]
    · rw [Pager.rights, Pager.rights, h.walk_frame hv]

end MapResult

section Convert

variable (c : Prop) [Decidable c] (e : BitVec 64) {x flag : BitVec 64}

theorem hasFlag_ite_or (h : x &&& flag = 0#64) :
    hasFlag (if c then e ||| x else e) flag = hasFlag e flag := by
  split
  · rw [hasFlag, BitVec.and_or_distrib_right, h, BitVec.or_zero, hasFlag]
  · rfl

theorem hasFlag_ite_clear (h : ~~~ x &&& flag = flag) :
    hasFlag (if c then e &&& ~~~ x else e) flag = hasFlag e flag := by
  split
  · rw [hasFlag, BitVec.and_assoc, h, hasFlag]
  · rfl

end Convert

theorem convert_huge (flags : BitVec 32) :
    hasFlag (avmfConvertFlagsToPagerFlags flags) PAGE_HUGE = false := by
  rw [avmfConvertFlagsToPagerFlags, hasFlag_ite_or _ _ (by decide), hasFlag_ite_or _ _ (by decide),
    hasFlag_ite_or _ _ (by decide), hasFlag_ite_or _ _ (by decide),
    hasFlag_ite_clear _ _ (by decide), hasFlag_ite_or _ _ (by decide)]
  decide

theorem convert_user (flags : BitVec 32) :
    hasFlag (avmfConvertFlagsToPagerFlags flags) PAGE_USER =
      decide (flags &&& AVMF_FLAG_USERMODE ≠ 0) := by
  rw [avmfConvertFlagsToPagerFlags, hasFlag_ite_or _ _ (by decide), hasFlag_ite_or _ _ (by decide)]
  split
  · rename_i huser
    rw [decide_eq_true huser, hasFlag, BitVec.and_or_distrib_right, BitVec.and_self]
    refine bne_iff_ne.mpr fun hzero => ?_
    have hbit := congrArg (fun w => w.getLsbD 2) hzero
    simp [PAGE_USER] at hbit
  · rename_i huser
    rw [decide_eq_false huser, hasFlag_ite_or _ _ (by decide), hasFlag_ite_clear _ _ (by decide),
      hasFlag_ite_or _ _ (by decide)]
    decide

theorem convert_xd (flags : BitVec 32) :
    hasFlag (avmfConvertFlagsToPagerFlags flags) PAGE_XD =
      decide (flags &&& AVMF_FLAG_EXECUTABLE = 0) := by
  rw [avmfConvertFlagsToPagerFlags, hasFlag_ite_or _ _ (by decide), hasFlag_ite_or _ _ (by decide),
    hasFlag_ite_or _ _ (by decide), hasFlag_ite_or _ _ (by decide)]
  split
  · rename_i hexec
    rw [decide_eq_false hexec, hasFlag, BitVec.and_assoc, show ~~~ PAGE_XD &&& PAGE_XD = 0#64 by decide,
      BitVec.and_zero]
    rfl
  · rename_i hexec
    rw [decide_eq_true (not_not.mp hexec), hasFlag_ite_or _ _ (by decide)]
    decide

-- The flag word of one pager_map call of avmf_alloc.
def allocFlags (flags : BitVec 32) (big : Bool) : BitVec 64 :=
  if big then avmfConvertFlagsToPagerFlags flags ||| PAGE_HUGE
  else avmfConvertFlagsToPagerFlags flags

theorem huge_allocFlags (flags : BitVec 32) (big : Bool) : huge (allocFlags flags big) = big := by
  cases big with
  | false => exact convert_huge flags
  | true =>
      rw [allocFlags, if_pos rfl, huge_eq, BitVec.getLsbD_or]
      simp [PAGE_HUGE]

theorem walk_length {p : Pager} {virt : BitVec 64} {met : List PageEntry}
    (h : p.walk virt = some met) : met.length = 3 ∨ met.length = 4 := by
  obtain ⟨pml4, -, hmet⟩ := Option.bind_eq_some_iff.mp h
  dsimp only at hmet
  split at hmet
  · rename_i hlast
    cases hmet
    rw [walkPath, trail] at hlast ⊢
    cases h0 : pageLink 0 (p.entries pml4 (idxPml4 virt)) with
    | none =>
        exfalso
        simp only [h0, List.getLast?_singleton, Option.any_some] at hlast
        simp [pageLink, hlast] at h0
    | some a =>
        simp only [h0] at hlast ⊢
        rw [trail] at hlast ⊢
        cases h1 : pageLink (0 + 1) (p.entries a (idxPdpt virt)) with
        | none =>
            exfalso
            simp only [h1, List.getLast?_cons_cons, List.getLast?_singleton,
              Option.any_some] at hlast
            simp [pageLink, hlast] at h1
        | some b =>
            simp only [trail, List.length_cons]
            cases pageLink (0 + 1 + 1) (p.entries b (idxPd virt)) with
            | none => exact .inl rfl
            | some c =>
                right
                simp only [List.length_cons]
                split <;> rfl
  · cases hmet

theorem translate_eq_none_iff (p : Pager) (virt : BitVec 64) :
    p.translate virt = none ↔ p.walk virt = none := by
  unfold Pager.translate
  cases hwalk : p.walk virt with
  | none => simp
  | some met =>
      have hlen := walk_length hwalk
      match met, hlen with
      | [_, _, _], _ => simp [physOf]
      | [_, _, _, _], _ => simp [physOf]

-- A page that was not translated gets the rights that were asked for exactly
-- when these are neither user access nor a ban on execution, and it does not
-- lie in a 2 MiB entry left unmapped.
theorem pagerMap_rights_iff {alloc : Kernel (Option PhysAddr)} (halloc : FreshTables alloc)
    {start s t : KernelState} {pml4 : PhysAddr} (hstart : start.rest.Started pml4)
    (hs : Reachable (PagerStep alloc) start s) {virt phys : BitVec 64} {flags : BitVec 32}
    {big : Bool} (hnone : s.rest.translate virt = none)
    (hcall : Returns (pagerMap alloc virt phys (allocFlags flags big)) s true t) :
    RightsAsAsked s.rest t.rest virt (allocFlags flags big) ↔
      flags &&& AVMF_FLAG_USERMODE = 0 ∧ flags &&& AVMF_FLAG_EXECUTABLE ≠ 0 ∧
        ¬ (big = false ∧ huge (s.rest.pdSlot virt) = true) := by
  have htree := tree_of_reachable halloc hstart hs
  have hresult := ((pagerMap_spec halloc virt phys _ htree).of_returns hcall).2
  have huser : hasFlag (allocFlags flags big) PAGE_USER =
      decide (flags &&& AVMF_FLAG_USERMODE ≠ 0) := by
    rw [allocFlags, hasFlag_ite_or _ _ (by decide), convert_user]
  have hxd : hasFlag (allocFlags flags big) PAGE_XD =
      decide (flags &&& AVMF_FLAG_EXECUTABLE = 0) := by
    rw [allocFlags, hasFlag_ite_or _ _ (by decide), convert_xd]
  rw [hresult.rightsAsAsked_iff htree ((translate_eq_none_iff _ _).mp hnone), huge_allocFlags,
    huser, hxd, decide_eq_false_iff_not, decide_eq_false_iff_not, not_not]

-- A page to read and run, for the kernel.
theorem pagerMap_rights_iff_first :
    ∃ t, Returns (pagerMap bumpTables 0x400000 0x80000000 (allocFlags 0x5 false))
        freshMachine true t ∧
      (RightsAsAsked freshMachine.rest t.rest 0x400000 (allocFlags 0x5 false) ↔
        0x5#32 &&& AVMF_FLAG_USERMODE = 0 ∧ 0x5#32 &&& AVMF_FLAG_EXECUTABLE ≠ 0 ∧
          ¬ (false = false ∧ huge (freshMachine.rest.pdSlot 0x400000) = true)) := by
  obtain ⟨t, ht⟩ := returns_of_value
    (m := pagerMap bumpTables 0x400000 0x80000000 (allocFlags 0x5 false))
    (s := freshMachine) (a := true) rfl
  exact ⟨t, ht, pagerMap_rights_iff bumpTables_fresh freshMachine_started ⟨[], .nil⟩
    (by decide) ht⟩

-- A page for data, which is not to be executed.
def mapData : Kernel (Bool × Option Rights) := do
  let r ← pagerMap bumpTables 0x400000 0x80000000 (allocFlags AVMF_FLAG_WRITEABLE false)
  return (r, (← get).rest.rights 0x400000)

-- It can be executed.
theorem pagerMap_rights_fails :
    ∃ t, Returns (pagerMap bumpTables 0x400000 0x80000000 (allocFlags AVMF_FLAG_WRITEABLE false))
        freshMachine true t ∧ freshMachine.rest.translate 0x400000 = none ∧
      ¬ RightsAsAsked freshMachine.rest t.rest 0x400000 (allocFlags AVMF_FLAG_WRITEABLE false) := by
  obtain ⟨u, hu⟩ := returns_of_value (m := mapData) (s := freshMachine)
    (a := (true, some ⟨true, false, false, false⟩)) rfl
  simp only [mapData, returns_bind, returns_get, returns_pure, Prod.mk.injEq] at hu
  obtain ⟨r, t, hmap, v, w, ⟨rfl, rfl⟩, ⟨rfl, hrights⟩, rfl⟩ := hu
  refine ⟨t, hmap, by decide, fun hasked => ?_⟩
  have hpage := hasked.page 0x400000 rfl
  rw [hrights] at hpage
  revert hpage
  decide

end AosKernel.Mm
