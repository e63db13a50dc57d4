import AosKernel.Lib.Trace
import AosKernel.Mm.PageWalk
import AosKernel.Mm.PagerKeeps

namespace AosKernel.Mm

open Verif Verif.Exec Verif.Radix

@[simp] theorem sat_readEntry (a : PhysAddr) (i : Index) (s : KernelState)
    (Q : PageEntry → KernelState → Prop) (E : Halt → Prop) :
    Sat (readEntry a i) s Q E ↔ Q (s.rest.entries a i) s :=
  Iff.rfl

@[simp] theorem sat_writeTable (a : PhysAddr) (i : Index) (b : PhysAddr) (s : KernelState)
    (Q : Unit → KernelState → Prop) (E : Halt → Prop) :
    Sat (writeTable a i b) s Q E ↔ Q () { s with rest := s.rest.writeLink a i b } :=
  Iff.rfl

-- An alloc_page_table that, whenever it returns, returns a zeroed page that is
-- no table yet and leaves the other tables and the locks alone.
structure FreshTables (alloc : Kernel (Option PhysAddr)) : Prop where
  fresh : ∀ s, Sat alloc s (fun r t => ∃ b, r = some b ∧ b ∉ s.rest.tables ∧ b &&& 0xFFF = 0 ∧
    beyondCpu s.rest.cpuPhysBits b = false ∧ t.held = s.held ∧ t.rest = s.rest.newTable b)
    fun _ => True

theorem isPage_of_fresh {p : Pager} {b : PhysAddr} (halign : b &&& 0xFFF = 0)
    (hcpu : beyondCpu p.cpuPhysBits b = false) : IsPage b := by
  rw [pageOffset_eq] at halign
  exact bitsWithin_of_aligned (by decide) halign (bitsWithin_of_not_beyond p.cpuPhysBits_le hcpu)

-- A zeroed page that was no table has been handed out for one.
structure NewTable (s t : KernelState) (b : PhysAddr) : Prop where
  fresh : b ∉ s.rest.tables
  isPage : IsPage b
  held : t.held = s.held
  rest : t.rest = { s.rest.newTable b with firstPagemapsPtr := t.rest.firstPagemapsPtr }

-- An alloc_page_table that gives new tables in the states of `I`, for the
-- places of the tree in `N`, and what pager_map does keeps to `I`. It may also
-- give what is no table; the tree is lost then, for good.
structure TableSource (alloc : Kernel (Option PhysAddr)) (pml4 : PhysAddr)
    (I : KernelState → Prop) (E : Halt → Prop) (N : List Index → Prop) (Lost : Pager → Prop) :
    Prop where
  locks : ∀ s held, I s → I { s with held := held }
  grow : ∀ s path a i, I s → .pml4 ∈ s.held → s.rest.Tree pml4 →
    follow pageLink s.rest.entries 0 pml4 path = some a → path.length < 3 →
    present (s.rest.entries a i) = false → N (path ++ [i]) →
    Sat alloc s (fun r t => match r with
      | some b => ¬ Lost (t.rest.writeLink a i b) →
          NewTable s t b ∧ I { t with rest := t.rest.writeLink a i b }
      | none => E .nullDeref) E
  write : ∀ s path a i e, I s → s.rest.CanWrite pml4 path a e →
    pageLink path.length (s.rest.entries a i) = none →
    I { s with rest := s.rest.write a i e }
  parts : PagerParts (fun s => Lost s.rest) E
  lost : Maintains (fun s => Lost s.rest) E alloc

-- What comes after a step that may have lost the tree.
theorem bind_kept {α β : Type} {Lost : Pager → Prop} {m : Kernel α} {f : α → Kernel β}
    {s : KernelState} {R : α → KernelState → Prop} {Q : β → KernelState → Prop} {E : Halt → Prop}
    (hm : Sat m s (fun a t => ¬ Lost t.rest → R a t) E)
    (hf : ∀ a, Maintains (fun s => Lost s.rest) E (f a))
    (h : ∀ a t, R a t → Sat (f a) t (fun b u => ¬ Lost u.rest → Q b u) E) :
    Sat (m >>= f) s (fun b u => ¬ Lost u.rest → Q b u) E := by
  refine Sat.bind hm fun a t ht => ?_
  by_cases hlost : Lost t.rest
  · exact (hf a t hlost).imp fun _ _ hu hnot => absurd hu hnot
  · exact h a t (ht hlost)

theorem FreshTables.source {alloc : Kernel (Option PhysAddr)} (h : FreshTables alloc)
    (pml4 : PhysAddr) :
    TableSource alloc pml4 (fun _ => True) (fun _ => True) (fun _ => True) fun _ => False := by
  refine ⟨fun _ _ _ => trivial, fun s _ _ _ _ _ _ _ _ _ _ => ?_, fun _ _ _ _ _ _ _ _ => trivial,
    ⟨nofun, nofun, nofun, nofun, nofun⟩, nofun⟩
  refine (h.fresh s).imp fun r t ht => ?_
  obtain ⟨b, rfl, hfresh, haligned, hcpu, hheld, hrest⟩ := ht
  exact fun _ => ⟨⟨hfresh, isPage_of_fresh haligned hcpu, hheld, by rw [hrest]⟩, trivial⟩

-- From `p` to `q` tables have been linked at depths below `depth`; every walk
-- stays as it was.
structure Pager.Grown (p q : Pager) (pml4 : PhysAddr) (depth : Nat) : Prop where
  tree : q.Tree pml4
  walk : ∀ virt, q.walk virt = p.walk virt
  slot : ∀ path i, depth ≤ path.length → q.slot path i = p.slot path i
  bits : q.cpuPhysBits = p.cpuPhysBits

theorem Pager.Grown.refl {p : Pager} {pml4 : PhysAddr} (h : p.Tree pml4) (depth : Nat) :
    p.Grown p pml4 depth :=
  ⟨h, fun _ => rfl, fun _ _ _ => rfl, rfl⟩

theorem Pager.Grown.trans {p q r : Pager} {pml4 : PhysAddr} {m n : Nat} (h : p.Grown q pml4 m)
    (h' : q.Grown r pml4 n) (hmn : m ≤ n) : p.Grown r pml4 n :=
  ⟨h'.tree, fun virt => (h'.walk virt).trans (h.walk virt),
    fun path i hlen => (h'.slot path i hlen).trans (h.slot path i (hmn.trans hlen)),
    h'.bits.trans h.bits⟩

theorem Pager.Grown.weaken {p q : Pager} {pml4 : PhysAddr} {m n : Nat} (h : p.Grown q pml4 m)
    (hmn : m ≤ n) : p.Grown q pml4 n :=
  ⟨h.tree, h.walk, fun path i hlen => h.slot path i (hmn.trans hlen), h.bits⟩

theorem Pager.CanLink.grown {p : Pager} {pml4 a b : PhysAddr} {i : Index} {path : List Index}
    (h : p.CanLink pml4 path a i b) : p.Grown (p.linkTable a i b) pml4 (path.length + 1) := by
  refine ⟨h.linkTable, h.walk_eq, fun q j hlen => h.slot_eq q j ?_, rfl⟩
  rintro ⟨rfl, -⟩
  omega

-- The place of the next free page of the pool makes no difference to the tree.
theorem Pager.Grown.setPtr {p q : Pager} {pml4 : PhysAddr} {depth : Nat}
    (h : p.Grown q pml4 depth) (ptr : Nat) :
    p.Grown { q with firstPagemapsPtr := ptr } pml4 depth :=
  ⟨⟨h.tree.table, h.tree.separated, h.tree.known, h.tree.sound⟩, h.walk, h.slot, h.bits⟩

-- From `p` to `q` slots have changed only on the way to one page, and before
-- its end no slot of a 2 MiB page is gone or new.
def Pager.SlotsAlong (p q : Pager) (way : List Index) : Prop :=
  ∀ path i, q.slot path i = p.slot path i ∨ (path ++ [i] <+: way ∧ (path ++ [i] ≠ way →
    huge (q.slot path i) = false ∧ (path.length = 2 → huge (p.slot path i) = false)))

theorem Pager.SlotsAlong.refl (p : Pager) (way : List Index) : p.SlotsAlong p way :=
  fun _ _ => .inl rfl

theorem Pager.SlotsAlong.trans {p q r : Pager} {way : List Index} (h : p.SlotsAlong q way)
    (h' : q.SlotsAlong r way) : p.SlotsAlong r way := by
  intro path i
  rcases h' path i with hsame | ⟨hway, hbefore⟩
  · rw [hsame]
    exact h path i
  · refine .inr ⟨hway, fun hne => ⟨(hbefore hne).1, fun hlen => ?_⟩⟩
    have hq := (hbefore hne).2 hlen
    rcases h path i with hsame | ⟨-, hbefore'⟩
    · rw [← hsame, hq]
    · exact (hbefore' hne).2 hlen

theorem Pager.CanLink.slotsAlong {p : Pager} {pml4 a b : PhysAddr} {i : Index}
    {path way : List Index} (h : p.CanLink pml4 path a i b) (hway : path ++ [i] <+: way)
    (hsmall : path.length = 2 → huge (p.slot path i) = false) :
    p.SlotsAlong (p.linkTable a i b) way := by
  intro q j
  by_cases hslot : q = path ∧ j = i
  · obtain ⟨rfl, rfl⟩ := hslot
    refine .inr ⟨hway, fun _ => ⟨?_, hsmall⟩⟩
    rw [h.slot_self, h.page.not_huge]
  · exact .inl (h.slot_eq q j hslot)

theorem Pager.CanWrite.slotsAlong {p : Pager} {pml4 a : PhysAddr} {i : Index} {e : PageEntry}
    {path way : List Index} (h : p.CanWrite pml4 path a e)
    (hold : pageLink path.length (p.entries a i) = none) (hway : path ++ [i] = way) :
    p.SlotsAlong (p.write a i e) way := by
  intro q j
  by_cases hslot : q = path ∧ j = i
  · obtain ⟨rfl, rfl⟩ := hslot
    exact .inr ⟨hway ▸ List.prefix_refl _, fun hne => absurd hway hne⟩
  · exact .inl (h.slot_other hold q j hslot)

-- The indices that all addresses of a page share.
def pagePath (flags virt : BitVec 64) : List Index := (walkPath virt).take (if huge flags then 3 else 4)

-- The slots of the two page sizes for an address.
def Pager.pdSlot (p : Pager) (virt : BitVec 64) : PageEntry :=
  p.slot [idxPml4 virt, idxPdpt virt] (idxPd virt)

def Pager.ptSlot (p : Pager) (virt : BitVec 64) : PageEntry :=
  p.slot [idxPml4 virt, idxPdpt virt, idxPd virt] (idxPt virt)

-- The entry `i` of a table at the end of `path` has become `e` and nothing
-- else, after the missing tables were linked.
def Pager.Entered (p q : Pager) (pml4 : PhysAddr) (path : List Index) (i : Index)
    (e : PageEntry) : Prop :=
  ∃ p' a, p.Grown p' pml4 3 ∧ p'.CanWrite pml4 path a e ∧ q = p'.write a i e

namespace Pager.Entered

variable {p q : Pager} {pml4 : PhysAddr} {path : List Index} {i : Index} {e : PageEntry}
  (h : p.Entered q pml4 path i e)

include h

theorem tree : q.Tree pml4 := by
  obtain ⟨p', a, -, hwrite, rfl⟩ := h
  exact hwrite.write i

theorem walk_other {virt : BitVec 64} (hvirt : ¬ path ++ [i] <+: walkPath virt) :
    q.walk virt = p.walk virt := by
  obtain ⟨p', a, hgrown, hwrite, rfl⟩ := h
  rw [hwrite.walk_other hvirt, hgrown.walk]

-- A walk through the new entry has links above it and nothing below.
theorem walk_through {virt : BitVec 64} (hvirt : path ++ [i] <+: walkPath virt) :
    ∃ links, links.length = path.length ∧ (∀ l ∈ links, ∃ b, IsPage b ∧ l = linkEntry b) ∧
      q.walk virt = if present e then some (links ++ [e]) else none := by
  obtain ⟨p', a, hgrown, hwrite, rfl⟩ := h
  obtain ⟨hlen, hlinks⟩ := hgrown.tree.trail_links hwrite.reached
  exact ⟨_, hlen, hlinks, hwrite.walk_through hvirt⟩

end Pager.Entered

-- Everything pager_map can do, and what it returns.
inductive MapResult (p q : Pager) (pml4 : PhysAddr) (virt phys flags : BitVec 64) : Bool → Prop
  | beyond (hbeyond : beyondCpu p.cpuPhysBits phys = true) (hq : q = p) :
      MapResult p q pml4 virt phys flags false
  | hugeTaken (hcpu : beyondCpu p.cpuPhysBits phys = false) (hflags : huge flags = true)
      (htaken : present (p.pdSlot virt) = true) (hgrown : p.Grown q pml4 3) :
      MapResult p q pml4 virt phys flags
        (huge (p.pdSlot virt) && hugeAddr (p.pdSlot virt) == hugeAddr phys)
  | hugeSet (hcpu : beyondCpu p.cpuPhysBits phys = false) (hflags : huge flags = true)
      (hfree : present (p.pdSlot virt) = false)
      (hset : p.Entered q pml4 [idxPml4 virt, idxPdpt virt] (idxPd virt) (hugeEntry phys flags)) :
      MapResult p q pml4 virt phys flags true
  | insideHuge (hcpu : beyondCpu p.cpuPhysBits phys = false) (hflags : huge flags = false)
      (htaken : huge (p.pdSlot virt) = true) (hgrown : p.Grown q pml4 3) :
      MapResult p q pml4 virt phys flags (hugeAddr (p.pdSlot virt) == hugeAddr phys)
  | pageTaken (hcpu : beyondCpu p.cpuPhysBits phys = false) (hflags : huge flags = false)
      (hsmall : huge (p.pdSlot virt) = false) (htaken : present (p.ptSlot virt) = true)
      (hgrown : p.Grown q pml4 3) :
      MapResult p q pml4 virt phys flags (pageAddr (p.ptSlot virt) == pageAddr phys)
  | pageSet (hcpu : beyondCpu p.cpuPhysBits phys = false) (hflags : huge flags = false)
      (hsmall : huge (p.pdSlot virt) = false) (hfree : present (p.ptSlot virt) = false)
      (hset : p.Entered q pml4 [idxPml4 virt, idxPdpt virt, idxPd virt] (idxPt virt)
        (leafEntry phys flags)) :
      MapResult p q pml4 virt phys flags true

section Calls

variable {alloc : Kernel (Option PhysAddr)} {pml4 : PhysAddr} {I : KernelState → Prop}
  {E : Halt → Prop} {N : List Index → Prop} {Lost : Pager → Prop}
  (source : TableSource alloc pml4 I E N Lost)

include source

theorem nextTable_spec {s : KernelState} {a : PhysAddr} {path : List Index} {i : Index}
    (hI : I s) (hlock : .pml4 ∈ s.held) (htree : s.rest.Tree pml4)
    (hpath : follow pageLink s.rest.entries 0 pml4 path = some a) (hlen : path.length < 3)
    (hsmall : path.length = 2 → huge (s.rest.slot path i) = false) (hN : N (path ++ [i])) :
    Sat (nextTable alloc a i) s (fun b t => ¬ Lost t.rest → I t ∧ t.held = s.held ∧
      s.rest.Grown t.rest pml4 (path.length + 1) ∧
      (∀ way, path ++ [i] <+: way → s.rest.SlotsAlong t.rest way) ∧
      follow pageLink t.rest.entries 0 pml4 (path ++ [i]) = some b) E := by
  have hsmall' := hsmall
  rw [htree.slot_eq hpath] at hsmall'
  unfold nextTable
  rw [sat_bind, sat_readEntry]
  refine Sat.ite (fun hpresent => ?_) fun hvacant => ?_
  · exact fun _ => ⟨hI, rfl, .refl htree _, fun way _ => .refl _ way,
      htree.follow_next hpath hlen hpresent hsmall'⟩
  · rw [Bool.not_eq_true] at hvacant
    refine Sat.bind (source.grow s path a i hI hlock htree hpath hlen hvacant hN) fun r t ht => ?_
    cases r with
    | none =>
        rw [sat_bind, sat_writeTable]
        exact ht
    | some b =>
        rw [sat_bind, sat_writeTable, sat_pure]
        intro hkept
        obtain ⟨hnew, hI'⟩ := ht hkept
        have hlink : s.rest.CanLink pml4 path a i b :=
          ⟨htree, hpath, hlen, hvacant, hnew.isPage, hnew.fresh⟩
        refine ⟨hI', hnew.held, ?_⟩
        rw [hnew.rest]
        exact ⟨hlink.grown.setPtr _, fun way hway => hlink.slotsAlong hway hsmall, hlink.linked⟩

theorem mapHuge_spec {s : KernelState} {p : Pager} {pd : PhysAddr} {virt phys flags : BitVec 64}
    (hI : I s) (hgrown : p.Grown s.rest pml4 2)
    (hslots : p.SlotsAlong s.rest (pagePath flags virt)) (hflags : huge flags = true)
    (hcpu : beyondCpu p.cpuPhysBits phys = false)
    (hpd : follow pageLink s.rest.entries 0 pml4 [idxPml4 virt, idxPdpt virt] = some pd) :
    Sat (mapHuge pd virt phys flags) s (fun r t => I t ∧ t.held = s.held.erase .pml4 ∧
      MapResult p t.rest pml4 virt phys flags r ∧
      p.SlotsAlong t.rest (pagePath flags virt)) E := by
  have hslot : s.rest.entries pd (idxPd virt) = p.pdSlot virt := by
    rw [← hgrown.tree.slot_eq hpd, hgrown.slot _ _ (by simp)]
    rfl
  unfold mapHuge
  rw [sat_bind, sat_readEntry, hslot]
  refine Sat.ite (fun hpresent => ?_) fun hvacant => ?_
  · exact ⟨source.locks _ _ hI, rfl, .hugeTaken hcpu hflags hpresent (hgrown.weaken (by decide)),
      hslots⟩
  · rw [Bool.not_eq_true] at hvacant
    have hwrite : s.rest.CanWrite pml4 [idxPml4 virt, idxPdpt virt] pd (hugeEntry phys flags) := by
      refine ⟨hgrown.tree, hpd, ?_, fun _ => ?_⟩
      · simp [pageLink, hflags]
      · exact bitsWithin_hugeEntry flags (bitsWithin_of_not_beyond p.cpuPhysBits_le hcpu)
    have hold : pageLink [idxPml4 virt, idxPdpt virt].length
        (s.rest.entries pd (idxPd virt)) = none := by
      rw [hslot]
      exact pageLink_none_of_not_present hvacant
    refine ⟨source.locks _ _ (source.write s _ _ _ _ hI hwrite hold), rfl,
      .hugeSet hcpu hflags hvacant ⟨s.rest, pd, hgrown.weaken (by decide), hwrite, rfl⟩,
      hslots.trans (hwrite.slotsAlong hold ?_)⟩
    simp [pagePath, hflags, walkPath]

theorem mapPage_spec {s : KernelState} {p : Pager} {pd : PhysAddr} {virt phys flags : BitVec 64}
    (hI : I s) (hlock : .pml4 ∈ s.held) (hgrown : p.Grown s.rest pml4 2)
    (hslots : p.SlotsAlong s.rest (pagePath flags virt)) (hflags : huge flags = false)
    (hcpu : beyondCpu p.cpuPhysBits phys = false)
    (hpd : follow pageLink s.rest.entries 0 pml4 [idxPml4 virt, idxPdpt virt] = some pd)
    (hN : N [idxPml4 virt, idxPdpt virt, idxPd virt]) :
    Sat (mapPage alloc pd virt phys flags) s (fun r t => ¬ Lost t.rest → I t ∧ t.held = s.held.erase .pml4 ∧
      MapResult p t.rest pml4 virt phys flags r ∧
      p.SlotsAlong t.rest (pagePath flags virt)) E := by
  have hslot : s.rest.slot [idxPml4 virt, idxPdpt virt] (idxPd virt) = p.pdSlot virt :=
    hgrown.slot _ _ (by simp)
  unfold mapPage
  rw [sat_bind, sat_readEntry, ← hgrown.tree.slot_eq hpd, hslot]
  refine Sat.ite (fun hhuge => ?_) fun hnot => ?_
  · exact fun _ => ⟨source.locks _ _ hI, rfl, .insideHuge hcpu hflags hhuge (hgrown.weaken (by decide)),
      hslots⟩
  · have hsmall : huge (p.pdSlot virt) = false := by simpa using hnot
    refine bind_kept (nextTable_spec source hI hlock hgrown.tree hpd (by simp) (fun _ => ?_) hN)
      (fun pt => ?_) fun pt t ht => ?_
    · rw [hslot, hsmall]
    · exact .bind (readEntry_maintains _ _) fun old =>
        .ite (.bind source.parts.unlock fun _ => .pure _)
          (.bind (source.parts.write _ _ _) fun _ => .bind source.parts.unlock fun _ => .pure _)
    · obtain ⟨hI', hheld, hmore, hway, hpt⟩ := ht
      have hgrown' : p.Grown t.rest pml4 3 := hgrown.trans hmore (by simp)
      have hslots' : p.SlotsAlong t.rest (pagePath flags virt) :=
        hslots.trans (hway _ (by simp [pagePath, hflags, walkPath]))
      have hpt' : t.rest.entries pt (idxPt virt) = p.ptSlot virt := by
        rw [← hgrown'.tree.slot_eq hpt, hgrown'.slot _ _ (by simp)]
        rfl
      rw [sat_bind, sat_readEntry, hpt']
      refine Sat.ite (fun hpresent => ?_) fun hvacant => ?_
      · exact fun _ => ⟨source.locks _ _ hI', by simp [hheld],
          .pageTaken hcpu hflags hsmall hpresent hgrown', hslots'⟩
      · rw [Bool.not_eq_true] at hvacant
        have hwrite : t.rest.CanWrite pml4 [idxPml4 virt, idxPdpt virt, idxPd virt] pt
            (leafEntry phys flags) := by
          refine ⟨hgrown'.tree, hpt, by simp [pageLink], fun _ => ?_⟩
          exact bitsWithin_leafEntry flags (bitsWithin_of_not_beyond p.cpuPhysBits_le hcpu)
        have hold : pageLink [idxPml4 virt, idxPdpt virt, idxPd virt].length
            (t.rest.entries pt (idxPt virt)) = none := by
          rw [hpt']
          exact pageLink_none_of_not_present hvacant
        refine fun _ => ⟨source.locks _ _ (source.write t _ _ _ _ hI' hwrite hold), by simp [hheld],
          .pageSet hcpu hflags hsmall hvacant ⟨t.rest, pt, hgrown', hwrite, rfl⟩,
          hslots'.trans (hwrite.slotsAlong hold ?_)⟩
        simp [pagePath, hflags, walkPath]

-- pager_map ends in one of its results, with the locks as they were.
theorem pagerMap_result {s : KernelState} {virt phys flags : BitVec 64} (hI : I s)
    (htree : s.rest.Tree pml4) (hlock : .pml4 ∈ s.held → E (.deadlock .pml4))
    (hN : ∀ path, path ≠ [] → path <+: pagePath flags virt → path ≠ pagePath flags virt →
      N path) :
    Sat (pagerMap alloc virt phys flags) s (fun r t => ¬ Lost t.rest → I t ∧ t.held = s.held ∧
      MapResult s.rest t.rest pml4 virt phys flags r ∧
      s.rest.SlotsAlong t.rest (pagePath flags virt)) E := by
  unfold pagerMap
  rw [sat_bind, sat_get]
  refine Sat.ite (fun hbeyond _ => ⟨hI, rfl, .beyond hbeyond rfl, .refl _ _⟩) fun hcpu => ?_
  have hcpu' : beyondCpu s.rest.cpuPhysBits phys = false := by simpa using hcpu
  rw [htree.table]
  dsimp only
  rw [sat_bind, sat_spinLock]
  refine ⟨hlock, fun _ => ?_⟩
  have hlen : 3 ≤ (pagePath flags virt).length := by
    unfold pagePath walkPath
    split <;> simp
  have hway4 : [idxPml4 virt] <+: pagePath flags virt := by
    unfold pagePath walkPath
    split <;> simp
  have hway3 : [idxPml4 virt, idxPdpt virt] <+: pagePath flags virt := by
    unfold pagePath walkPath
    split <;> simp
  have hproper {path : List Index} (hshort : path.length < 3) : path ≠ pagePath flags virt := by
    rintro rfl
    omega
  have hbelow (pd : PhysAddr) := mapBelow_maintains source.parts source.lost pd virt phys flags
  refine bind_kept (nextTable_spec source (source.locks _ _ hI) List.mem_cons_self htree
    (follow_nil ..) (by simp) (by simp) (hN _ (by simp) hway4 (hproper (by simp))))
    (fun _ => .bind (nextTable_maintains source.parts source.lost _ _) hbelow) fun pdpt t ht => ?_
  obtain ⟨hI₁, hheld, hgrown, hslots, hpdpt⟩ := ht
  refine bind_kept (nextTable_spec source hI₁ (hheld ▸ List.mem_cons_self) hgrown.tree hpdpt
    (by simp) (by simp) (hN _ (by simp) hway3 (hproper (by simp)))) hbelow fun pd u hu => ?_
  obtain ⟨hI₂, hheld', hgrown', hslots', hpd⟩ := hu
  have hall : s.rest.Grown u.rest pml4 2 := hgrown.trans hgrown' (by simp)
  have halong : s.rest.SlotsAlong u.rest (pagePath flags virt) :=
    (hslots _ hway4).trans (hslots' _ hway3)
  have herase : u.held.erase .pml4 = s.held := by
    rw [hheld', hheld]
    simp
  refine Sat.ite (fun hflags => ?_) fun hflags => ?_
  · refine (mapHuge_spec source hI₂ hall halong hflags hcpu' hpd).imp fun r v hv _ => ?_
    exact ⟨hv.1, hv.2.1.trans herase, hv.2.2⟩
  · rw [Bool.not_eq_true] at hflags
    have hlocked : .pml4 ∈ u.held := by
      rw [hheld', hheld]
      exact List.mem_cons_self
    refine (mapPage_spec source hI₂ hlocked hall halong hflags hcpu' hpd ?_).imp
      fun r v hv hkept => ?_
    · exact hN _ (by simp) (by simp [pagePath, hflags, walkPath]) (by simp [pagePath, hflags, walkPath])
    · have hv := hv hkept
      exact ⟨hv.1, hv.2.1.trans herase, hv.2.2⟩

end Calls

theorem pagerMap_spec {alloc : Kernel (Option PhysAddr)} (halloc : FreshTables alloc)
    {s : KernelState} {pml4 : PhysAddr} (virt phys flags : BitVec 64) (htree : s.rest.Tree pml4) :
    Sat (pagerMap alloc virt phys flags) s (fun r t => t.held = s.held ∧
      MapResult s.rest t.rest pml4 virt phys flags r) fun _ => True :=
  (pagerMap_result (halloc.source pml4) trivial htree (fun _ => trivial) fun _ _ _ _ =>
    trivial).imp fun _ _ h => ⟨(h nofun).2.1, (h nofun).2.2.1⟩

-- Everything pager_unmap can do.
inductive UnmapResult (p q : Pager) (pml4 : PhysAddr) (virt : BitVec 64) : Prop
  | nothing (hq : q = p)
  | hugeCleared (hhuge : huge (p.pdSlot virt) = true)
      (hset : p.Entered q pml4 [idxPml4 virt, idxPdpt virt] (idxPd virt)
        (p.pdSlot virt &&& ~~~ PAGE_PRESENT))
  | pageCleared (hsmall : huge (p.pdSlot virt) = false)
      (hset : p.Entered q pml4 [idxPml4 virt, idxPdpt virt, idxPd virt] (idxPt virt)
        (p.ptSlot virt &&& ~~~ PAGE_PRESENT))

theorem Pager.Tree.entered_notPresent {p : Pager} {pml4 a : PhysAddr} {path : List Index}
    (htree : p.Tree pml4) (hpath : follow pageLink p.entries 0 pml4 path = some a) (i : Index)
    (e : PageEntry) :
    p.Entered (p.write a i (e &&& ~~~ PAGE_PRESENT)) pml4 path i (e &&& ~~~ PAGE_PRESENT) := by
  have habsent := present_notPresent e
  refine ⟨p, a, .refl htree 3, ⟨htree, hpath, pageLink_none_of_not_present habsent, ?_⟩, rfl⟩
  intro hpresent
  rw [habsent] at hpresent
  cases hpresent

theorem unmapFrom_spec {s : KernelState} {pml4 : PhysAddr} (virt : BitVec 64)
    (htree : s.rest.Tree pml4) :
    Sat (unmapFrom pml4 virt) s (fun _ t => t.held = s.held ∧ t.avmf = s.avmf ∧
      UnmapResult s.rest t.rest pml4 virt) fun _ => True := by
  unfold unmapFrom
  rw [sat_bind, sat_readEntry]
  refine Sat.ite (fun h4 => ?_) fun _ => ⟨rfl, rfl, .nothing rfl⟩
  have hpdpt := htree.follow_next (follow_nil ..) (by simp) h4 (by simp)
  rw [sat_bind, sat_readEntry]
  refine Sat.ite (fun h3 => ?_) fun _ => ⟨rfl, rfl, .nothing rfl⟩
  have hpd := htree.follow_next hpdpt (by simp) h3 (by simp)
  have hslot := htree.slot_eq hpd (idxPd virt)
  rw [sat_bind, sat_readEntry, ← hslot]
  refine Sat.ite (fun hhuge => ?_) fun hnot => ?_
  · exact ⟨rfl, rfl, .hugeCleared hhuge (htree.entered_notPresent hpd _ _)⟩
  · refine Sat.ite (fun h2 => ?_) fun _ => ⟨rfl, rfl, .nothing rfl⟩
    rw [Bool.not_eq_true] at hnot
    have hsmall : huge (s.rest.pdSlot virt) = false := hnot
    rw [hslot] at h2 hnot
    have hpt := htree.follow_next hpd (by simp) h2 fun _ => hnot
    rw [sat_bind, sat_readEntry, hslot, ← htree.slot_eq hpt]
    exact ⟨rfl, rfl, .pageCleared hsmall (htree.entered_notPresent hpt _ _)⟩

theorem pagerUnmap_spec {s : KernelState} {pml4 : PhysAddr} (virt : BitVec 64)
    (htree : s.rest.Tree pml4) :
    Sat (pagerUnmap virt) s (fun _ t => t.held = s.held ∧ t.avmf = s.avmf ∧
      UnmapResult s.rest t.rest pml4 virt) fun _ => True := by
  unfold pagerUnmap
  rw [sat_bind, sat_get]
  refine Sat.ite (fun _ => ?_) fun _ => ⟨rfl, rfl, .nothing rfl⟩
  rw [htree.table, sat_bind, sat_spinLock]
  refine ⟨fun _ => trivial, fun _ => ?_⟩
  rw [sat_bind]
  have hbody := unmapFrom_spec (s := { s with held := .pml4 :: s.held }) virt htree
  refine hbody.imp fun _ t ht => ?_
  obtain ⟨hheld, havmf, hresult⟩ := ht
  exact ⟨by simp [hheld], havmf, hresult⟩

end AosKernel.Mm
