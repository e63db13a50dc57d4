import AosKernel.Mm.PagerKeeps
import AosKernel.Mm.PagerTranslation

namespace AosKernel.Mm

open Verif Verif.Exec

-- Writes are only ever added to the history, and page 0 does not become a table.
structure History (p q : Pager) : Prop where
  writes : p.writes <:+ q.writes
  zero : 0 ∉ p.tables → 0 ∉ q.tables

instance : IsPreorder Pager History where
  refl _ := ⟨List.suffix_refl _, id⟩
  trans _ _ _ h h' := ⟨h.writes.trans h'.writes, fun hp => h'.zero (h.zero hp)⟩

theorem modifyPager_keeps {R : Pager → Pager → Prop} {f : Pager → Pager} (h : ∀ p, R p (f p)) :
    Keeps (OnRest R) (modifyPager f) :=
  .modify fun s => h s.rest

theorem history_of_write {p q : Pager} {w : TableWrite} (hwrites : q.writes = w :: p.writes)
    (htables : q.tables = p.tables) : History p q :=
  ⟨hwrites ▸ List.suffix_cons w _, htables ▸ id⟩

theorem writeEntry_history (a : PhysAddr) (i : Index) (e : PageEntry) :
    Keeps (OnRest History) (writeEntry a i e) :=
  modifyPager_keeps fun _ => history_of_write rfl rfl

theorem writeTable_history (a : PhysAddr) (i : Index) (b : PhysAddr) :
    Keeps (OnRest History) (writeTable a i b) :=
  modifyPager_keeps fun _ => history_of_write rfl rfl

theorem zeroTable_history (a : PhysAddr) : Keeps (OnRest History) (zeroTable a) :=
  modifyPager_keeps fun _ => history_of_write rfl rfl

theorem takeTable_history {a : PhysAddr} (h : a ≠ 0) : Keeps (OnRest History) (takeTable a) := by
  refine modifyPager_keeps fun p => ⟨List.suffix_refl _, fun hp => ?_⟩
  rw [List.mem_cons, not_or]
  exact ⟨h.symm, hp⟩

theorem pagerSteps_history : PagerSteps (OnRest History) :=
  ⟨spinLock_keeps _, spinUnlock_keeps _, writeEntry_history, writeTable_history⟩

theorem takeTablePage_history : Keeps (OnRest History) takeTablePage := by
  unfold takeTablePage
  refine .bind (avmfAllocPhysContiguous_keeps _) fun phys => ?_
  dsimp only
  split
  · exact .bind (takeTable_history ‹_›) fun _ => .pure _
  · exact .pure _

theorem allocPageTable_history {sv : Services Pager} (h : sv.Keeps (OnRest History)) :
    Keeps (OnRest History) (allocPageTable sv) := by
  unfold allocPageTable
  refine .get_bind fun s => .ite ?_ (.ite (.pure _) ?_)
  · refine .bind takeTablePage_history fun phys => .bind (avmfAllocVirt_keeps h _ _) fun virt => ?_
    exact .ite (.pure _) (.bind (zeroTable_history _) fun _ => .pure _)
  · refine .bind (modifyPager_keeps fun _ => ⟨List.suffix_refl _, id⟩) fun _ => ?_
    split
    · exact .pure _
    · exact .bind (takeTable_history ‹_›) fun _ => .bind (zeroTable_history _) fun _ => .pure _

theorem pagerServices_history (depth : Nat) : (pagerServices depth).Keeps (OnRest History) :=
  pagerServices_keeps pagerSteps_history (fun _ h => allocPageTable_history h) depth

-- The ways in which alloc_page_table cannot get a page-table page.
inductive NoTable (sv : Services Pager) (s : KernelState) : Prop
  | noPage {t} (hready : s.rest.ready = true) (h : Returns takeTablePage s 0 t)
  | noVirt {phys t u} (hready : s.rest.ready = true) (h : Returns takeTablePage s phys t)
      (h' : Returns (avmfAllocVirt sv PAGE_SIZE .sensitive) t 0 u)
  | poolEmpty (hready : s.rest.ready = false)
      (h : s.rest.firstPagemapsEnd < s.rest.firstPagemaps + s.rest.firstPagemapsPtr + PAGE_SIZE)

-- It then returns NULL, or physical page 0.
theorem NoTable.sat {sv : Services Pager} {s : KernelState} (h : NoTable sv s) :
    Sat (allocPageTable sv) s (fun r _ => r = none ∨ r = some 0) fun _ => True := by
  unfold allocPageTable
  rw [sat_bind, sat_get]
  cases h with
  | noPage hready hpage =>
      rw [if_pos hready, sat_bind]
      refine hpage.sat ?_
      rw [sat_bind]
      refine sat_of_forall_returns fun virt u _ => Sat.ite (fun _ => .inl rfl) fun _ => .inr rfl
  | noVirt hready hpage hvirt =>
      rw [if_pos hready, sat_bind]
      refine hpage.sat ?_
      rw [sat_bind]
      refine hvirt.sat ?_
      exact .inl rfl
  | poolEmpty hready hpool =>
      rw [if_neg (by simp [hready]), if_pos hpool]
      exact .inl rfl

-- A level of pager_map, run with the lock held, at which it cannot get a page.
inductive FailsAt (sv : Services Pager) (s : KernelState) (pml4 : PhysAddr)
    (virt flags : BitVec 64) : Prop
  | pdpt (hslot : present (s.rest.entries pml4 (idxPml4 virt)) = false) (h : NoTable sv s)
  | pd {pdpt t} (hpdpt : Returns (nextTable (allocPageTable sv) pml4 (idxPml4 virt)) s pdpt t)
      (hslot : present (t.rest.entries pdpt (idxPdpt virt)) = false) (h : NoTable sv t)
  | pt {pdpt t pd u} (hpdpt : Returns (nextTable (allocPageTable sv) pml4 (idxPml4 virt)) s pdpt t)
      (hpd : Returns (nextTable (allocPageTable sv) pdpt (idxPdpt virt)) t pd u)
      (hflags : huge flags = false) (hsmall : huge (u.rest.entries pd (idxPd virt)) = false)
      (hslot : present (u.rest.entries pd (idxPd virt)) = false) (h : NoTable sv u)

-- The writes of pager.c between two states.
def Pager.writesSince (p q : Pager) : List TableWrite :=
  q.writes.take (q.writes.length - p.writes.length)

-- A call of pager_map that fails as a whole.
structure Atomic (p q : Pager) (r : Bool) : Prop where
  null : r = false
  translation : ∀ virt, q.translate virt = p.translate virt
  links : ∀ a i b, TableWrite.link a i b ∈ p.writesSince q → b ∈ q.tables
  pages : ∀ w ∈ p.writesSince q, w.page ∈ q.tables

-- An entry for page 0 was written after `p` had been left.
def LinkedZero (p q : Pager) : Prop :=
  ∃ a i l, p.writes <:+ l ∧ .link a i 0 :: l <:+ q.writes

theorem LinkedZero.mono {p p' q q' : Pager} (h : LinkedZero p q) (hp : History p' p)
    (hq : History q q') : LinkedZero p' q' := by
  obtain ⟨a, i, l, hl, hlink⟩ := h
  exact ⟨a, i, l, hp.writes.trans hl, hlink.trans hq.writes⟩

theorem LinkedZero.mem_writesSince {p q : Pager} (h : LinkedZero p q) :
    ∃ a i, TableWrite.link a i 0 ∈ p.writesSince q := by
  obtain ⟨a, i, l, ⟨old, hl⟩, later, hlink⟩ := h
  refine ⟨a, i, ?_⟩
  have hsplit : q.writes = (later ++ .link a i 0 :: old) ++ p.writes := by
    rw [← hlink, ← hl]
    simp
  rw [Pager.writesSince, hsplit, List.length_append, Nat.add_sub_cancel, List.take_left]
  simp

-- Where no page can be had, the entry is written for page 0.
theorem nextTable_linkedZero {sv : Services Pager} (hsv : sv.Keeps (OnRest History))
    {s : KernelState} {a : PhysAddr} {i : Index} (hslot : present (s.rest.entries a i) = false)
    (h : NoTable sv s) :
    Sat (nextTable (allocPageTable sv) a i) s (fun _ t => LinkedZero s.rest t.rest ∧
      History s.rest t.rest) fun _ => True := by
  unfold nextTable
  rw [sat_bind, sat_readEntry, hslot]
  have halloc := h.sat.and (allocPageTable_history hsv s)
  refine Sat.bind halloc fun r t ht => ?_
  obtain ⟨rfl | rfl, hhistory⟩ := ht
  · trivial
  · exact ⟨⟨a, i, t.rest.writes, hhistory.writes, List.suffix_refl _⟩,
      IsTrans.trans (r := History) _ _ _ hhistory (history_of_write rfl rfl)⟩

theorem Sat.then_history {α β : Type} {m : Kernel α} {f : α → Kernel β} {s : KernelState}
    {p : Pager} (hm : Sat m s (fun _ t => LinkedZero p t.rest ∧ History p t.rest) fun _ => True)
    (hf : ∀ a, Keeps (OnRest History) (f a)) :
    Sat (m >>= f) s (fun _ t => LinkedZero p t.rest ∧ History p t.rest) fun _ => True :=
  Sat.bind hm fun a t ht => (hf a t).imp fun _ _ hu =>
    ⟨ht.1.mono (Std.Refl.refl (r := History) p) hu, IsTrans.trans (r := History) _ _ _ ht.2 hu⟩

-- The same from a state in which more has been written.
theorem Sat.from_history {α : Type} {m : Kernel α} {s : KernelState} {p : Pager}
    (hp : History p s.rest)
    (hm : Sat m s (fun _ t => LinkedZero s.rest t.rest ∧ History s.rest t.rest) fun _ => True) :
    Sat m s (fun _ t => LinkedZero p t.rest ∧ History p t.rest) fun _ => True :=
  hm.imp fun _ _ ht => ⟨ht.1.mono hp (Std.Refl.refl (r := History) _),
    IsTrans.trans (r := History) _ _ _ hp ht.2⟩

theorem pagerMap_linkedZero {sv : Services Pager} (hsv : sv.Keeps (OnRest History))
    {s : KernelState} {pml4 : PhysAddr} {virt phys flags : BitVec 64}
    (htable : s.rest.table = some pml4) (hcpu : beyondCpu s.rest.cpuPhysBits phys = false)
    (hfails : FailsAt sv { s with held := .pml4 :: s.held } pml4 virt flags) :
    Sat (pagerMap (allocPageTable sv) virt phys flags) s (fun _ t =>
      LinkedZero s.rest t.rest ∧ History s.rest t.rest) fun _ => True := by
  have halloc := allocPageTable_history hsv
  unfold pagerMap
  rw [sat_bind, sat_get, hcpu, htable]
  refine (sat_bind _ _ _ _ _).mpr ((sat_spinLock _ _ _ _).mpr ⟨fun _ => trivial, fun _ => ?_⟩)
  cases hfails with
  | pdpt hslot h =>
      refine Sat.then_history (nextTable_linkedZero hsv hslot h) fun pdpt => ?_
      exact .bind (nextTable_keeps pagerSteps_history halloc _ _) fun pd => mapBelow_keeps pagerSteps_history halloc _ _ _ _
  | pd hpdpt hslot h =>
      have hhistory := (nextTable_keeps pagerSteps_history halloc _ _).returns hpdpt
      refine (sat_bind _ _ _ _ _).mpr (hpdpt.sat ?_)
      refine Sat.then_history (Sat.from_history hhistory (nextTable_linkedZero hsv hslot h))
        fun pd => mapBelow_keeps pagerSteps_history halloc _ _ _ _
  | pt hpdpt hpd hflags hsmall hslot h =>
      have hhistory := IsTrans.trans (r := OnRest History) _ _ _
        ((nextTable_keeps pagerSteps_history halloc _ _).returns hpdpt) ((nextTable_keeps pagerSteps_history halloc _ _).returns hpd)
      refine (sat_bind _ _ _ _ _).mpr (hpdpt.sat ((sat_bind _ _ _ _ _).mpr (hpd.sat ?_)))
      rw [hflags, if_neg (by decide)]
      unfold mapPage
      rw [sat_bind, sat_readEntry, hsmall, if_neg (by decide)]
      refine Sat.then_history (Sat.from_history hhistory (nextTable_linkedZero hsv hslot h))
        fun pt => .bind (readEntry_keeps _ _) fun old => ?_
      refine .ite (.bind (spinUnlock_keeps _) fun _ => .pure _) ?_
      exact .bind (writeEntry_history _ _ _) fun _ => .bind (spinUnlock_keeps _) fun _ => .pure _

-- At whichever level the page is missing, pager_map does not fail as a whole:
-- it returns with an entry for page 0 linked, or does not return.
theorem pagerMap_failure_not_atomic (depth : Nat) {s : KernelState} {pml4 : PhysAddr}
    {virt phys flags : BitVec 64} (htable : s.rest.table = some pml4) (hzero : 0 ∉ s.rest.tables)
    (hcpu : beyondCpu s.rest.cpuPhysBits phys = false)
    (hfails : FailsAt (pagerServices depth) { s with held := .pml4 :: s.held } pml4 virt flags) :
    ¬ ∃ r t, Returns (pagerMap (allocPageTable (pagerServices depth)) virt phys flags) s r t ∧
      Atomic s.rest t.rest r := by
  rintro ⟨r, t, hcall, hatomic⟩
  have hsat := pagerMap_linkedZero (pagerServices_history depth) htable hcpu hfails
  obtain ⟨hlinked, hhistory⟩ := hsat.of_returns hcall
  obtain ⟨a, i, hmem⟩ := hlinked.mem_writesSince
  exact hhistory.zero hzero (hatomic.links a i 0 hmem)

-- The only page of memory holds list headers.
def exhaustedMachine : KernelState :=
  { freshMachine with avmf := { avmfInit [(0x2000000, 0x2001000)] with
      bitmap := bitmapSet (fun _ => 0) 0x2000
      ihdr := ⟨AOS_DIRECT_MAP_BASE + 0x2000000, PAGE_SIZE - 72⟩ } }

theorem exhaustedMachine_failsAt :
    FailsAt (pagerServices 1) { exhaustedMachine with held := [.pml4] } 0x1000 0x400000 PAGE_RW := by
  obtain ⟨t, ht⟩ := returns_of_value (m := takeTablePage)
    (s := { exhaustedMachine with held := [.pml4] }) (a := 0) rfl
  exact .pdpt rfl (.noPage rfl ht)

theorem pagerMap_failure_not_atomic_exhausted :
    ¬ ∃ r t, Returns (pagerMap (allocPageTable (pagerServices 1)) 0x400000 0x80000000 PAGE_RW)
      exhaustedMachine r t ∧ Atomic exhaustedMachine.rest t.rest r :=
  pagerMap_failure_not_atomic 1 rfl (by decide) (by decide) exhaustedMachine_failsAt

-- No table can be had at any level, and pager_map reports success.
theorem pagerMap_failure_succeeds :
    ∃ t, FailsAt (pagerServices 1) { exhaustedMachine with held := [.pml4] } 0x1000 0x400000
        PAGE_RW ∧
      Returns (pagerMap (allocPageTable (pagerServices 1)) 0x400000 0x80000000 PAGE_RW)
        exhaustedMachine true t ∧ ¬ Atomic exhaustedMachine.rest t.rest true := by
  obtain ⟨t, ht⟩ := returns_of_value
    (m := pagerMap (allocPageTable (pagerServices 1)) 0x400000 0x80000000 PAGE_RW)
    (s := exhaustedMachine) (a := true) (by decide +kernel)
  exact ⟨t, exhaustedMachine_failsAt, ht, fun hatomic => nomatch hatomic.null⟩

end AosKernel.Mm
