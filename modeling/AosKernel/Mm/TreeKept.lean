import AosKernel.Mm.TableGrowth

namespace AosKernel.Mm

open Verif Verif.Exec Verif.Span Verif.Radix

-- alloc_page_table has had no page left: the table at page 0 was linked.
def Pager.ZeroLinked (p : Pager) : Prop := ∃ a i, TableWrite.link a i 0 ∈ p.writes

def TableWrite.linksZero : TableWrite → Bool
  | .link _ _ target => target == 0
  | _ => false

theorem Pager.zeroLinked_iff (p : Pager) : p.ZeroLinked ↔ p.writes.any TableWrite.linksZero = true := by
  rw [List.any_eq_true]
  constructor
  · rintro ⟨a, i, hmem⟩
    exact ⟨_, hmem, rfl⟩
  · rintro ⟨w, hmem, hzero⟩
    cases w with
    | link a i target =>
        obtain rfl : target = 0 := by simpa [TableWrite.linksZero] using hzero
        exact ⟨a, i, hmem⟩
    | zero | leaf => cases hzero

instance (p : Pager) : Decidable p.ZeroLinked := decidable_of_iff' _ p.zeroLinked_iff

theorem History.zeroLinked {p q : Pager} (h : History p q) (hp : p.ZeroLinked) : q.ZeroLinked := by
  obtain ⟨a, i, hmem⟩ := hp
  exact ⟨a, i, h.writes.subset hmem⟩

-- Page tables that stand in the memory of the allocator are marked there.
structure TablesMarked (s : KernelState) : Prop where
  ready : s.rest.ready = true
  fits : ∀ b ∈ bounds s.avmf, b.2 ≤ 2 ^ 52
  tables : ∀ a ∈ s.rest.tables, PhysPage s.avmf (a.toNat / PAGE_SIZE) →
    s.avmf.marked (a.toNat / PAGE_SIZE) = true

theorem TablesMarked.grow {s t : KernelState} (h : TablesMarked s) (hst : MarksGrow s t) :
    TablesMarked t := by
  refine ⟨hst.ready.trans h.ready, hst.bounds ▸ h.fits, fun a ha hin => ?_⟩
  rcases hst.tables h.ready h.fits a ha with hold | ⟨-, -, htaken⟩
  · exact hst.marked _ (h.tables a hold ((PhysPage.congr hst.bounds).mp hin))
  · exact htaken

theorem takeTablePage_spec (s : KernelState) :
    Sat takeTablePage s (fun b t => ∃ phys u, PagesTaken PAGE_SIZE phys s u ∧
      b = BitVec.ofNat 64 phys ∧ t.held = s.held ∧ t.avmf = u.avmf ∧
      (b ≠ 0 → t.rest = { s.rest with tables := b :: s.rest.tables })) fun _ => True := by
  unfold takeTablePage
  rw [sat_bind]
  refine (avmfAllocPhysContiguous_spec s PAGE_SIZE).imp fun phys u hu => ?_
  refine Sat.ite (fun _ => ?_) fun hzero => ?_
  · refine ⟨phys, u, hu, rfl, hu.held, rfl, fun _ => ?_⟩
    change { u.rest with tables := BitVec.ofNat 64 phys :: u.rest.tables } = _
    rw [hu.rest]
  · exact ⟨phys, u, hu, rfl, hu.held, rfl, fun hne => absurd hne hzero⟩

theorem isPage_ofNat {phys : Nat} (haligned : PAGE_SIZE ∣ phys) (hlt : phys < 2 ^ 52) :
    IsPage (BitVec.ofNat 64 phys) := by
  have hnat : (BitVec.ofNat 64 phys).toNat = phys := by
    rw [BitVec.toNat_ofNat, Nat.mod_eq_of_lt (by omega)]
  refine (bitsWithin_of_mod ?_).inter (bitsWithin_of_not_beyond (Nat.le_refl 52)
    (not_beyond_of_lt (Nat.le_refl 52) (by rwa [hnat])))
  rw [hnat]
  exact Nat.mod_eq_zero_of_dvd haligned

-- With the lock of the page tables held, a page that is handed out for a table
-- is a new one.
theorem allocPageTable_new (depth : Nat) {s : KernelState} (h : TablesMarked s)
    (hlock : .pml4 ∈ s.held) :
    Sat (allocPageTable (pagerServices depth)) s
      (fun r t => ∀ b, r = some b → b ≠ 0 → NewTable s t b) fun _ => True := by
  unfold allocPageTable
  rw [sat_bind, sat_get, if_pos h.ready]
  refine Sat.bind (takeTablePage_spec s) fun b t ht => ?_
  obtain ⟨phys, u, hu, hb, hheld, -, htables⟩ := ht
  have hlock' : .pml4 ∈ t.held := hheld ▸ hlock
  refine Sat.bind ((avmfAllocVirt_frozen depth PAGE_SIZE .sensitive t).and
    ((avmfAllocVirt_locks (pagerServices_locks depth) PAGE_SIZE .sensitive).keeps t))
    fun virt v hv => ?_
  obtain ⟨hfrozen, hsame⟩ := hv
  refine Sat.ite (fun _ => nofun) fun _ => ?_
  rintro _ ⟨⟩ hne
  have hphys : phys ≠ 0 := by
    rintro rfl
    exact hne hb
  have hlt : phys < 2 ^ 52 := hu.lt (by decide) fun r hr => h.fits _ (List.mem_map_of_mem hr)
  refine ⟨fun hmem => ?_, hb ▸ isPage_ofNat hu.aligned hlt, Eq.trans hsame hheld, ?_⟩
  · have hnat : b.toNat = phys := by
      rw [hb, BitVec.toNat_ofNat, Nat.mod_eq_of_lt (by omega)]
    have hmarked := h.tables b hmem (hnat ▸ hu.inside hphys)
    rw [hnat, hu.free hphys _ (by simp [Mem, pagesOf, PAGE_SIZE])] at hmarked
    cases hmarked
  · have hrest := (hfrozen hlock').2.trans (htables hne)
    change v.rest.zero b = { s.rest.newTable b with firstPagemapsPtr := v.rest.firstPagemapsPtr }
    rw [hrest]
    rfl

theorem PagerSteps.parts_of_mono {R : KernelState → KernelState → Prop}
    {P : KernelState → Prop} (hR : PagerSteps R) (hP : ∀ s t, R s t → P s → P t) :
    PagerParts P fun _ => True where
  lock s hs := (hR.lock s).imp fun _ t ht => hP s t ht hs
  unlock s hs := (hR.unlock s).imp fun _ t ht => hP s t ht hs
  write a i e s hs := (hR.write a i e s).imp fun _ t ht => hP s t ht hs
  link a i b s hs := (hR.link a i b s).imp fun _ t ht => hP s t ht hs
  null _ _ := trivial

theorem allocPageTable_source (depth : Nat) {start : KernelState} (h : TablesMarked start)
    (pml4 : PhysAddr) :
    TableSource (allocPageTable (pagerServices depth)) pml4 (MarksGrow start) (fun _ => True)
      (fun _ => True) Pager.ZeroLinked where
  locks s held hs := hs.trans (.of_rest rfl rfl fun _ h => h)
  grow s path a i hs hlock _ _ _ _ _ := by
    refine ((allocPageTable_marks (pagerServices_marks depth).pagerMap s).and
      (allocPageTable_new depth (h.grow hs) hlock)).imp fun r t ht => ?_
    cases r with
    | none => trivial
    | some b =>
        intro hkept
        refine ⟨ht.2 b rfl ?_, (hs.trans ht.1).trans ?_⟩
        · rintro rfl
          exact hkept ⟨a, i, List.mem_cons_self⟩
        · exact pagerSteps_marks.link a i b t
  write s _ a i e hs _ _ := hs.trans (pagerSteps_marks.write a i e s)
  parts := pagerSteps_history.parts_of_mono fun _ _ hst hs => hst.zeroLinked hs
  lost s hs := (allocPageTable_history (pagerServices_history depth) s).imp fun _ _ ht =>
    ht.zeroLinked hs

-- Tables that form a tree go on doing so, unless page 0 becomes one of them.
structure TreeMoves (pml4 : PhysAddr) (s t : KernelState) : Prop where
  grow : MarksGrow s t
  history : History s.rest t.rest
  tree : TablesMarked s → ¬ t.rest.ZeroLinked → s.rest.Tree pml4 → t.rest.Tree pml4

variable {pml4 : PhysAddr}

instance : IsPreorder KernelState (TreeMoves pml4) where
  refl s := ⟨.refl s, Std.Refl.refl (r := History) _, fun _ _ h => h⟩
  trans _ _ _ h h' := ⟨h.grow.trans h'.grow, IsTrans.trans (r := History) _ _ _ h.history h'.history,
    fun hmarked hkept htree => h'.tree (hmarked.grow h.grow) hkept
      (h.tree hmarked (fun hzero => hkept (h'.history.zeroLinked hzero)) htree)⟩

theorem TreeMoves.of_rest {s t : KernelState} (h : MarksGrow s t) (hrest : t.rest = s.rest) :
    TreeMoves pml4 s t := by
  refine ⟨h, ?_, fun _ _ htree => hrest ▸ htree⟩
  rw [hrest]
  exact Std.Refl.refl (r := History) _

theorem TreeMoves.trans {s t u : KernelState} (h : TreeMoves pml4 s t) (h' : TreeMoves pml4 t u) :
    TreeMoves pml4 s u :=
  IsTrans.trans s t u h h'

theorem pagerMap_tree (depth : Nat) (virt phys flags : BitVec 64) :
    Keeps (TreeMoves pml4) (pagerMap (allocPageTable (pagerServices depth)) virt phys flags) := by
  have hmarks := pagerMap_keeps pagerSteps_marks
    (allocPageTable_marks (pagerServices_marks depth).pagerMap) virt phys flags
  have hhistory := pagerMap_keeps pagerSteps_history
    (allocPageTable_history (pagerServices_history depth)) virt phys flags
  refine fun s => sat_of_forall_returns fun r t hret =>
    ⟨hmarks.returns hret, hhistory.returns hret, fun hmarked hkept htree => ?_⟩
  have hsource := allocPageTable_source depth hmarked pml4
  exact ((pagerMap_result hsource (.refl s) htree (fun _ => trivial) fun _ _ _ _ =>
    trivial).of_returns hret hkept).2.2.1.tree htree

theorem pagerUnmap_tree (virt : BitVec 64) : Keeps (TreeMoves pml4) (pagerUnmap virt) :=
  fun _ => sat_of_forall_returns fun _ _ hret =>
    ⟨(pagerUnmap_keeps pagerSteps_marks virt).returns hret,
      (pagerUnmap_keeps pagerSteps_history virt).returns hret, fun _ _ htree =>
        ((pagerUnmap_spec virt htree).of_returns hret).2.2.tree htree⟩

theorem pagerServices_tree (depth : Nat) : (pagerServices depth).Keeps (TreeMoves pml4) := by
  cases depth with
  | zero => exact ⟨fun _ _ _ => .throw _, fun _ _ _ _ => .throw _, fun _ => pagerUnmap_tree _⟩
  | succ depth =>
      refine ⟨fun _ _ _ => pagerMap_tree depth _ _ _, fun _ _ _ _ => ?_, fun _ => pagerUnmap_tree _⟩
      exact Keeps.iff_maintains.mpr fun s => mapRangeFrom_of_map (fun _ _ _ =>
        Keeps.iff_maintains.mp (pagerMap_tree depth _ _ _) s) _ _ _ _ _ _

theorem avmfSteps_tree (s : KernelState) : AvmfSteps (TreeMoves pml4 s) fun _ => True := by
  have hrest {α : Type} {m : Kernel α} (hm : ∀ t, Sat m t (fun _ u => MarksGrow t u ∧
      u.rest = t.rest) fun _ => True) : Maintains (TreeMoves pml4 s) (fun _ => True) m :=
    fun t ht => (hm t).imp fun _ u hu => ht.trans (.of_rest hu.1 hu.2)
  refine ⟨fun l => hrest fun t => ?_, fun l _ => hrest fun t => ?_, fun q => hrest fun t => ?_,
    fun f hphys hbitmap => hrest fun t => ?_, fun size => hrest fun t => ?_⟩
  · exact (sat_spinLock l t _ _).mpr ⟨fun _ => trivial, fun _ => ⟨.of_rest rfl rfl fun _ h => h, rfl⟩⟩
  · exact ⟨.of_rest rfl rfl fun _ h => h, rfl⟩
  · exact ⟨.of_rest rfl rfl fun _ h => h, rfl⟩
  · refine ⟨.of_rest rfl (bounds_congr (hphys t.avmf)) fun p hp => ?_, rfl⟩
    rwa [marked_congr (hbitmap t.avmf)]
  · exact (avmfAllocPhysContiguous_spec t size).imp fun _ u hu => ⟨hu.marksGrow, hu.rest⟩

theorem nodeMoves_tree : NodeMoves (TreeMoves pml4) where
  stores s := (avmfSteps_tree s).nodeStores
  taken h := .of_rest h.marksGrow h.rest
  freed {page s t u v} h hne hu hv := by
    refine ⟨.freed h hne hu.grow hv, ?_, fun hmarked hkept htree => ?_⟩
    · rw [hv.rest, ← h.rest]
      exact hu.history
    · rw [hv.rest] at hkept ⊢
      exact hu.tree (hmarked.grow h.marksGrow) hkept (h.rest ▸ htree)

section Alloc

variable {sv : Services Pager} (h : sv.Keeps (TreeMoves pml4))

include h

theorem nodePool_tree (s : KernelState) :
    (nodePool sv).Maintains (TreeMoves pml4 s) fun _ => True :=
  (nodePool_keeps nodeMoves_tree h.pagerMap).maintains s

theorem avmfAllocVirt_tree (size : Nat) (type : MemoryAllocType) :
    Keeps (TreeMoves pml4) (avmfAllocVirt sv size type) :=
  Keeps.iff_maintains.mpr fun s =>
    avmfAllocVirt_maintains (avmfSteps_tree s) (nodePool_tree h s) size type

theorem avmfAlloc_tree (size : Nat) (type : MemoryAllocType) (flags : BitVec 32) :
    Keeps (TreeMoves pml4) (avmfAlloc sv size type flags) :=
  Keeps.iff_maintains.mpr fun s => avmfAlloc_maintains (avmfSteps_tree s) (nodePool_tree h s)
    (h.maintains s).pagerMapRange size type flags

end Alloc

end AosKernel.Mm
