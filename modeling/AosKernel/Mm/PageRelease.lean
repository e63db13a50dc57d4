import AosKernel.Mm.MemoryCalls
import AosKernel.Mm.TreeKept

namespace AosKernel.Mm

open Verif Verif.Exec Verif.Span Verif.Radix

-- The walk for `w` ends at an entry that the walk for `v` ends at too.
def Pager.EndsOn (p : Pager) (v w : BitVec 64) : Prop :=
  ∃ met ∈ p.walk w, (walkPath w).take met.length = (walkPath v).take met.length

instance (p : Pager) (v w : BitVec 64) : Decidable (p.EndsOn v w) := by
  unfold Pager.EndsOn
  infer_instance

section EndsOn

variable {p : Pager} {pml4 a : PhysAddr} {path : List Index} {i : Index} {v w : BitVec 64}

theorem Pager.Tree.walk_some (h : p.Tree pml4) {met : List PageEntry} (hw : p.walk w = some met) :
    met = trail pageLink p.entries 0 pml4 (walkPath w) := by
  rw [h.walk_eq] at hw
  split at hw
  · exact (Option.some.inj hw).symm
  · cases hw

theorem Pager.EndsOn.walk_eq (h : p.Tree pml4) (hends : p.EndsOn v w) : p.walk v = p.walk w := by
  obtain ⟨met, hw, htake⟩ := hends
  rw [h.walk_some hw] at htake
  have htrail : trail pageLink p.entries 0 pml4 (walkPath v) =
      trail pageLink p.entries 0 pml4 (walkPath w) := trail_eq_of_take rfl htake.symm
  rw [h.walk_eq, h.walk_eq, htrail]

theorem Pager.Tree.not_endsOn (h : p.Tree pml4) (hwalk : p.walk v = none) : ¬ p.EndsOn v w := by
  intro hends
  have heq := hends.walk_eq h
  obtain ⟨met, hw, -⟩ := hends
  rw [Option.mem_def, ← heq, hwalk] at hw
  cases hw

-- Below an entry that is not present no walk ends.
theorem Pager.Tree.not_endsOn_absent (h : p.Tree pml4)
    (hpath : follow pageLink p.entries 0 pml4 path = some a)
    (habsent : present (p.entries a i) = false) (hv : path ++ [i] <+: walkPath v) :
    ¬ p.EndsOn v w := by
  apply h.not_endsOn
  rw [h.walk_end hpath (pageLink_none_of_not_present habsent) hv, habsent]
  rfl

-- Where the walk for `v` comes to an end without a link, just the walks that
-- end there too are lost with PAGE_PRESENT.
theorem Pager.Tree.walk_clear (h : p.Tree pml4)
    (hpath : follow pageLink p.entries 0 pml4 path = some a)
    (hend : pageLink path.length (p.entries a i) = none) (hv : path ++ [i] <+: walkPath v) :
    (p.write a i (p.entries a i &&& ~~~ PAGE_PRESENT)).walk w =
      if p.EndsOn v w then none else p.walk w := by
  have habsent := present_notPresent (p.entries a i)
  have hwrite : p.CanWrite pml4 path a (p.entries a i &&& ~~~ PAGE_PRESENT) := by
    refine ⟨h, hpath, pageLink_none_of_not_present habsent, fun hpresent => ?_⟩
    rw [habsent] at hpresent
    cases hpresent
  have hlength {u : BitVec 64} {met : List PageEntry} (hu : path ++ [i] <+: walkPath u)
      (hmet : p.walk u = some met) : met.length = (path ++ [i]).length := by
    rw [h.walk_end hpath hend hu] at hmet
    split at hmet
    · cases hmet
      simp [(h.trail_links hpath).1]
    · cases hmet
  by_cases hw : path ++ [i] <+: walkPath w
  · rw [hwrite.walk_through hw, habsent]
    cases hmet : p.walk w with
    | none => simp
    | some met =>
        have hends : p.EndsOn v w := by
          refine ⟨met, hmet, ?_⟩
          rw [hlength hw hmet, ← List.prefix_iff_eq_take.mp hw, ← List.prefix_iff_eq_take.mp hv]
        rw [if_pos hends]
        rfl
  · have hnot : ¬ p.EndsOn v w := by
      intro hends
      have heq := hends.walk_eq h
      obtain ⟨met, hmet, htake⟩ := hends
      rw [hlength hv (heq.trans hmet), ← List.prefix_iff_eq_take.mp hv] at htake
      exact hw (htake ▸ List.take_prefix _ _)
    rw [hwrite.walk_other hw, if_neg hnot]

end EndsOn

-- pager_unmap with the lock held takes away the walks that end where the one
-- for its address does.
theorem unmapFrom_walk {s : KernelState} {pml4 : PhysAddr} {v : BitVec 64} {E : Halt → Prop}
    (htree : s.rest.Tree pml4) :
    Sat (unmapFrom pml4 v) s (fun _ t => ∀ w, t.rest.walk w =
      if s.rest.EndsOn v w then none else s.rest.walk w) E := by
  have hnothing (hnot : ∀ w, ¬ s.rest.EndsOn v w) (w : BitVec 64) :
      s.rest.walk w = if s.rest.EndsOn v w then none else s.rest.walk w := by
    rw [if_neg (hnot w)]
  have habsent {e : PageEntry} (he : ¬ present e = true) : present e = false := by simpa using he
  unfold unmapFrom
  rw [sat_bind, sat_readEntry]
  refine Sat.ite (fun h4 => ?_) fun h4 => ?_
  · have hpdpt := htree.follow_next (follow_nil ..) (by simp) h4 (by simp)
    rw [sat_bind, sat_readEntry]
    refine Sat.ite (fun h3 => ?_) fun h3 => ?_
    · have hpd := htree.follow_next hpdpt (by simp) h3 (by simp)
      rw [sat_bind, sat_readEntry]
      refine Sat.ite (fun hhuge => ?_) fun hsmall => ?_
      · have hend : ∀ e : PageEntry, huge e = true → pageLink 2 e = none := by
          intro e he
          simp [pageLink, he]
        exact fun w => htree.walk_clear hpd (hend _ hhuge) (by simp [walkPath])
      · refine Sat.ite (fun h2 => ?_) fun h2 => ?_
        · have hpt := htree.follow_next hpd (by simp) h2 fun _ => by simpa using hsmall
          rw [sat_bind, sat_readEntry]
          exact fun w => htree.walk_clear hpt (by simp [pageLink]) (by simp [walkPath])
        · exact hnothing fun w => htree.not_endsOn_absent hpd (habsent h2) (by simp [walkPath])
    · exact hnothing fun w => htree.not_endsOn_absent hpdpt (habsent h3) (by simp [walkPath])
  · exact hnothing fun w =>
      htree.not_endsOn_absent (follow_nil ..) (habsent h4) (by simp [walkPath])

theorem pagerUnmap_walk {s : KernelState} {pml4 : PhysAddr} {v : BitVec 64} {E : Halt → Prop}
    (htree : s.rest.Tree pml4) (hloaded : s.rest.loaded = true) (hlock : .pml4 ∉ s.held) :
    Sat (pagerUnmap v) s (fun _ t => ∀ w, t.rest.walk w =
      if s.rest.EndsOn v w then none else s.rest.walk w) E := by
  unfold pagerUnmap
  rw [sat_bind, sat_get, if_pos hloaded, sat_bind, sat_spinLock]
  refine ⟨fun hheld => absurd hheld hlock, fun _ => ?_⟩
  rw [htree.table]
  dsimp only
  rw [sat_bind]
  exact (unmapFrom_walk (s := { s with held := .pml4 :: s.held }) htree).imp fun _ _ ht => ht

-- A call of pager_unmap outside of any other: it comes back, and nothing but
-- the entry for its address has changed.
structure Unmapped (pml4 : PhysAddr) (v : BitVec 64) (s t : KernelState) : Prop where
  memory : SameMemory s t
  held : t.held = s.held
  loaded : t.rest.loaded = s.rest.loaded
  history : History s.rest t.rest
  tree : t.rest.Tree pml4
  walk : ∀ w, t.rest.walk w = if s.rest.EndsOn v w then none else s.rest.walk w

theorem pagerServices_unmapped (depth virt : Nat) {s : KernelState} {pml4 : PhysAddr}
    {E : Halt → Prop} (htree : s.rest.Tree pml4) (hloaded : s.rest.loaded = true)
    (hlock : .pml4 ∉ s.held) :
    Sat ((pagerServices depth).pagerUnmap virt) s
      (fun _ t => Unmapped pml4 (BitVec.ofNat 64 virt) s t) E := by
  have hcall : Sat (pagerUnmap (BitVec.ofNat 64 virt)) s
      (fun _ t => Unmapped pml4 (BitVec.ofNat 64 virt) s t) E := by
    have hmemory := pagerUnmap_keeps pagerSteps_sameMemory (BitVec.ofNat 64 virt) s
    have hmarks := pagerUnmap_keeps pagerSteps_marks (BitVec.ofNat 64 virt) s
    have hhistory := pagerUnmap_keeps pagerSteps_history (BitVec.ofNat 64 virt) s
    have htree' := pagerUnmap_spec (BitVec.ofNat 64 virt) htree
    refine (((((pagerUnmap_walk htree hloaded hlock).and hmemory).and hmarks).and hhistory).and
      htree').imp fun _ t ht => ?_
    obtain ⟨⟨⟨⟨hwalk, hmemory⟩, hmarks⟩, hhistory⟩, hheld, -, hresult⟩ := ht
    exact ⟨hmemory, hheld, hmarks.loaded, hhistory, hresult.tree htree, hwalk⟩
  cases depth <;> exact hcall

-- The loop of avmf_free at its end: the bitmap had all its pages, and the walks
-- that are lost are those that ended where one for `n` pages from `virt` on did.
structure PagesReleased (pml4 : PhysAddr) (page virt n : Nat) (s t : KernelState) : Prop where
  inside : ∀ p, Mem p ⟨page, n⟩ → p / 8 < BITMAP_SIZE
  held : t.held = s.held
  loaded : t.rest.loaded = s.rest.loaded
  history : History s.rest t.rest
  tree : t.rest.Tree pml4
  lost : ∀ w k, k < n → s.rest.EndsOn (BitVec.ofNat 64 (virt + k * PAGE_SIZE)) w →
    t.rest.walk w = none
  kept : ∀ w, (∀ k < n, ¬ s.rest.EndsOn (BitVec.ofNat 64 (virt + k * PAGE_SIZE)) w) →
    t.rest.walk w = s.rest.walk w

theorem Unmapped.endsOn {pml4 : PhysAddr} {u v w : BitVec 64} {s t : KernelState}
    (h : Unmapped pml4 u s t) :
    t.rest.EndsOn v w ↔ s.rest.EndsOn v w ∧ ¬ s.rest.EndsOn u w := by
  unfold Pager.EndsOn
  rw [h.walk]
  by_cases hu : s.rest.EndsOn u w
  · simp only [hu, if_true, Option.not_mem_none, false_and, exists_false, false_iff, not_and,
      not_not]
    exact fun _ => hu
  · simp only [hu, if_false]
    exact ⟨fun hv => ⟨hv, hu⟩, And.left⟩

-- One page in front of `n` more.
theorem PagesReleased.cons {pml4 : PhysAddr} {page virt n : Nat} {s t u : KernelState}
    (hpage : page / 8 < BITMAP_SIZE)
    (ht : Unmapped pml4 (BitVec.ofNat 64 virt)
      { s with avmf := { s.avmf with bitmap := bitmapClear s.avmf.bitmap page } } t)
    (hu : PagesReleased pml4 (page + 1) (virt + PAGE_SIZE) n t u) :
    PagesReleased pml4 page virt (n + 1) s u := by
  have hshift (k : Nat) : virt + PAGE_SIZE + k * PAGE_SIZE = virt + (k + 1) * PAGE_SIZE := by
    rw [Nat.succ_mul]
    omega
  refine ⟨fun p hp => ?_, hu.held.trans ht.held, hu.loaded.trans ht.loaded,
    IsTrans.trans (r := History) _ _ _ ht.history hu.history, hu.tree, fun w k hk hends => ?_,
    fun w hnot => ?_⟩
  · by_cases hfirst : p = page
    · exact hfirst ▸ hpage
    · refine hu.inside p ?_
      simp only [Mem] at hp ⊢
      omega
  · -- the walk is lost with the first page or with one of the others
    by_cases hfirst : s.rest.EndsOn (BitVec.ofNat 64 virt) w
    · have hnone : t.rest.walk w = none := by
        rw [ht.walk, if_pos hfirst]
      rw [hu.kept w fun j _ hj => ?_, hnone]
      exact (ht.endsOn.mp hj).2 hfirst
    · cases k with
      | zero =>
          rw [Nat.zero_mul, Nat.add_zero] at hends
          exact absurd hends hfirst
      | succ k =>
          refine hu.lost w k (by omega) (ht.endsOn.mpr ⟨?_, hfirst⟩)
          rwa [hshift]
  · have hfirst : ¬ s.rest.EndsOn (BitVec.ofNat 64 virt) w := by
      have := hnot 0 (by omega)
      rwa [Nat.zero_mul, Nat.add_zero] at this
    rw [hu.kept w fun j hj hends => ?_, ht.walk, if_neg hfirst]
    refine hnot (j + 1) (by omega) ?_
    rw [← hshift]
    exact (ht.endsOn.mp hends).1

-- The loop comes to its end exactly when the bitmap has all its pages.
theorem releasePages_released (depth : Nat) {pml4 : PhysAddr} {E : Halt → Prop}
    (n page virt : Nat) {s : KernelState} (htree : s.rest.Tree pml4)
    (hloaded : s.rest.loaded = true) (hlock : .pml4 ∉ s.held)
    (hout : (∃ p, Mem p ⟨page, n⟩ ∧ BITMAP_SIZE ≤ p / 8) → E .outOfBounds) :
    Sat (releasePages (pagerServices depth) page virt n) s
      (fun _ t => PagesReleased pml4 page virt n s t) E := by
  induction n generalizing page virt s with
  | zero =>
      refine ⟨fun p hp => ?_, rfl, rfl, Std.Refl.refl (r := History) _, htree, nofun, fun _ _ => rfl⟩
      exact absurd hp (by simp [not_mem_empty])
  | succ n ih =>
      unfold releasePages
      refine Sat.ite (fun hpage => hout ⟨page, ?_, hpage⟩) fun hpage => ?_
      · simp only [Mem]
        omega
      rw [sat_bind, sat_modifyAvmf]
      refine Sat.bind (pagerServices_unmapped depth virt htree hloaded hlock) fun _ t ht => ?_
      have hnext : (∃ p, Mem p ⟨page + 1, n⟩ ∧ BITMAP_SIZE ≤ p / 8) → E .outOfBounds := by
        rintro ⟨p, hp, hlarge⟩
        refine hout ⟨p, ?_, hlarge⟩
        simp only [Mem] at hp ⊢
        omega
      exact (ih (page + 1) (virt + PAGE_SIZE) ht.tree (ht.loaded.trans hloaded) (ht.held ▸ hlock)
        hnext).imp fun _ u hu => .cons (by omega) ht hu

end AosKernel.Mm
