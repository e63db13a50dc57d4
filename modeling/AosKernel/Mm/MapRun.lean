import AosKernel.Mm.PagerRange

namespace AosKernel.Mm

open Verif Verif.Exec Verif.Radix

-- No table of the tree has been lost or moved.
def PathsKept (pml4 : PhysAddr) (p q : Pager) : Prop :=
  ∀ path a, follow pageLink p.entries 0 pml4 path = some a →
    follow pageLink q.entries 0 pml4 path = some a

theorem FreshTables.pathsSource {alloc : Kernel (Option PhysAddr)} (h : FreshTables alloc)
    (pml4 : PhysAddr) (p : Pager) :
    TableSource alloc pml4 (fun s => PathsKept pml4 p s.rest) (fun _ => True) (fun _ => True)
      fun _ => False where
  locks _ _ hI := hI
  grow s path a i hI hlock htree hpath hlen hvacant hN := by
    refine ((h.source pml4).grow s path a i trivial hlock htree hpath hlen hvacant hN).imp
      fun r t ht => ?_
    cases r with
    | none => trivial
    | some b =>
        intro hkept
        obtain ⟨hnew, -⟩ := ht hkept
        have hlink : s.rest.CanLink pml4 path a i b :=
          ⟨htree, hpath, hlen, hvacant, hnew.isPage, hnew.fresh⟩
        refine ⟨hnew, fun q c hq => ?_⟩
        rw [hnew.rest]
        exact (hlink.follow_iff q c).mpr (.inr (hI q c hq))
  write s path a i e hI hwrite hold q c hq := (hwrite.follow_eq hold q).trans (hI q c hq)
  parts := (h.source pml4).parts
  lost := (h.source pml4).lost

-- The entry that a call writes.
def MapCall.entry (c : MapCall) : PageEntry :=
  if huge c.flags then hugeEntry c.phys c.flags else leafEntry c.phys c.flags

-- Where the page of a call takes an address.
def MapCall.target (c : MapCall) (v : BitVec 64) : PhysAddr :=
  if huge c.flags then hugeAddr c.phys ||| (v &&& 0x1FFFFF) else pageAddr c.phys ||| (v &&& 0xFFF)

-- All walks of the page of a call end at the entry that the call writes.
def Pager.Enters (p : Pager) (c : MapCall) : Prop :=
  ∃ links, links.length + 1 = c.path.length ∧
    ∀ v, c.path <+: walkPath v → p.walk v = some (links ++ [c.entry])

theorem MapCall.path_length (c : MapCall) : c.path.length = if huge c.flags then 3 else 4 := by
  unfold MapCall.path pagePath walkPath
  split <;> rfl

-- Addresses that share the indices a walk has used share the walk.
theorem Pager.Tree.walk_congr {p : Pager} {pml4 : PhysAddr} (h : p.Tree pml4) {v w : BitVec 64}
    {met : List PageEntry} (hv : p.walk v = some met)
    (hsame : (walkPath w).take met.length = (walkPath v).take met.length) :
    p.walk w = some met := by
  rw [h.walk_eq] at hv ⊢
  split at hv
  · rename_i hpresent
    obtain rfl := Option.some.inj hv
    rw [trail_eq_of_take (show (walkPath w).length = (walkPath v).length from rfl) hsame,
      if_pos hpresent]
  · cases hv

theorem Pager.Tree.enters_of_walk {p : Pager} {pml4 : PhysAddr} (h : p.Tree pml4) {c : MapCall}
    {v : BitVec 64} {links : List PageEntry} (hlen : links.length + 1 = c.path.length)
    (hv : c.path <+: walkPath v) (hwalk : p.walk v = some (links ++ [c.entry])) : p.Enters c := by
  refine ⟨links, hlen, fun w hw => h.walk_congr hwalk ?_⟩
  rw [List.length_append, List.length_singleton, hlen]
  exact (List.prefix_iff_eq_take.mp hw).symm.trans (List.prefix_iff_eq_take.mp hv)

theorem Pager.Enters.translate {p : Pager} {c : MapCall} {bits : Nat} (hbits : bits ≤ 52)
    (hcpu : beyondCpu bits c.phys = false) (h : p.Enters c) {v : BitVec 64}
    (hv : c.path <+: walkPath v) : p.translate v = some (c.target v) := by
  obtain ⟨links, hlen, hwalk⟩ := h
  have hwithin := bitsWithin_of_not_beyond hbits hcpu
  rw [Pager.translate, hwalk v hv]
  rw [MapCall.path_length] at hlen
  unfold MapCall.entry MapCall.target
  cases hflags : huge c.flags with
  | true =>
      rw [hflags, if_pos rfl] at hlen
      obtain ⟨x, y, rfl⟩ := List.length_eq_two.mp (Nat.succ.inj hlen)
      have hframe : hugeFrameAddr (hugeEntry c.phys c.flags) = hugeAddr c.phys := by
        refine BitVec.eq_of_getLsbD_eq fun i _ => ?_
        rw [getLsbD_hugeFrameAddr, getLsbD_hugeEntry, getLsbD_hugeAddr]
        by_cases hi : 21 ≤ i ∧ i < 52
        · simp [hi, show ¬ i < 12 by omega, show ¬ i < 21 by omega]
        · by_cases hlow : i < 21
          · simp [hlow, show ¬ 21 ≤ i by omega]
          · simp [show ¬ i < 52 by omega, hwithin.eq_false (i := i) (.inr (by omega))]
      simp [physOf, hframe]
  | false =>
      rw [hflags, if_neg (by decide)] at hlen
      obtain ⟨x, y, z, rfl⟩ := List.length_eq_three.mp (Nat.succ.inj hlen)
      have hframe : frameAddr (leafEntry c.phys c.flags) = pageAddr c.phys := by
        refine BitVec.eq_of_getLsbD_eq fun i _ => ?_
        rw [getLsbD_frameAddr, getLsbD_leafEntry, getLsbD_pageAddr]
        by_cases hi : 12 ≤ i ∧ i < 52
        · simp [hi, show ¬ i < 12 by omega]
        · by_cases hlow : i < 12
          · simp [hlow, show ¬ 12 ≤ i by omega]
          · simp [show ¬ i < 52 by omega, hwithin.eq_false (i := i) (.inr (by omega))]
      simp [physOf, hframe]

-- A slot in use stays so where its paths are kept and the walks through it
-- have not changed.
theorem present_kept {p q : Pager} {pml4 : PhysAddr} (hp : p.Tree pml4) (hq : q.Tree pml4)
    (hpaths : PathsKept pml4 p q) {path : List Index} {i : Index} {v : BitVec 64}
    (hv : path ++ [i] <+: walkPath v) (hwalk : q.walk v = p.walk v)
    (hpresent : present (p.slot path i) = true) : present (q.slot path i) = true := by
  cases hpath : follow pageLink p.entries 0 pml4 path with
  | none =>
      rw [hp.slot_none hpath, present_zero] at hpresent
      cases hpresent
  | some a =>
      have hpath' := hpaths path a hpath
      rw [hp.slot_eq hpath] at hpresent
      rw [hq.slot_eq hpath']
      by_contra hgone
      rw [Bool.not_eq_true] at hgone
      have hnone := pageLink_none_of_not_present (d := path.length) hgone
      cases hlink : pageLink path.length (p.entries a i) with
      | none =>
          rw [hq.walk_end hpath' hnone hv, hp.walk_end hpath hlink hv, hgone, hpresent] at hwalk
          cases hwalk
      | some b =>
          have hnext := hpaths (path ++ [i]) b (by rw [follow_snoc, hpath]; simpa using hlink)
          rw [follow_snoc, hpath', Option.bind_some, Nat.zero_add, hnone] at hnext
          cases hnext

-- One call of pager_map.
structure CallStep (pml4 : PhysAddr) (c : MapCall) (p q : Pager) : Prop where
  tree : p.Tree pml4
  result : ∃ b, MapResult p q pml4 c.virt c.phys c.flags b
  slots : p.SlotsAlong q c.path
  paths : PathsKept pml4 p q

-- What a call does to the walks: it has a physical address that the processor
-- does not, or it finds its slot in use, or it enters its page.
inductive CallEffect (c : MapCall) (p q : Pager) : Prop
  | beyond (hcpu : beyondCpu p.cpuPhysBits c.phys = true) (hq : q = p)
  | taken (hcpu : beyondCpu p.cpuPhysBits c.phys = false) (htaken : ¬ p.Vacant c)
      (hwalk : ∀ v, q.walk v = p.walk v)
  | entered (hcpu : beyondCpu p.cpuPhysBits c.phys = false) (hvacant : p.Vacant c)
      (henters : q.Enters c) (hframe : ∀ v, ¬ c.path <+: walkPath v → q.walk v = p.walk v)

theorem MapCall.path_within (c : MapCall) : c.path <+: walkPath c.virt := List.take_prefix _ _

theorem MapCall.path_huge {c : MapCall} (hflags : huge c.flags = true) :
    c.path = [idxPml4 c.virt, idxPdpt c.virt] ++ [idxPd c.virt] := by
  simp [MapCall.path, pagePath, walkPath, hflags]

theorem MapCall.path_page {c : MapCall} (hflags : huge c.flags = false) :
    c.path = [idxPml4 c.virt, idxPdpt c.virt, idxPd c.virt] ++ [idxPt c.virt] := by
  simp [MapCall.path, pagePath, walkPath, hflags]

namespace CallStep

variable {pml4 : PhysAddr} {c : MapCall} {p q : Pager} (h : CallStep pml4 c p q)

include h

theorem tree_after : q.Tree pml4 := by
  obtain ⟨b, hresult⟩ := h.result
  exact hresult.tree h.tree

theorem bits : q.cpuPhysBits = p.cpuPhysBits := by
  obtain ⟨b, hresult⟩ := h.result
  exact hresult.bits

theorem effect : CallEffect c p q := by
  obtain ⟨b, hresult⟩ := h.result
  have hframe (v : BitVec 64) (hv : ¬ c.path <+: walkPath v) : q.walk v = p.walk v :=
    hresult.walk_apart hv
  have htree := h.tree_after
  cases hresult with
  | beyond hbeyond hq => exact .beyond hbeyond hq
  | hugeTaken hcpu hflags htaken hgrown =>
      refine .taken hcpu ?_ hgrown.walk
      simp [Pager.Vacant, hflags, htaken]
  | insideHuge hcpu hflags htaken hgrown =>
      refine .taken hcpu ?_ hgrown.walk
      simp [Pager.Vacant, hflags, htaken]
  | pageTaken hcpu hflags _ htaken hgrown =>
      refine .taken hcpu ?_ hgrown.walk
      simp [Pager.Vacant, hflags, htaken]
  | hugeSet hcpu hflags hfree hset =>
      refine .entered hcpu (by simp [Pager.Vacant, hflags, hfree]) ?_ hframe
      have hpath := MapCall.path_huge hflags
      obtain ⟨links, hlen, -, hwalk⟩ := hset.walk_through (hpath ▸ c.path_within)
      rw [present_hugeEntry, if_pos rfl] at hwalk
      have hlinks : links.length + 1 = c.path.length := by
        rw [hlen, hpath, List.length_append, List.length_singleton]
      refine htree.enters_of_walk hlinks c.path_within ?_
      rw [hwalk, MapCall.entry, if_pos hflags]
  | pageSet hcpu hflags hsmall hfree hset =>
      refine .entered hcpu (by simp [Pager.Vacant, hflags, hsmall, hfree]) ?_ hframe
      have hpath := MapCall.path_page hflags
      obtain ⟨links, hlen, -, hwalk⟩ := hset.walk_through (hpath ▸ c.path_within)
      rw [present_leafEntry, if_pos rfl] at hwalk
      have hlinks : links.length + 1 = c.path.length := by
        rw [hlen, hpath, List.length_append, List.length_singleton]
      refine htree.enters_of_walk hlinks c.path_within ?_
      rw [hwalk, MapCall.entry, if_neg (by simp [hflags])]

-- No slot becomes vacant.
theorem vacant_before (hq : q.Vacant c) : p.Vacant c := by
  by_contra htaken
  have hwalk : q.walk c.virt = p.walk c.virt := by
    cases h.effect with
    | beyond _ hsame => rw [hsame]
    | taken _ _ hsame => exact hsame _
    | entered _ hvacant => exact absurd hvacant htaken
  have hkept {path : List Index} {i : Index} (hv : path ++ [i] <+: walkPath c.virt) :
      present (p.slot path i) = true → present (q.slot path i) = true :=
    present_kept h.tree h.tree_after h.paths hv hwalk
  unfold Pager.Vacant at htaken hq
  cases hflags : huge c.flags with
  | true =>
      rw [hflags, if_pos rfl] at htaken hq
      have hstays := hkept (MapCall.path_huge hflags ▸ c.path_within)
        (by simpa [Pager.pdSlot] using htaken)
      rw [Pager.pdSlot, hstays] at hq
      cases hq
  | false =>
      simp only [hflags, Bool.false_eq_true, if_false, not_and, Bool.not_eq_false] at htaken hq
      cases hpd : huge (p.pdSlot c.virt) with
      | true =>
          rcases h.slots [idxPml4 c.virt, idxPdpt c.virt] (idxPd c.virt) with hsame | ⟨-, hbefore⟩
          · rw [Pager.pdSlot, hsame] at hq
            rw [Pager.pdSlot, hq.1] at hpd
            cases hpd
          · have hne : [idxPml4 c.virt, idxPdpt c.virt] ++ [idxPd c.virt] ≠ c.path := by
              simp [MapCall.path_page hflags]
            rw [Pager.pdSlot, (hbefore hne).2 rfl] at hpd
            cases hpd
      | false =>
          have hstays := hkept (MapCall.path_page hflags ▸ c.path_within) (htaken hpd)
          rw [Pager.ptSlot, hstays] at hq
          cases hq.2

end CallStep

theorem MapCall.huge_eq_of_path {c d : MapCall} (h : d.path = c.path) :
    huge d.flags = huge c.flags := by
  have hlen := congrArg List.length h
  rw [d.path_length, c.path_length] at hlen
  cases hd : huge d.flags <;> cases hc : huge c.flags <;> simp_all

-- Calls for one page look at the same slots.
theorem Pager.vacant_congr {c d : MapCall} (p : Pager) (h : d.path = c.path) :
    p.Vacant d ↔ p.Vacant c := by
  have hflags := MapCall.huge_eq_of_path h
  unfold Pager.Vacant Pager.pdSlot Pager.ptSlot
  cases hc : huge c.flags with
  | true =>
      rw [hc] at hflags
      rw [MapCall.path_huge hc, MapCall.path_huge hflags] at h
      simp only [List.cons_append, List.nil_append, List.cons.injEq, and_true] at h
      simp only [hflags, h, if_true]
  | false =>
      rw [hc] at hflags
      rw [MapCall.path_page hc, MapCall.path_page hflags] at h
      simp only [List.cons_append, List.nil_append, List.cons.injEq, and_true] at h
      simp only [hflags, h]

-- Two pages that are apart or one and the same.
def MapCall.Fellow (c d : MapCall) : Prop := c.Apart d ∨ c.path = d.path

-- Calls of pager_map, one after the other.
inductive CallsRun (pml4 : PhysAddr) : List MapCall → Pager → Pager → Prop
  | nil {p} (htree : p.Tree pml4) : CallsRun pml4 [] p p
  | cons {c calls p q r} (hstep : CallStep pml4 c p q) (hrest : CallsRun pml4 calls q r) :
      CallsRun pml4 (c :: calls) p r

namespace CallsRun

variable {pml4 : PhysAddr} {calls : List MapCall} {p r : Pager}

theorem tree_after (h : CallsRun pml4 calls p r) : r.Tree pml4 := by
  induction h with
  | nil htree => exact htree
  | cons _ _ ih => exact ih

-- A walk stays as it was, or one of the calls has entered its page.
theorem walk_cases (h : CallsRun pml4 calls p r) (v : BitVec 64) :
    r.walk v = p.walk v ∨ ∃ d ∈ calls, d.path <+: walkPath v ∧
      beyondCpu p.cpuPhysBits d.phys = false ∧ (calls.Pairwise MapCall.Fellow → p.Vacant d) ∧
      r.Enters d := by
  induction h with
  | nil => exact .inl rfl
  | @cons c calls p q r hstep hrest ih =>
      rcases ih with hsame | ⟨d, hd, hpre, hcpu, hvacant, henters⟩
      · cases hstep.effect with
        | beyond _ hq => exact .inl (hsame.trans (by rw [hq]))
        | taken _ _ hwalk => exact .inl (hsame.trans (hwalk v))
        | entered hcpu hvacant henters hframe =>
            by_cases hv : c.path <+: walkPath v
            · obtain ⟨links, hlen, hlinks⟩ := henters
              exact .inr ⟨c, List.mem_cons_self, hv, hcpu, fun _ => hvacant,
                hrest.tree_after.enters_of_walk hlen hv (hsame.trans (hlinks v hv))⟩
            · exact .inl (hsame.trans (hframe v hv))
      · refine .inr ⟨d, List.mem_cons_of_mem _ hd, hpre, hstep.bits ▸ hcpu, fun hfellow => ?_,
          henters⟩
        obtain ⟨hfirst, hfellow'⟩ := List.pairwise_cons.mp hfellow
        have hq := hvacant hfellow'
        rcases hfirst d hd with hapart | hpath
        · exact (hstep.slots.vacant_iff hapart).mp hq
        · rw [p.vacant_congr hpath.symm]
          exact hstep.vacant_before ((q.vacant_congr hpath.symm).mp hq)

-- A page is entered when it is vacant and a call for it is let through.
theorem walk_ne_none (h : CallsRun pml4 calls p r) {c : MapCall}
    (hfellow : ∀ e ∈ calls, e.Fellow c) (hvacant : p.Vacant c)
    (hcpu : ∃ d ∈ calls, d.path = c.path ∧ beyondCpu p.cpuPhysBits d.phys = false)
    {v : BitVec 64} (hv : c.path <+: walkPath v) : r.walk v ≠ none := by
  induction h with
  | nil =>
      obtain ⟨d, hd, -⟩ := hcpu
      cases hd
  | @cons e calls p q r hstep hrest ih =>
      have hfellow' := fun e' he => hfellow e' (List.mem_cons_of_mem _ he)
      obtain ⟨d, hd, hpath, hd'⟩ := hcpu
      -- the call that is let through is still to come
      have hlater (hne : d ≠ e) : ∃ d ∈ calls, d.path = c.path ∧
          beyondCpu q.cpuPhysBits d.phys = false :=
        ⟨d, (List.mem_cons.mp hd).resolve_left hne, hpath, hstep.bits.symm ▸ hd'⟩
      rcases hfellow e List.mem_cons_self with hapart | hsame
      · refine ih hfellow' ((hstep.slots.vacant_iff hapart).mpr hvacant) (hlater ?_)
        rintro rfl
        exact hapart.1 (hpath ▸ List.prefix_refl _)
      · cases hstep.effect with
        | beyond hbeyond hq =>
            refine ih hfellow' (hq ▸ hvacant) (hlater ?_)
            rintro rfl
            rw [hbeyond] at hd'
            cases hd'
        | taken _ htaken _ => exact absurd ((p.vacant_congr hsame).mpr hvacant) htaken
        | entered _ _ henters _ =>
            obtain ⟨links, -, hlinks⟩ := henters
            rcases hrest.walk_cases v with hkept | ⟨d, _, hpre, _, _, _, _, hlinks'⟩
            · rw [hkept, hlinks v (hsame ▸ hv)]
              nofun
            · rw [hlinks' v hpre]
              nofun

end CallsRun

theorem mapCalls_run {alloc : Kernel (Option PhysAddr)} (halloc : FreshTables alloc)
    {pml4 : PhysAddr} (calls : List MapCall) {s : KernelState} (htree : s.rest.Tree pml4) :
    Sat (mapCalls alloc calls) s (fun _ t => CallsRun pml4 calls s.rest t.rest) fun _ => True := by
  induction calls generalizing s with
  | nil => exact .nil htree
  | cons c calls ih =>
      refine Sat.bind (pagerMap_result (halloc.pathsSource pml4 s.rest) (fun _ _ hpath => hpath)
        htree (fun _ => trivial) fun _ _ _ _ => trivial) fun b t ht => ?_
      obtain ⟨hpaths, -, hresult, hslots⟩ := ht nofun
      exact (ih (hresult.tree htree)).imp fun _ u hu =>
        .cons ⟨htree, ⟨b, hresult⟩, hslots, hpaths⟩ hu

end AosKernel.Mm
