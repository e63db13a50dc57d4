import AosKernel.Mm.MapRun
import AosKernel.Mm.PagerRights

namespace AosKernel.Mm

open Verif Verif.Exec Verif.Radix

theorem MapCall.toNat_target (c : MapCall) (v : BitVec 64) :
    (c.target v).toNat = 2 ^ pageShift c.flags * (c.phys.toNat / 2 ^ pageShift c.flags) +
      v.toNat % 2 ^ pageShift c.flags := by
  unfold MapCall.target pageShift hugeAddr pageAddr
  cases huge c.flags with
  | true =>
      simp only [if_true, hugeOffset_eq]
      exact toNat_high_or_low _ _ (by decide)
  | false =>
      simp only [Bool.false_eq_true, if_false, pageOffset_eq]
      exact toNat_high_or_low _ _ (by decide)

theorem pageShift_cases (flags : BitVec 64) : pageShift flags = 12 ∨ pageShift flags = 21 := by
  unfold pageShift
  split <;> simp

namespace MapRange

-- The page that the flags ask for.
def unit (r : MapRange) : Nat := 2 ^ pageShift r.flags

-- The ranges that a call of pager_map_range maps from the first byte to the
-- last: virt and phys lie alike in their pages, the range is one that a walk
-- tells apart, no turn is missing for the last byte, and every turn finds its
-- slot vacant and has a physical address, or one of a turn for the same page,
-- that pager_map lets through.
structure Served (r : MapRange) (p : Pager) : Prop where
  offsets : r.virt.toNat % r.unit = r.phys.toNat % r.unit
  inside : r.virt.toNat % r.unit + r.size ≤ 2 ^ 48
  ends : (r.virt.toNat % r.unit + (r.size - 1)) / r.unit =
    (r.virt.toNat % r.unit + (r.size - 1) / PAGE_SIZE * PAGE_SIZE) / r.unit
  vacant : ∀ c ∈ r.calls, p.Vacant c
  cpu : ∀ c ∈ r.calls, ∃ d ∈ r.calls, d.path = c.path ∧ beyondCpu p.cpuPhysBits d.phys = false

variable {r : MapRange} {t u : Turn} {x : Nat}

-- The page of a turn, as a number of address bits.
def shift (r : MapRange) (t : Turn) : Nat := pageShift (r.call t).flags

-- A byte of the range is in the page of a turn.
def On (r : MapRange) (t : Turn) (x : Nat) : Prop :=
  (r.virt.toNat + x) / 2 ^ r.shift t = (r.virt.toNat + t.offset) / 2 ^ r.shift t

theorem shift_eq (r : MapRange) (t : Turn) :
    r.shift t = if t.large ∨ huge r.flags then 21 else 12 := by
  unfold shift call pageShift
  cases t.large with
  | true => simp [huge_or_huge]
  | false => simp

theorem unit_cases (r : MapRange) :
    huge r.flags = false ∧ r.unit = 4096 ∨ huge r.flags = true ∧ r.unit = 2097152 := by
  unfold unit pageShift
  cases huge r.flags <;> simp

-- What the address arithmetic needs of a turn.
theorem turn_facts (ht : t ∈ r.turns) :
    t.offset < r.size ∧ t.offset % 4096 = 0 ∧
      (t.large = true → t.offset + 2097152 ≤ r.size ∧ (r.virt.toNat + t.offset) % 2097152 = 0 ∧
        r.virt.toNat % 2097152 = r.phys.toNat % 2097152) := by
  have htaken := taken (Nat.zero_mod _) ht
  refine ⟨htaken.inside, htaken.aligned, fun hlarge => ?_⟩
  rw [htaken.large] at hlarge
  simp only [large, decide_eq_true_eq] at hlarge
  obtain ⟨hsize, hvirt, hphys⟩ := hlarge
  have hinside := htaken.inside
  have hvirt' : (r.virt.toNat + t.offset) % 2097152 = 0 := by
    have := congrArg BitVec.toNat hvirt
    rw [BitVec.toNat_umod, BitVec.toNat_add, BitVec.toNat_ofNat] at this
    change _ % 2097152 = 0 at this
    omega
  have hphys' : (r.phys.toNat + t.offset) % 2097152 = 0 := by
    have := congrArg BitVec.toNat hphys
    rw [BitVec.toNat_umod, BitVec.toNat_add, BitVec.toNat_ofNat] at this
    change _ % 2097152 = 0 at this
    omega
  omega

theorem shift_facts (r : MapRange) (t : Turn) :
    r.shift t = 12 ∧ r.unit = 4096 ∧ huge r.flags = false ∧ t.large = false ∨
      r.shift t = 21 ∧ (r.unit = 2097152 ∧ huge r.flags = true ∨ t.large = true ∧ r.unit = 4096) := by
  rw [shift_eq]
  rcases r.unit_cases with ⟨hflags, hunit⟩ | ⟨hflags, hunit⟩ <;>
    cases hlarge : t.large <;> simp [hflags, hunit]

theorem path_within_iff (r : MapRange) (t : Turn) (x : Nat) :
    (r.call t).path <+: walkPath (r.virt + BitVec.ofNat 64 x) ↔
      (r.virt.toNat + x) % 2 ^ 48 / 2 ^ r.shift t =
        (r.virt.toNat + t.offset) % 2 ^ 48 / 2 ^ r.shift t := by
  have hmod (y : Nat) : (r.virt + BitVec.ofNat 64 y).toNat % 2 ^ 48 = (r.virt.toNat + y) % 2 ^ 48 := by
    rw [BitVec.toNat_add, BitVec.toNat_ofNat]
    omega
  rw [show (r.call t).path = pagePath (r.call t).flags (r.call t).virt from rfl,
    pagePath_prefix_iff, pageNumber, pageNumber, hmod, show (r.call t).virt = r.virt +
    BitVec.ofNat 64 t.offset from rfl, hmod]
  rfl

-- Inside 48 bits a walk tells the pages of the turns apart.
theorem path_within_iff_on (hinside : r.virt.toNat % r.unit + r.size ≤ 2 ^ 48) (ht : t ∈ r.turns)
    (hx : x < r.size) :
    (r.call t).path <+: walkPath (r.virt + BitVec.ofNat 64 x) ↔ r.On t x := by
  obtain ⟨hoff, -, hlarge⟩ := turn_facts ht
  rw [path_within_iff, On]
  rcases r.shift_facts t with ⟨hshift, hunit, -⟩ | ⟨hshift, ⟨hunit, -⟩ | ⟨hl, hunit⟩⟩
  · rw [hshift]
    rw [hunit] at hinside
    omega
  · rw [hshift]
    rw [hunit] at hinside
    omega
  · rw [hshift]
    rw [hunit] at hinside
    obtain ⟨hfits, haligned, -⟩ := hlarge hl
    omega

theorem target_of_on (hoffsets : r.virt.toNat % r.unit = r.phys.toNat % r.unit) (ht : t ∈ r.turns)
    (hon : r.On t x) :
    (r.call t).target (r.virt + BitVec.ofNat 64 x) = r.phys + BitVec.ofNat 64 x := by
  obtain ⟨-, -, hlarge⟩ := turn_facts ht
  rw [On] at hon
  rw [← BitVec.toNat_inj, MapCall.toNat_target]
  change 2 ^ r.shift t * ((r.phys + BitVec.ofNat 64 t.offset).toNat / 2 ^ r.shift t) +
    (r.virt + BitVec.ofNat 64 x).toNat % 2 ^ r.shift t = _
  simp only [BitVec.toNat_add, BitVec.toNat_ofNat]
  rcases r.shift_facts t with ⟨hshift, hunit, -⟩ | ⟨hshift, ⟨hunit, -⟩ | ⟨hl, hunit⟩⟩
  · rw [hshift] at hon ⊢
    rw [hunit] at hoffsets
    omega
  · rw [hshift] at hon ⊢
    rw [hunit] at hoffsets
    omega
  · rw [hshift] at hon ⊢
    obtain ⟨-, -, hsame⟩ := hlarge hl
    omega

-- The turns reach every byte exactly when one reaches the last.
theorem cover_on (hends : (r.virt.toNat % r.unit + (r.size - 1)) / r.unit =
    (r.virt.toNat % r.unit + (r.size - 1) / PAGE_SIZE * PAGE_SIZE) / r.unit) (hx : x < r.size) :
    ∃ t ∈ r.turns, r.On t x := by
  obtain ⟨t, ht, hlow, hhigh⟩ := cover hx
  obtain ⟨-, haligned, hlarge⟩ := turn_facts ht
  by_cases hon : r.On t x
  · exact ⟨t, ht, hon⟩
  -- `x` is behind the page of its turn, so the next turn is the one for it
  have hsmall : t.large = false := by
    by_contra hl
    rw [Bool.not_eq_false] at hl
    refine hon ?_
    obtain ⟨-, hstart, -⟩ := hlarge hl
    rw [On, shift_eq, if_pos (.inl hl)]
    simp only [Turn.bytes, hl, if_true] at hhigh
    omega
  simp only [Turn.bytes, hsmall, Bool.false_eq_true, if_false, PAGE_SIZE] at hhigh
  unfold PAGE_SIZE at hends
  have hnot : (r.virt.toNat + x) / 2 ^ r.shift t ≠ (r.virt.toNat + t.offset) / 2 ^ r.shift t := hon
  have hmore : t.offset + 4096 < r.size := by
    rcases r.shift_facts t with ⟨hshift, hunit, -⟩ | ⟨hshift, ⟨hunit, -⟩ | ⟨hl, -⟩⟩
    · rw [hshift] at hnot
      rw [hunit] at hends
      omega
    · rw [hshift] at hnot
      rw [hunit] at hends
      omega
    · rw [hsmall] at hl
      cases hl
  obtain ⟨u, hu, hlow', hhigh'⟩ := cover hmore
  obtain ⟨-, haligned', hlarge'⟩ := turn_facts hu
  have hsmall' : u.large = false := by
    by_contra hl
    rw [Bool.not_eq_false] at hl
    obtain ⟨-, hstart, -⟩ := hlarge' hl
    rcases pageShift_cases (r.call t).flags with hshift | hshift <;>
      rw [show r.shift t = _ from hshift] at hnot <;> omega
  simp only [Turn.bytes, hsmall', Bool.false_eq_true, if_false, PAGE_SIZE] at hhigh'
  have hshift : r.shift u = r.shift t := by rw [shift_eq, shift_eq, hsmall, hsmall']
  refine ⟨u, hu, ?_⟩
  rw [On, hshift]
  rcases pageShift_cases (r.call t).flags with hshift | hshift <;>
    rw [show r.shift t = _ from hshift] at hnot ⊢ <;> omega

-- What the last byte says about the turns.
theorem ends_of_on (ht : t ∈ r.turns) (hon : r.On t (r.size - 1)) :
    (r.virt.toNat % r.unit + (r.size - 1)) / r.unit =
      (r.virt.toNat % r.unit + (r.size - 1) / PAGE_SIZE * PAGE_SIZE) / r.unit := by
  obtain ⟨hinside, haligned, hlarge⟩ := turn_facts ht
  rw [On] at hon
  unfold PAGE_SIZE
  rcases r.shift_facts t with ⟨hshift, hunit, -⟩ | ⟨hshift, ⟨hunit, -⟩ | ⟨hl, hunit⟩⟩
  · rw [hshift] at hon
    rw [hunit]
    omega
  · rw [hshift] at hon
    rw [hunit]
    omega
  · obtain ⟨-, hstart, -⟩ := hlarge hl
    rw [hunit]
    omega

-- A page that lies in another turn's and is not the same lies in a 2 MiB one.
theorem on_of_prefix (hinside : r.virt.toNat % r.unit + r.size ≤ 2 ^ 48) (ht : t ∈ r.turns)
    (hu : u ∈ r.turns) (hpre : (r.call t).path <+: (r.call u).path)
    (hne : (r.call t).path ≠ (r.call u).path) :
    t.large = true ∧ u.large = false ∧ r.On t u.offset := by
  have hlen : (r.call t).path.length ≠ (r.call u).path.length := fun h => hne (hpre.eq_of_length h)
  have hle := hpre.length_le
  rw [MapCall.path_length, MapCall.path_length] at hlen hle
  have hon := (path_within_iff_on hinside ht (turn_facts hu).1).mp
    (hpre.trans (r.call u).path_within)
  unfold call at hlen hle
  cases htl : t.large <;> cases hul : u.large <;> simp_all [huge_or_huge]

theorem calls_fellow (hinside : r.virt.toNat % r.unit + r.size ≤ 2 ^ 48) :
    r.calls.Pairwise MapCall.Fellow := by
  refine List.pairwise_map.mpr ?_
  refine (turnsFrom_pairwise (Nat.zero_mod _)).imp_of_mem fun {t u} ht hu hle => ?_
  by_cases hpath : (r.call t).path = (r.call u).path
  · exact .inr hpath
  refine .inl ⟨fun hpre => ?_, fun hpre => ?_⟩
  · obtain ⟨hlarge, -, hon⟩ := on_of_prefix hinside ht hu hpre hpath
    obtain ⟨-, hstart, -⟩ := (turn_facts ht).2.2 hlarge
    rw [On, shift_eq, if_pos (.inl hlarge)] at hon
    rw [Turn.bytes, if_pos hlarge] at hle
    omega
  · obtain ⟨hlarge, hsmall, hon⟩ := on_of_prefix hinside hu ht hpre (Ne.symm hpath)
    obtain ⟨-, hstart, -⟩ := (turn_facts hu).2.2 hlarge
    rw [On, shift_eq, if_pos (.inl hlarge)] at hon
    rw [Turn.bytes, hsmall] at hle
    simp only [Bool.false_eq_true, if_false, PAGE_SIZE] at hle
    omega

end MapRange

instance : Std.Symm MapCall.Fellow where
  symm _ _ h := h.imp MapCall.Apart.symm Eq.symm

namespace MapRange

variable {r : MapRange} {pml4 : PhysAddr} {p q : Pager}

-- Every byte of the range is translated as the call asks.
def Mapped (r : MapRange) (p : Pager) : Prop :=
  ∀ k < r.size, p.translate (r.virt + BitVec.ofNat 64 k) = some (r.phys + BitVec.ofNat 64 k)

def Unmapped (r : MapRange) (p : Pager) : Prop :=
  ∀ k < r.size, p.translate (r.virt + BitVec.ofNat 64 k) = none

theorem mapped_of_served (hrun : CallsRun pml4 r.calls p q) (hfree : r.Unmapped p)
    (h : r.Served p) : r.Mapped q := by
  intro x hx
  have hfellow := calls_fellow h.inside
  obtain ⟨t, ht, hon⟩ := cover_on h.ends hx
  have hc : r.call t ∈ r.calls := List.mem_map_of_mem ht
  have hnone : p.walk (r.virt + BitVec.ofNat 64 x) = none := (translate_eq_none_iff _ _).mp (hfree x hx)
  have hmapped := hrun.walk_ne_none
    (fun e he => hfellow.forall_of_forall (fun _ _ => .inr rfl) he hc) (h.vacant _ hc)
    (h.cpu _ hc) ((path_within_iff_on h.inside ht hx).mpr hon)
  rcases hrun.walk_cases (r.virt + BitVec.ofNat 64 x) with hsame | ⟨d, hd, hpre, hcpu, -, henters⟩
  · exact absurd (hsame.trans hnone) hmapped
  · obtain ⟨u, hu, rfl⟩ := List.mem_map.mp hd
    rw [henters.translate p.cpuPhysBits_le hcpu hpre]
    exact congrArg some
      (target_of_on h.offsets hu ((path_within_iff_on h.inside hu hx).mp hpre))

-- A byte that is mapped got so by a turn.
theorem Mapped.entered (h : r.Mapped q) (hrun : CallsRun pml4 r.calls p q) (hfree : r.Unmapped p)
    {x : Nat} (hx : x < r.size) :
    ∃ t ∈ r.turns, (r.call t).path <+: walkPath (r.virt + BitVec.ofNat 64 x) ∧
      beyondCpu p.cpuPhysBits (r.call t).phys = false ∧
      (r.calls.Pairwise MapCall.Fellow → p.Vacant (r.call t)) ∧ q.Enters (r.call t) := by
  rcases hrun.walk_cases (r.virt + BitVec.ofNat 64 x) with hsame | ⟨d, hd, hturn⟩
  · have hsome := h x hx
    rw [Pager.translate, hsame, ← Pager.translate, hfree x hx] at hsome
    cases hsome
  · obtain ⟨t, ht, rfl⟩ := List.mem_map.mp hd
    exact ⟨t, ht, hturn⟩

theorem Mapped.offsets (h : r.Mapped q) (hrun : CallsRun pml4 r.calls p q) (hfree : r.Unmapped p)
    (hsize : 1 ≤ r.size) (hoffset : r.virt.toNat % PAGE_SIZE = r.phys.toNat % PAGE_SIZE) :
    r.virt.toNat % r.unit = r.phys.toNat % r.unit := by
  rcases r.unit_cases with ⟨-, hunit⟩ | ⟨hflags, hunit⟩
  · rw [hunit]
    exact hoffset
  · obtain ⟨t, ht, hpre, hcpu, -, henters⟩ := h.entered hrun hfree hsize
    have hfirst := h 0 hsize
    rw [henters.translate p.cpuPhysBits_le hcpu hpre, Option.some.injEq, BitVec.add_zero,
      BitVec.add_zero, ← BitVec.toNat_inj, MapCall.toNat_target] at hfirst
    rw [show pageShift (r.call t).flags = 21 by
      rw [← shift, shift_eq, if_pos (.inr hflags)]] at hfirst
    rw [hunit]
    omega

-- Two bytes that a walk cannot tell apart are not mapped apart.
theorem Mapped.inside (h : r.Mapped q) (hrun : CallsRun pml4 r.calls p q) (hfree : r.Unmapped p)
    (hsize : 1 ≤ r.size) : r.virt.toNat % r.unit + r.size ≤ 2 ^ 48 := by
  by_contra hlong
  obtain ⟨t, ht, hpre, hcpu, -, henters⟩ := h.entered hrun hfree hsize
  have hfirst := h 0 hsize
  have hwrap := h (2 ^ 48 - r.virt.toNat % r.unit) (by omega)
  have hpre' : (r.call t).path <+:
      walkPath (r.virt + BitVec.ofNat 64 (2 ^ 48 - r.virt.toNat % r.unit)) := by
    rw [path_within_iff] at hpre ⊢
    rw [← hpre]
    rcases r.shift_facts t with ⟨hshift, hunit, -⟩ | ⟨hshift, ⟨hunit, -⟩ | ⟨-, hunit⟩⟩ <;>
      rw [hshift, hunit] <;> omega
  rw [henters.translate p.cpuPhysBits_le hcpu hpre, Option.some.injEq, ← BitVec.toNat_inj,
    MapCall.toNat_target] at hfirst
  rw [henters.translate p.cpuPhysBits_le hcpu hpre', Option.some.injEq, ← BitVec.toNat_inj,
    MapCall.toNat_target] at hwrap
  simp only [BitVec.toNat_add, BitVec.toNat_ofNat] at hfirst hwrap
  change 2 ^ r.shift t * (_ / 2 ^ r.shift t) + _ % 2 ^ r.shift t = _ at hfirst
  change 2 ^ r.shift t * (_ / 2 ^ r.shift t) + _ % 2 ^ r.shift t = _ at hwrap
  rcases r.shift_facts t with ⟨hshift, hunit, -⟩ | ⟨hshift, ⟨hunit, -⟩ | ⟨-, hunit⟩⟩ <;>
    rw [hshift] at hfirst hwrap <;> rw [hunit] at hwrap hlong <;> omega

theorem served_of_mapped (hrun : CallsRun pml4 r.calls p q) (hfree : r.Unmapped p)
    (hsize : 1 ≤ r.size) (hoffset : r.virt.toNat % PAGE_SIZE = r.phys.toNat % PAGE_SIZE)
    (h : r.Mapped q) : r.Served p := by
  have hinside := h.inside hrun hfree hsize
  have hfellow := calls_fellow hinside
  -- the turn that entered the page of another one
  have hturn (c : MapCall) (hc : c ∈ r.calls) : ∃ d ∈ r.calls, d.path = c.path ∧
      beyondCpu p.cpuPhysBits d.phys = false ∧ p.Vacant d := by
    obtain ⟨t, ht, rfl⟩ := List.mem_map.mp hc
    obtain ⟨u, hu, hpre, hcpu, hvacant, -⟩ := h.entered hrun hfree (turn_facts ht).1
    have hd : r.call u ∈ r.calls := List.mem_map_of_mem hu
    refine ⟨r.call u, hd, ?_, hcpu, hvacant hfellow⟩
    rcases hfellow.forall_of_forall (fun _ _ => .inr rfl) hd hc with hapart | hsame
    · exact absurd (r.call t).path_within (hapart.not_both hpre)
    · exact hsame
  refine ⟨h.offsets hrun hfree hsize hoffset, hinside, ?_, fun c hc => ?_, fun c hc => ?_⟩
  · obtain ⟨t, ht, hpre, -⟩ := h.entered hrun hfree (Nat.sub_lt hsize Nat.zero_lt_one)
    exact ends_of_on ht ((path_within_iff_on hinside ht (Nat.sub_lt hsize Nat.zero_lt_one)).mp hpre)
  · obtain ⟨d, -, hpath, -, hvacant⟩ := hturn c hc
    exact (p.vacant_congr hpath).mp hvacant
  · obtain ⟨d, hd, hpath, hcpu, -⟩ := hturn c hc
    exact ⟨d, hd, hpath, hcpu⟩

end MapRange

-- In every reachable state, a call of pager_map_range for bytes that are not
-- translated maps all of them exactly when it is served.
theorem pagerMapRange_mapped_iff {alloc : Kernel (Option PhysAddr)} (halloc : FreshTables alloc)
    {start s t : KernelState} {pml4 : PhysAddr} (hstart : start.rest.Started pml4)
    (hs : Reachable (PagerStep alloc) start s) {r : MapRange} (hsize : 1 ≤ r.size)
    (hoffset : r.virt.toNat % PAGE_SIZE = r.phys.toNat % PAGE_SIZE) (hfree : r.Unmapped s.rest)
    (hcall : Returns (pagerMapRange alloc r.virt r.phys r.size r.flags) s () t) :
    r.Mapped t.rest ↔ r.Served s.rest := by
  rw [r.pagerMapRange_eq] at hcall
  have hrun := (mapCalls_run halloc r.calls (tree_of_reachable halloc hstart hs)).of_returns hcall
  exact ⟨MapRange.served_of_mapped hrun hfree hsize hoffset, MapRange.mapped_of_served hrun hfree⟩

theorem Pager.Started.unmapped {p : Pager} {pml4 : PhysAddr} (h : p.Started pml4)
    (r : MapRange) : r.Unmapped p := by
  intro k _
  rw [translate_eq_none_iff, h.tree.walk_end (follow_nil ..)
    (by rw [h.empty]; exact pageLink_none_of_not_present present_zero) (List.prefix_append _ _),
    h.empty, present_zero]
  rfl

-- A 2 MiB page and a 4 KiB one behind it.
def someRange : MapRange := ⟨0x400000, 0x80000000, 0x200800, PAGE_RW⟩

theorem pagerMapRange_mapped_iff_some :
    ∃ t, Returns (pagerMapRange bumpTables someRange.virt someRange.phys someRange.size
        someRange.flags) freshMachine () t ∧
      (someRange.Mapped t.rest ↔ someRange.Served freshMachine.rest) := by
  obtain ⟨t, ht⟩ := returns_of_value (m := pagerMapRange bumpTables someRange.virt someRange.phys
    someRange.size someRange.flags) (s := freshMachine) (a := ()) (by decide +kernel)
  exact ⟨t, ht, pagerMapRange_mapped_iff bumpTables_fresh freshMachine_started ⟨[], .nil⟩
    (by decide) (by decide) (freshMachine_started.unmapped _) ht⟩

-- A page in size that lies in two pages.
def straddling : MapRange := ⟨0x400800, 0x80000800, 0x1000, PAGE_RW⟩

def mapStraddling : Kernel (Option PhysAddr) := do
  pagerMapRange bumpTables straddling.virt straddling.phys straddling.size straddling.flags
  return (← get).rest.translate (straddling.virt + BitVec.ofNat 64 0x800)

-- Its second half stays unmapped.
theorem pagerMapRange_stops_short :
    ∃ t, straddling.virt.toNat % PAGE_SIZE = straddling.phys.toNat % PAGE_SIZE ∧
      straddling.Unmapped freshMachine.rest ∧
      Returns (pagerMapRange bumpTables straddling.virt straddling.phys straddling.size
        straddling.flags) freshMachine () t ∧ ¬ straddling.Mapped t.rest := by
  obtain ⟨u, hu⟩ := returns_of_value (m := mapStraddling) (s := freshMachine) (a := none)
    (by decide +kernel)
  simp only [mapStraddling, returns_bind, returns_get, returns_pure] at hu
  obtain ⟨_, t, hcall, v, w, ⟨rfl, rfl⟩, hnone, rfl⟩ := hu
  refine ⟨t, by decide, freshMachine_started.unmapped _, hcall, fun hmapped => ?_⟩
  have hbyte := hmapped 0x800 (by decide)
  rw [hnone] at hbyte
  cases hbyte

end AosKernel.Mm
