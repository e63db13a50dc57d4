import AosKernel.Mm.PagerTranslation

namespace AosKernel.Mm

open Verif Verif.Exec Verif.Radix

-- A call of pager_map.
structure MapCall where
  virt : BitVec 64
  phys : BitVec 64
  flags : BitVec 64

namespace MapCall

def path (c : MapCall) : List Index := pagePath c.flags c.virt

-- Both addresses start a page of the size asked for, and the processor has
-- the physical one.
structure Proper (c : MapCall) (bits : Nat) : Prop where
  virt : c.virt.toNat % 2 ^ pageShift c.flags = 0
  phys : c.phys.toNat % 2 ^ pageShift c.flags = 0
  cpu : beyondCpu bits c.phys = false

-- Neither page lies in the other.
def Apart (c d : MapCall) : Prop := ¬ c.path <+: d.path ∧ ¬ d.path <+: c.path

end MapCall

-- Every byte of the page is translated as the call asks.
def Pager.Maps (p : Pager) (c : MapCall) : Prop :=
  ∀ k < 2 ^ pageShift c.flags,
    p.translate (c.virt + BitVec.ofNat 64 k) = some (c.phys + BitVec.ofNat 64 k)

-- Nothing is entered where the call would enter the page.
def Pager.Vacant (p : Pager) (c : MapCall) : Prop :=
  if huge c.flags then present (p.pdSlot c.virt) = false
  else huge (p.pdSlot c.virt) = false ∧ present (p.ptSlot c.virt) = false

theorem pagePath_prefix_iff (flags v w : BitVec 64) :
    pagePath flags w <+: walkPath v ↔ pageNumber flags v = pageNumber flags w := by
  cases hflags : huge flags with
  | true =>
      rw [← prefix_iff_huge hflags]
      simp [pagePath, walkPath, hflags]
  | false =>
      rw [← prefix_iff_page hflags]
      simp [pagePath, walkPath, hflags]

theorem MapCall.Apart.symm {c d : MapCall} (h : c.Apart d) : d.Apart c := ⟨h.2, h.1⟩

-- No address lies in two pages that are apart.
theorem MapCall.Apart.not_both {c d : MapCall} (h : c.Apart d) {v : BitVec 64}
    (hc : c.path <+: walkPath v) : ¬ d.path <+: walkPath v := by
  intro hd
  rcases List.prefix_or_prefix_of_prefix hc hd with hcd | hdc
  · exact h.1 hcd
  · exact h.2 hdc

theorem MapCall.Proper.inside {c : MapCall} {bits : Nat} (h : c.Proper bits) {k : Nat}
    (hk : k < 2 ^ pageShift c.flags) : c.path <+: walkPath (c.virt + BitVec.ofNat 64 k) :=
  (pagePath_prefix_iff _ _ _).mpr (pageNumber_add h.virt hk)

-- Walks that agree in the page make no difference to it.
theorem Pager.Maps.congr {p q : Pager} {c : MapCall} {bits : Nat} (hc : c.Proper bits)
    (h : ∀ v, c.path <+: walkPath v → q.walk v = p.walk v) : q.Maps c ↔ p.Maps c := by
  refine forall_congr' fun k => forall_congr' fun hk => ?_
  rw [Pager.translate, Pager.translate, h _ (hc.inside hk)]

section Call

variable {p q : Pager} {pml4 : PhysAddr} {c : MapCall} {r : Bool}

-- A call enters its page where nothing is, and else leaves the walks alone.
theorem MapResult.maps_iff (htree : p.Tree pml4) (hc : c.Proper p.cpuPhysBits)
    (h : MapResult p q pml4 c.virt c.phys c.flags r) : q.Maps c ↔ p.Maps c ∨ p.Vacant c := by
  unfold Pager.Vacant
  cases h with
  | beyond hbeyond _ =>
      have hcpu := hc.cpu
      rw [hbeyond] at hcpu
      cases hcpu
  | hugeTaken _ hflags htaken hgrown =>
      rw [Pager.Maps.congr hc fun v _ => hgrown.walk v, if_pos hflags, htaken]
      simp
  | insideHuge _ hflags htaken hgrown =>
      rw [Pager.Maps.congr hc fun v _ => hgrown.walk v, hflags, htaken]
      simp
  | pageTaken _ hflags _ htaken hgrown =>
      rw [Pager.Maps.congr hc fun v _ => hgrown.walk v, hflags, htaken]
      simp
  | hugeSet hcpu hflags hfree hset =>
      refine iff_of_true ?_ (.inr (by rw [if_pos hflags, hfree]))
      exact MapResult.mapped_of_not_inside htree hc.virt hc.phys (.hugeSet hcpu hflags hfree hset)
        (.inl hflags)
  | pageSet hcpu hflags hsmall hfree hset =>
      refine iff_of_true ?_ (.inr (by simp [hflags, hsmall, hfree]))
      exact MapResult.mapped_of_not_inside htree hc.virt hc.phys
        (.pageSet hcpu hflags hsmall hfree hset) (.inr hsmall)

theorem MapResult.walk_apart (h : MapResult p q pml4 c.virt c.phys c.flags r) {v : BitVec 64}
    (hv : ¬ c.path <+: walkPath v) : q.walk v = p.walk v :=
  h.walk_frame fun heq => hv ((pagePath_prefix_iff _ _ _).mpr heq)

theorem MapResult.bits (h : MapResult p q pml4 c.virt c.phys c.flags r) :
    q.cpuPhysBits = p.cpuPhysBits := by
  cases h with
  | beyond _ hq => rw [hq]
  | hugeTaken _ _ _ hgrown | insideHuge _ _ _ hgrown | pageTaken _ _ _ _ hgrown => exact hgrown.bits
  | hugeSet _ _ _ hset | pageSet _ _ _ _ hset =>
      obtain ⟨p', a, hgrown, -, rfl⟩ := hset
      exact hgrown.bits

-- What the call before enters leaves a page apart from its own vacant or not.
theorem Pager.SlotsAlong.vacant_iff {d : MapCall} (h : p.SlotsAlong q c.path) (hcd : c.Apart d) :
    q.Vacant d ↔ p.Vacant d := by
  unfold Pager.Vacant
  cases hflags : huge d.flags with
  | true =>
      have hpath : d.path = [idxPml4 d.virt, idxPdpt d.virt] ++ [idxPd d.virt] := by
        simp [MapCall.path, pagePath, walkPath, hflags]
      rcases h [idxPml4 d.virt, idxPdpt d.virt] (idxPd d.virt) with hsame | ⟨hway, -⟩
      · simp only [Pager.pdSlot, hsame, if_true]
      · exact absurd (hpath ▸ hway) hcd.2
  | false =>
      have hpath : d.path = [idxPml4 d.virt, idxPdpt d.virt, idxPd d.virt] ++ [idxPt d.virt] := by
        simp [MapCall.path, pagePath, walkPath, hflags]
      have hpt : q.ptSlot d.virt = p.ptSlot d.virt := by
        rcases h [idxPml4 d.virt, idxPdpt d.virt, idxPd d.virt] (idxPt d.virt) with hsame | ⟨hway, -⟩
        · exact hsame
        · exact absurd (hpath ▸ hway) hcd.2
      have hpd : huge (q.pdSlot d.virt) = huge (p.pdSlot d.virt) := by
        rcases h [idxPml4 d.virt, idxPdpt d.virt] (idxPd d.virt) with hsame | ⟨-, hbefore⟩
        · exact congrArg huge hsame
        · have hne : [idxPml4 d.virt, idxPdpt d.virt] ++ [idxPd d.virt] ≠ c.path := by
            intro heq
            refine hcd.1 ⟨[idxPt d.virt], ?_⟩
            rw [← heq, hpath]
            rfl
          obtain ⟨hq, hp⟩ := hbefore hne
          exact hq.trans (hp rfl).symm
      simp only [hpt, hpd, Bool.false_eq_true, if_false]

theorem Pager.Started.vacant (h : p.Started pml4) (c : MapCall) : p.Vacant c := by
  unfold Pager.Vacant Pager.pdSlot Pager.ptSlot
  split
  · rw [h.slot_eq, present_zero]
  · rw [h.slot_eq, h.slot_eq, huge_zero, present_zero]
    exact ⟨rfl, rfl⟩

end Call

section Calls

variable {alloc : Kernel (Option PhysAddr)}

-- Calls of pager_map whose results nobody looks at.
def mapCalls (alloc : Kernel (Option PhysAddr)) : List MapCall → Kernel Unit
  | [] => return ()
  | c :: calls => do
      let _ ← pagerMap alloc c.virt c.phys c.flags
      mapCalls alloc calls

theorem mapCalls_append (l r : List MapCall) :
    mapCalls alloc (l ++ r) = (do mapCalls alloc l; mapCalls alloc r) := by
  induction l with
  | nil => simp [mapCalls]
  | cons c l ih => simp [mapCalls, ih]

theorem mapCalls_maintains {I : KernelState → Prop} {E : Halt → Prop} (hI : PagerParts I E)
    (h : Maintains I E alloc) (calls : List MapCall) : Maintains I E (mapCalls alloc calls) := by
  induction calls with
  | nil => exact .pure _
  | cons c calls ih => exact .bind (pagerMap_maintains hI h _ _ _) fun _ => ih

-- From `p` to `q` the pages of `calls` have been entered where they were
-- vacant, and nothing else.
structure CallsMapped (calls : List MapCall) (p q : Pager) (pml4 : PhysAddr) : Prop where
  tree : q.Tree pml4
  bits : q.cpuPhysBits = p.cpuPhysBits
  frame : ∀ v, (∀ c ∈ calls, ¬ c.path <+: walkPath v) → q.walk v = p.walk v
  maps : ∀ c ∈ calls, q.Maps c ↔ p.Maps c ∨ p.Vacant c

-- One call before others.
theorem CallsMapped.cons {p q r : Pager} {pml4 : PhysAddr} {c : MapCall} {calls : List MapCall}
    {b : Bool} (htree : p.Tree pml4) (hproper : ∀ d ∈ c :: calls, d.Proper p.cpuPhysBits)
    (hapart : ∀ d ∈ calls, c.Apart d) (hcall : MapResult p q pml4 c.virt c.phys c.flags b)
    (hslots : p.SlotsAlong q c.path) (h : CallsMapped calls q r pml4) :
    CallsMapped (c :: calls) p r pml4 := by
  refine ⟨h.tree, h.bits.trans hcall.bits, fun v hv => ?_, fun d hd => ?_⟩
  · rw [h.frame v fun d hd => hv d (List.mem_cons_of_mem _ hd),
      hcall.walk_apart (hv c List.mem_cons_self)]
  · have hd' := hproper d hd
    rcases List.mem_cons.mp hd with rfl | hd
    · rw [Pager.Maps.congr hd' fun v hv => h.frame v fun e he => (hapart e he).not_both hv]
      exact hcall.maps_iff htree hd'
    · rw [h.maps d hd, hslots.vacant_iff (hapart d hd),
        Pager.Maps.congr hd' fun v hv => hcall.walk_apart ((hapart d hd).symm.not_both hv)]

theorem mapCalls_spec {pml4 : PhysAddr} {I : KernelState → Prop} {E : Halt → Prop}
    {N : List Index → Prop} {Lost : Pager → Prop} (source : TableSource alloc pml4 I E N Lost)
    {calls : List MapCall}
    {bits : Nat} (hproper : ∀ c ∈ calls, c.Proper bits) (hapart : calls.Pairwise MapCall.Apart)
    (hN : ∀ c ∈ calls, ∀ path, path ≠ [] → path <+: c.path → path ≠ c.path → N path)
    {s : KernelState} (hI : I s) (htree : s.rest.Tree pml4) (hbits : s.rest.cpuPhysBits = bits)
    (hlock : .pml4 ∈ s.held → E (.deadlock .pml4)) :
    Sat (mapCalls alloc calls) s (fun _ t => ¬ Lost t.rest → I t ∧ t.held = s.held ∧
      CallsMapped calls s.rest t.rest pml4) E := by
  induction calls generalizing s with
  | nil => exact fun _ => ⟨hI, rfl, htree, rfl, fun _ _ => rfl, by simp⟩
  | cons c calls ih =>
      obtain ⟨hfirst, hrest⟩ := List.pairwise_cons.mp hapart
      refine bind_kept (pagerMap_result source hI htree hlock (hN c List.mem_cons_self))
        (fun _ => mapCalls_maintains source.parts source.lost calls) fun r t ht => ?_
      obtain ⟨hI', hheld, hcall, hslots⟩ := ht
      rw [← hheld] at hlock
      refine (ih (fun d hd => hproper d (List.mem_cons_of_mem _ hd)) hrest
        (fun d hd => hN d (List.mem_cons_of_mem _ hd)) hI' (hcall.tree htree)
        (hcall.bits.trans hbits) hlock).imp fun _ u hu hkept => ?_
      have hu := hu hkept
      exact ⟨hu.1, hu.2.1.trans hheld,
        .cons htree (fun d hd => hbits ▸ hproper d hd) hfirst hcall hslots hu.2.2⟩

end Calls

-- The addresses of the page among the 48 bits that a walk looks at.
def MapCall.span (c : MapCall) : Span := ⟨c.virt.toNat % 2 ^ 48, 2 ^ pageShift c.flags⟩

theorem MapCall.apart_of_spans {c d : MapCall} {bits : Nat} (hc : c.Proper bits)
    (hd : d.Proper bits) (h : c.span.Apart d.span) : c.Apart d := by
  have hmem {c d : MapCall} (hc : c.Proper bits) (hpre : c.path <+: d.path) :
      Span.Mem (d.virt.toNat % 2 ^ 48) c.span := by
    have hwalk : c.path <+: walkPath d.virt := hpre.trans (List.take_prefix _ _)
    have hnumber := (pagePath_prefix_iff _ _ _).mp hwalk
    have halign := hc.virt
    unfold pageNumber pageShift at hnumber
    unfold pageShift at halign
    unfold Span.Mem MapCall.span pageShift
    dsimp only
    split at hnumber <;> simp_all <;> omega
  have hself (c : MapCall) : Span.Mem (c.virt.toNat % 2 ^ 48) c.span :=
    ⟨le_refl _, Nat.lt_add_of_pos_right (Nat.two_pow_pos _)⟩
  exact ⟨fun hpre => h _ (hmem hc hpre) (hself d), fun hpre => h _ (hself c) (hmem hd hpre)⟩

-- The arguments of pager_map_range.
structure MapRange where
  virt : BitVec 64
  phys : BitVec 64
  size : Nat
  flags : BitVec 64

namespace MapRange

-- One turn of the loop: the offset, and whether the page is of 2 MiB.
structure Turn where
  offset : Nat
  large : Bool

def Turn.bytes (t : Turn) : Nat := if t.large then 0x200000 else PAGE_SIZE

variable (r : MapRange)

def call (t : Turn) : MapCall :=
  ⟨r.virt + BitVec.ofNat 64 t.offset, r.phys + BitVec.ofNat 64 t.offset,
    if t.large then r.flags ||| PAGE_HUGE else r.flags⟩

def large (offset : Nat) : Bool :=
  r.size - offset ≥ 0x200000 ∧ (r.virt + BitVec.ofNat 64 offset) % 0x200000 = 0 ∧
    (r.phys + BitVec.ofNat 64 offset) % 0x200000 = 0

def turnsFrom : Nat → Nat → List Turn
  | 0, _ => []
  | turns + 1, offset =>
      if offset < r.size then
        let t : Turn := ⟨offset, r.large offset⟩
        t :: turnsFrom turns (offset + t.bytes)
      else []

def turns : List Turn := r.turnsFrom ((r.size + (PAGE_SIZE - 1)) / PAGE_SIZE) 0

def calls : List MapCall := r.turns.map r.call

theorem mapRangeFrom_eq (alloc : Kernel (Option PhysAddr)) (turns offset : Nat) :
    mapRangeFrom alloc r.virt r.phys r.size r.flags turns offset =
      mapCalls alloc ((r.turnsFrom turns offset).map r.call) := by
  induction turns generalizing offset with
  | zero => rfl
  | succ turns ih =>
      unfold mapRangeFrom turnsFrom
      by_cases hend : offset < r.size
      · rw [if_pos hend, if_pos hend]
        cases hlarge : r.large offset with
        | true =>
            have hcond := hlarge
            simp only [large, decide_eq_true_eq] at hcond
            dsimp only
            rw [if_pos hcond, List.map_cons]
            simp only [mapCalls, call, Turn.bytes, if_true, ih]
        | false =>
            have hcond := hlarge
            simp only [large, decide_eq_false_iff_not] at hcond
            dsimp only
            rw [if_neg hcond, List.map_cons]
            simp only [mapCalls, call, Turn.bytes, Bool.false_eq_true, if_false, ih]
      · rw [if_neg hend, if_neg hend]
        rfl

theorem pagerMapRange_eq (alloc : Kernel (Option PhysAddr)) :
    pagerMapRange alloc r.virt r.phys r.size r.flags = mapCalls alloc r.calls :=
  r.mapRangeFrom_eq alloc _ _

theorem Turn.bytes_pos (t : Turn) : 0 < t.bytes := by
  unfold Turn.bytes PAGE_SIZE
  split <;> decide

-- A turn of the loop when it was at `offset`.
structure Taken (offset : Nat) (t : Turn) : Prop where
  after : offset ≤ t.offset
  inside : t.offset < r.size
  aligned : t.offset % PAGE_SIZE = 0
  large : t.large = r.large t.offset

variable {r}

theorem taken {turns offset : Nat} (haligned : offset % PAGE_SIZE = 0) {t : Turn}
    (ht : t ∈ r.turnsFrom turns offset) : r.Taken offset t := by
  induction turns generalizing offset with
  | zero => cases ht
  | succ turns ih =>
      unfold turnsFrom at ht
      split at ht
      · rcases List.mem_cons.mp ht with rfl | ht
        · exact ⟨le_refl _, ‹_›, haligned, rfl⟩
        · have hnext : (offset + Turn.bytes ⟨offset, r.large offset⟩) % PAGE_SIZE = 0 := by
            unfold Turn.bytes
            unfold PAGE_SIZE at haligned ⊢
            split <;> omega
          have htaken := ih hnext ht
          exact ⟨Nat.le_trans (Nat.le_add_right _ _) htaken.after, htaken.inside, htaken.aligned,
            htaken.large⟩
      · cases ht

-- Every later turn starts behind the page of the one before.
theorem turnsFrom_pairwise {turns offset : Nat} (haligned : offset % PAGE_SIZE = 0) :
    (r.turnsFrom turns offset).Pairwise fun t u => t.offset + t.bytes ≤ u.offset := by
  induction turns generalizing offset with
  | zero => exact .nil
  | succ turns ih =>
      unfold turnsFrom
      split
      · have hnext : (offset + Turn.bytes ⟨offset, r.large offset⟩) % PAGE_SIZE = 0 := by
          unfold Turn.bytes
          unfold PAGE_SIZE at haligned ⊢
          split <;> omega
        exact .cons (fun u hu => (taken hnext hu).after) (ih hnext)
      · exact .nil

-- The turns leave no byte out.
theorem turnsFrom_cover {turns offset x : Nat} (hturns : r.size ≤ offset + turns * PAGE_SIZE)
    (hx : offset ≤ x) (hsize : x < r.size) :
    ∃ t ∈ r.turnsFrom turns offset, t.offset ≤ x ∧ x < t.offset + t.bytes := by
  induction turns generalizing offset with
  | zero => omega
  | succ turns ih =>
      unfold turnsFrom
      rw [if_pos (by omega)]
      by_cases hfirst : x < offset + Turn.bytes ⟨offset, r.large offset⟩
      · exact ⟨_, List.mem_cons_self, hx, hfirst⟩
      · have hbytes : PAGE_SIZE ≤ Turn.bytes ⟨offset, r.large offset⟩ := by
          unfold Turn.bytes PAGE_SIZE
          split <;> decide
        have hmore : r.size ≤ offset + Turn.bytes ⟨offset, r.large offset⟩ + turns * PAGE_SIZE := by
          rw [Nat.succ_mul] at hturns
          omega
        obtain ⟨t, ht, hcover⟩ := ih hmore (by omega)
        exact ⟨t, List.mem_cons_of_mem _ ht, hcover⟩

theorem cover {x : Nat} (hx : x < r.size) :
    ∃ t ∈ r.turns, t.offset ≤ x ∧ x < t.offset + t.bytes :=
  turnsFrom_cover (by unfold PAGE_SIZE; omega) (Nat.zero_le x) hx

-- A range of pages that a walk tells apart and the processor has.
structure Fits (r : MapRange) (bits : Nat) : Prop where
  small : huge r.flags = false
  virt : r.virt.toNat % PAGE_SIZE = 0
  phys : r.phys.toNat % PAGE_SIZE = 0
  inside : r.virt.toNat % 2 ^ 48 + alignUpPage r.size ≤ 2 ^ 48
  cpu : r.phys.toNat + r.size ≤ 2 ^ bits
  bits_le : bits ≤ 52

-- The pages of a range among the 48 bits.
def span (r : MapRange) : Span := ⟨r.virt.toNat % 2 ^ 48, alignUpPage r.size⟩

section Fits

variable {bits : Nat} (h : r.Fits bits) {t : Turn}

include h

theorem pageShift_call (t : Turn) : 2 ^ pageShift (r.call t).flags = t.bytes := by
  unfold pageShift call Turn.bytes
  cases t.large with
  | true => simp [huge_or_huge]
  | false => simp [h.small, PAGE_SIZE]

theorem toNat_phys (ht : t ∈ r.turns) : (r.call t).phys.toNat = r.phys.toNat + t.offset := by
  have hinside := (taken (Nat.zero_mod _) ht).inside
  have hcpu := h.cpu
  have hbits : 2 ^ bits ≤ 2 ^ 52 := Nat.pow_le_pow_right (by decide) h.bits_le
  rw [call, BitVec.toNat_add, BitVec.toNat_ofNat, Nat.add_mod_mod, Nat.mod_eq_of_lt (by omega)]

omit h in
theorem bytes_le (ht : t ∈ r.turns) : t.offset + t.bytes ≤ alignUpPage r.size := by
  have htaken := taken (Nat.zero_mod _) ht
  have hinside := htaken.inside
  have haligned := htaken.aligned
  unfold Turn.bytes alignUpPage
  unfold PAGE_SIZE at haligned ⊢
  split
  · rename_i hlarge
    rw [htaken.large] at hlarge
    simp only [MapRange.large, decide_eq_true_eq] at hlarge
    omega
  · omega

theorem span_call (ht : t ∈ r.turns) :
    (r.call t).span = ⟨r.span.base + t.offset, t.bytes⟩ := by
  have hle := bytes_le ht
  have hpos := t.bytes_pos
  have hinside := h.inside
  have hlow : (r.call t).virt.toNat % 2 ^ 48 = r.virt.toNat % 2 ^ 48 + t.offset := by
    rw [call, BitVec.toNat_add, BitVec.toNat_ofNat]
    omega
  rw [MapCall.span, pageShift_call h, hlow, span]

theorem call_proper (ht : t ∈ r.turns) : (r.call t).Proper bits := by
  have htaken := taken (Nat.zero_mod _) ht
  have haligned := htaken.aligned
  have hlarge := htaken.large
  have hinside := htaken.inside
  refine ⟨?_, ?_, not_beyond_of_lt h.bits_le ?_⟩
  · rw [pageShift_call h]
    unfold Turn.bytes
    split
    · rename_i htrue
      rw [hlarge] at htrue
      simp only [MapRange.large, decide_eq_true_eq] at htrue
      simpa [call] using congrArg BitVec.toNat htrue.2.1
    · have hvirt := h.virt
      rw [call, BitVec.toNat_add, BitVec.toNat_ofNat]
      unfold PAGE_SIZE at hvirt haligned ⊢
      omega
  · rw [pageShift_call h]
    unfold Turn.bytes
    split
    · rename_i htrue
      rw [hlarge] at htrue
      simp only [MapRange.large, decide_eq_true_eq] at htrue
      simpa [call] using congrArg BitVec.toNat htrue.2.2
    · have hphys := h.phys
      rw [toNat_phys h ht]
      unfold PAGE_SIZE at hphys haligned ⊢
      omega
  · rw [toNat_phys h ht]
    have := h.cpu
    omega

theorem calls_proper {c : MapCall} (hc : c ∈ r.calls) : c.Proper bits := by
  obtain ⟨t, ht, rfl⟩ := List.mem_map.mp hc
  exact call_proper h ht

theorem span_subset {c : MapCall} (hc : c ∈ r.calls) {x : Nat} (hx : Span.Mem x c.span) :
    Span.Mem x r.span := by
  obtain ⟨t, ht, rfl⟩ := List.mem_map.mp hc
  have hle := bytes_le ht
  rw [span_call h ht] at hx
  unfold Span.Mem span at *
  dsimp only at *
  omega

theorem calls_apart : r.calls.Pairwise MapCall.Apart := by
  refine List.pairwise_map.mpr ?_
  refine (turnsFrom_pairwise (Nat.zero_mod _)).imp_of_mem fun {t u} ht hu hle => ?_
  refine MapCall.apart_of_spans (call_proper h ht) (call_proper h hu) fun x hx hx' => ?_
  rw [span_call h ht] at hx
  rw [span_call h hu] at hx'
  unfold Span.Mem at hx hx'
  dsimp only at hx hx'
  omega

-- A range is mapped when its pages are.
theorem translate_of_maps {p : Pager} (hmaps : ∀ c ∈ r.calls, p.Maps c) {x : Nat}
    (hx : x < r.size) :
    p.translate (r.virt + BitVec.ofNat 64 x) = some (r.phys + BitVec.ofNat 64 x) := by
  obtain ⟨t, ht, hlow, hhigh⟩ := cover hx
  have hpage := hmaps _ (List.mem_map_of_mem ht) (x - t.offset)
  rw [pageShift_call h] at hpage
  have hsum (a : BitVec 64) : a + BitVec.ofNat 64 t.offset + BitVec.ofNat 64 (x - t.offset) =
      a + BitVec.ofNat 64 x := by
    rw [BitVec.add_assoc, ← BitVec.ofNat_add, Nat.add_sub_cancel' hlow]
  simpa only [call, hsum] using hpage (by omega)

end Fits

-- Ranges on separate pages.
theorem flatMap_calls_apart {ranges : List MapRange} {bits : Nat}
    (hfits : ∀ r ∈ ranges, r.Fits bits)
    (hapart : ranges.Pairwise fun r r' => r.span.Apart r'.span) :
    (ranges.flatMap calls).Pairwise MapCall.Apart := by
  refine List.pairwise_flatMap.mpr ⟨fun r hr => calls_apart (hfits r hr), ?_⟩
  refine hapart.imp_of_mem fun {r r'} hr hr' hspans c hc d hd => ?_
  refine MapCall.apart_of_spans (calls_proper (hfits r hr) hc) (calls_proper (hfits r' hr') hd)
    fun x hx hx' => ?_
  exact hspans x (span_subset (hfits r hr) hc hx) (span_subset (hfits r' hr') hd hx')

end MapRange

end AosKernel.Mm
