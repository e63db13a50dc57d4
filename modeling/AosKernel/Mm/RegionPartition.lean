import AosKernel.Lib.Trace
import AosKernel.Mm.RegionFree

namespace AosKernel.Mm

open Verif Verif.Exec Verif.Span

namespace Region

-- The headers that are of one type.
def ofType (r : Region) (type : AvmfHeaderType) : List Extent :=
  ((List.range r.made).filter fun h => r.type h = type).map r.extent

def headerSpans (r : Region) : List Span :=
  (r.ofType .alloc ++ r.ofType .cache).map Extent.span

-- The free ranges and the headers of both lists tile the region, and
-- allocated_bytes counts the headers.
structure Partition (r : Region) (lo hi : Nat) : Prop where
  tiles : Tiles (r.freeList.map Range.span ++ r.headerSpans) lo hi
  allocated : r.allocatedBytes = total r.headerSpans

section Partition

variable {r : Region} {lo hi : Nat}

theorem mem_ofType {type : AvmfHeaderType} {e : Extent} :
    e ∈ r.ofType type ↔ ∃ h < r.made, r.type h = type ∧ r.extent h = e := by
  simp [ofType, and_assoc]

-- Without corrupt headers the two lists are all there is.
theorem headerSpans_perm (hkept : ¬ r.Lost) : (r.extents.map Extent.span).Perm r.headerSpans := by
  have hcache : (List.range r.made).filter (fun h => r.type h = .cache) =
      (List.range r.made).filter fun h => !decide (r.type h = .alloc) := by
    refine List.filter_congr fun h hh => ?_
    cases htype : r.type h with
    | corrupt => exact absurd ⟨h, List.mem_range.mp hh, htype⟩ hkept
    | cache => rfl
    | alloc => rfl
  refine List.Perm.map Extent.span ?_
  rw [ofType, ofType, ← List.map_append, hcache]
  exact (List.filter_append_perm _ _).symm.map r.extent

-- The memory of a corrupt header is missing from the partition.
theorem Inv.partition_iff (hinv : r.Inv lo hi) : r.Partition lo hi ↔ ¬ r.Lost := by
  constructor
  · rintro hpart ⟨h, hh, hcorrupt⟩
    have hstart := hinv.mem_start hh
    have hwithin := hinv.extent_mem hh
    obtain ⟨s, hs, hmem⟩ := (hpart.tiles.union (r.extent h).virtAddr).mpr ⟨hwithin.1, by omega⟩
    rw [List.mem_append, List.mem_map, headerSpans, List.mem_map] at hs
    rcases hs with ⟨f, hf, rfl⟩ | ⟨e, he, rfl⟩
    · exact hinv.apart_free hh hf _ hstart hmem
    · rw [List.mem_append, mem_ofType, mem_ofType] at he
      rcases he with ⟨k, hk, htype, rfl⟩ | ⟨k, hk, htype, rfl⟩ <;>
      · rw [← hinv.eq_of_mem hh hk hstart hmem, hcorrupt] at htype
        cases htype
  · intro hkept
    have hperm := headerSpans_perm hkept
    exact ⟨hinv.tiles.perm (hperm.append_left _), hinv.allocated.trans (total_perm hperm)⟩

end Partition

end Region

open Region

theorem PAGE_SIZE_dvd_align4k (value : Nat) : PAGE_SIZE ∣ align4k value := by
  unfold align4k alignUpPage
  split
  · exact Nat.dvd_zero _
  · exact Nat.dvd_mul_left _ _

theorem avmfRegionInit_inv (v : VirtualRegion) (node : Nat) :
    (avmfRegionInit node v.base v.limit).Inv v.base v.limit := by
  refine ⟨rfl, rfl, rfl, rfl, rfl, fun _ => ⟨rfl, rfl⟩, fun _ _ => rfl, ?_,
    tiles_singleton v.base_lt, rfl⟩
  intro h hh
  exact absurd hh (Nat.not_lt_zero h)

theorem avmfRegionInit_kept (node base limit : Nat) : ¬ (avmfRegionInit node base limit).Lost := by
  rintro ⟨h, hh, -⟩
  exact Nat.not_lt_zero h hh

inductive RegionCall
  | alloc (size align minVirt maxVirt : Nat)
  | free (base size : Nat)

namespace RegionCall

-- Sizes are whole pages, alignments powers of two, bounds 64-bit values.
def Valid : RegionCall → Prop
  | .alloc size align minVirt maxVirt =>
      0 < size ∧ PAGE_SIZE ∣ size ∧ (∃ k < 64, align = 2 ^ k) ∧
        minVirt < 2 ^ 64 ∧ maxVirt < 2 ^ 64
  | .free base size => 0 < size ∧ PAGE_SIZE ∣ size ∧ base < 2 ^ 64

-- The turns of the walk that the call begins with.
def turns (r : Region) : RegionCall → List (Region × Nat)
  | .alloc size align minVirt maxVirt => r.allocTurns size align minVirt maxVirt
  | .free base size => r.freeTurns base size

-- No turn comes to a header whose own list counts none.
def StripsNone (r : Region) (call : RegionCall) : Prop := ∀ x ∈ call.turns r, ¬ x.1.Strips x.2

instance (r : Region) (call : RegionCall) : Decidable (call.StripsNone r) := by
  unfold StripsNone; infer_instance

end RegionCall

section Runs

variable {ε σ : Type} (pool : NodePool ε σ)

-- One call on a region. The second component is the state of everything the
-- node allocators work on.
def RegionStep (before : Region × σ) (call : RegionCall) (after : Region × σ) : Prop :=
  call.Valid ∧ match call with
  | .alloc size align minVirt maxVirt => ∃ hdr,
      Returns (avmfRegionAlloc pool before.1 size align minVirt maxVirt) before.2
        (hdr, after.1) after.2
  | .free base size => Returns (avmfRegionFree pool before.1 base size) before.2 after.1 after.2

-- A call keeps the region in order, and makes headers corrupt exactly where its
-- walk strips one.
theorem RegionStep.spec {v : VirtualRegion} {before after : Region × σ} {call : RegionCall}
    (h : before.1.Inv v.base v.limit) (hstep : RegionStep pool before call after) :
    after.1.Inv v.base v.limit ∧ (pool.NeverFails →
      (after.1.Lost ↔ before.1.Lost ∨ ∃ x ∈ call.turns before.1, x.1.Strips x.2)) := by
  obtain ⟨hvalid, hcall⟩ := hstep
  cases call with
  | alloc size align minVirt maxVirt =>
      obtain ⟨hpos, hpage, ⟨k, hk, ha⟩, hmin, -⟩ := hvalid
      obtain ⟨hdr, hcall⟩ := hcall
      have hspec := (avmfRegionAlloc_spec pool h v.base_lt v.base_pos v.limit_lt hpos hpage ha hk
        hmin before.2).of_returns hcall
      exact ⟨hspec.1.inv, hspec.2⟩
  | free base size =>
      obtain ⟨-, r, hpassed, hgiven⟩ :=
        (avmfRegionFree_spec pool h v.base_lt base size before.2 fun _ => True).of_returns hcall
      exact ⟨hgiven.inv (hpassed.inv h), fun _ => hgiven.lost_iff.trans (hpassed.lost_iff h)⟩

-- A non-NULL result of any allocation from here is as it was asked for.
def AllocsRight (r : Region) (s : σ) : Prop :=
  ∀ size align minVirt maxVirt hdr r' s', (RegionCall.alloc size align minVirt maxVirt).Valid →
    Returns (avmfRegionAlloc pool r size align minVirt maxVirt) s (some hdr, r') s' →
      AllocResult r r' hdr size align minVirt maxVirt

theorem Region.Inv.allocsRight {v : VirtualRegion} {r : Region} (h : r.Inv v.base v.limit) (s : σ) :
    AllocsRight pool r s := by
  rintro size align minVirt maxVirt hdr r' s' ⟨hpos, hpage, ⟨k, hk, ha⟩, hmin, -⟩ hcall
  exact ((avmfRegionAlloc_spec pool h v.base_lt v.base_pos v.limit_lt hpos hpage ha hk hmin
    s).of_returns hcall).1.new hdr rfl

-- The region is partitioned, and allocations right, throughout a run exactly
-- when no walk of the run strips a header.
theorem region_partition_iff (hnodes : pool.NeverFails) (v : VirtualRegion) (node : Nat) (start : σ)
    {past : List ((Region × σ) × RegionCall)} {x : Region × σ}
    (h : Trace (RegionStep pool) (avmfRegionInit node v.base v.limit, start) past x) :
    Trace.Always (fun x => x.1.Partition v.base v.limit ∧ AllocsRight pool x.1 x.2) past x ↔
      Trace.Admits (fun x call => call.StripsNone x.1) past := by
  have hinit := avmfRegionInit_inv v node
  refine Trace.always_iff_admits (I := fun x => x.1.Inv v.base v.limit) hinit ?_
    (fun _ _ _ hI _ hstep _ => (hstep.spec pool hI).1) (fun x call y hI hx hstep => ?_) h
  · exact ⟨hinit.partition_iff.mpr (avmfRegionInit_kept node v.base v.limit),
      hinit.allocsRight pool start⟩
  · obtain ⟨hI', hlost⟩ := hstep.spec pool hI
    have hstrips : (¬ ∃ x' ∈ call.turns x.1, x'.1.Strips x'.2) ↔ call.StripsNone x.1 := by
      simp only [RegionCall.StripsNone, not_exists, not_and]
    rw [and_iff_left (hI'.allocsRight pool y.2), hI'.partition_iff, hlost hnodes,
      or_iff_right (hI.partition_iff.mp hx.1), hstrips]

end Runs

-- Node allocators that number their nodes, and never stop.
def countingPool : NodePool Empty Nat where
  avmfAllocIhdr := do modify (· + 1); get
  avmfFreeIhdr _ := pure ()
  avmfAllocIrange := do modify (· + 1); get
  avmfFreeIrange _ := pure ()

theorem countingPool_neverFails : countingPool.NeverFails := by
  constructor <;>
  · intro s node t h
    obtain ⟨rfl, -⟩ := Prod.mk.inj (Except.ok.inj h)
    exact Nat.succ_ne_zero s

-- The state that a call leaves.
def RegionCall.run (x : Region × Nat) : RegionCall → Region × Nat
  | .alloc size align minVirt maxVirt =>
      match (avmfRegionAlloc countingPool x.1 size align minVirt maxVirt).run x.2 with
      | .ok (result, s) => (result.2, s)
      | .error e => e.elim
  | .free base size =>
      match (avmfRegionFree countingPool x.1 base size).run x.2 with
      | .ok y => y
      | .error e => e.elim

theorem RegionCall.run_step {x : Region × Nat} (call : RegionCall) (hvalid : call.Valid) :
    RegionStep countingPool x call (call.run x) := by
  refine ⟨hvalid, ?_⟩
  cases call with
  | alloc size align minVirt maxVirt =>
      cases hcall : (avmfRegionAlloc countingPool x.1 size align minVirt maxVirt).run x.2 with
      | error e => exact e.elim
      | ok y => exact ⟨y.1.1, by rw [RegionCall.run, hcall]; exact hcall⟩
  | free base size =>
      cases hcall : (avmfRegionFree countingPool x.1 base size).run x.2 with
      | error e => exact e.elim
      | ok y => exact show Returns _ _ _ _ by rw [RegionCall.run, hcall]; exact hcall

def newUserRegion : Region × Nat := (avmfRegionInit 0 userSpace.base userSpace.limit, 0)

theorem allocPages_valid {size : Nat} (h : 0 < size ∧ PAGE_SIZE ∣ size) :
    (RegionCall.alloc size 0x1000 0x1000 0).Valid :=
  ⟨h.1, h.2, ⟨12, by decide, rfl⟩, by decide, by decide⟩

-- An allocation, its release to the cache and one that takes half of it again.
theorem region_partition_iff_split :
    ∃ past x, Trace (RegionStep countingPool) newUserRegion past x ∧
      past.map Prod.snd =
        [.alloc 0x2000 0x1000 0x1000 0, .free 0x1000 0x2000, .alloc 0x1000 0x1000 0x1000 0] ∧
        x.1.ofType .alloc = [⟨0x1000, 0, 0x1000⟩] ∧ x.1.ofType .cache = [⟨0x2000, 0x1000, 0x1000⟩] ∧
          x.1.Partition userSpace.base userSpace.limit ∧ AllocsRight countingPool x.1 x.2 := by
  let x₁ := RegionCall.run newUserRegion (.alloc 0x2000 0x1000 0x1000 0)
  let x₂ := RegionCall.run x₁ (.free 0x1000 0x2000)
  have hrun : Trace (RegionStep countingPool) newUserRegion
      ([] ++ [(newUserRegion, .alloc 0x2000 0x1000 0x1000 0)] ++ [(x₁, .free 0x1000 0x2000)] ++
        [(x₂, .alloc 0x1000 0x1000 0x1000 0)])
      (RegionCall.run x₂ (.alloc 0x1000 0x1000 0x1000 0)) :=
    ((Trace.nil.snoc (RegionCall.run_step _ (allocPages_valid (by decide)))).snoc
      (RegionCall.run_step (.free 0x1000 0x2000) ⟨by decide, by decide, by decide⟩)).snoc
        (RegionCall.run_step _ (allocPages_valid (by decide)))
  have hall := (region_partition_iff countingPool countingPool_neverFails userSpace 0 0 hrun).mpr
    (by
      intro x hx
      simp only [List.nil_append, List.cons_append, List.mem_cons, List.not_mem_nil, or_false] at hx
      rcases hx with rfl | rfl | rfl <;> decide +kernel)
  exact ⟨_, _, hrun, rfl, by decide +kernel, by decide +kernel, hall.2⟩

-- The first of two headers that are freed is unlinked from the cache, which
-- counts none, when the third is: its memory is in no list.
theorem region_partition_fails :
    ∃ past x, Trace (RegionStep countingPool) newUserRegion past x ∧
      past.map Prod.snd =
        [.alloc 0x1000 0x1000 0x1000 0, .alloc 0x1000 0x1000 0x1000 0, .free 0x1000 0x1000,
          .free 0x2000 0x1000, .alloc 0x1000 0x1000 0x1000 0, .free 0x3000 0x1000] ∧
        x.1.freeList = [⟨0, 0x4000, 0x1FFFC000⟩] ∧
          x.1.ofType .alloc = [⟨0x2000, 0, 0x1000⟩] ∧ x.1.ofType .cache = [⟨0x3000, 0, 0x1000⟩] ∧
            ¬ x.1.Partition userSpace.base userSpace.limit := by
  let request : RegionCall := .alloc 0x1000 0x1000 0x1000 0
  have hstep (x : Region × Nat) : RegionStep countingPool x request (request.run x) :=
    RegionCall.run_step _ (allocPages_valid (by decide))
  have hnil : Trace (RegionStep countingPool) newUserRegion [] newUserRegion := .nil
  have hrun := (((((hnil.snoc (hstep _)).snoc (hstep _)).snoc
    (RegionCall.run_step (.free 0x1000 0x1000) ⟨by decide, by decide, by decide⟩)).snoc
      (RegionCall.run_step (.free 0x2000 0x1000) ⟨by decide, by decide, by decide⟩)).snoc
        (hstep _)).snoc
          (RegionCall.run_step (.free 0x3000 0x1000) ⟨by decide, by decide, by decide⟩)
  refine ⟨_, _, hrun, rfl, by decide +kernel, by decide +kernel, by decide +kernel, fun hpart => ?_⟩
  have hmem := (hpart.tiles.union 0x1000).mpr (by decide)
  revert hmem
  decide +kernel

end AosKernel.Mm
