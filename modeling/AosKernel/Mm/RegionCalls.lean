import AosKernel.Mm.RegionAlloc

namespace AosKernel.Mm

open Verif Verif.Exec Verif.Span

namespace Region

-- The headers in use keep what they stand for, unless they are lost, and only
-- `new` is taken into use.
structure HeadersKept (r : Region) (new : Option Nat) (r' : Region) : Prop where
  made_le : r.made ≤ r'.made
  taken : ∀ h < r.made, r.type h ≠ .cache →
    r'.extent h = r.extent h ∧ (r'.type h = r.type h ∨ r'.type h = .corrupt)
  cached : ∀ h, some h ≠ new → r.type h = .cache → r'.type h = .cache
  only : ∀ h, r.made ≤ h → h < r'.made → some h = new

-- A non-NULL result of avmf_region_alloc, given the region before and after.
structure AllocResult (r r' : Region) (hdr size align minVirt maxVirt : Nat) : Prop where
  made : hdr < r'.made
  type_eq : r'.type hdr = .alloc
  size_eq : (r'.extent hdr).size = size
  aligned : (r'.extent hdr).virtAddr % align = 0
  min_le : minVirt ≤ (r'.extent hdr).virtAddr
  le_max : 0 < maxVirt → (r'.extent hdr).virtAddr + (r'.extent hdr).size ≤ maxVirt
  fresh : ∀ h < r.made, r.type h ≠ .cache → Apart (r.extent h).span (r'.extent hdr).span

-- A header has become a corrupt one: its memory is in no list.
def Lost (r : Region) : Prop := ∃ h < r.made, r.type h = .corrupt

-- What one call of avmf_region_alloc guarantees. The physical address of a
-- result can only come from the cached headers that `hits` are of.
structure AllocPost (r : Region) (lo hi size align minVirt maxVirt : Nat) (hits : List Extent)
    (found : Option Nat) (r' : Region) : Prop where
  inv : r'.Inv lo hi
  kept : HeadersKept r found r'
  new : ∀ hdr, found = some hdr → AllocResult r r' hdr size align minVirt maxVirt
  phys : ∀ hdr, found = some hdr → (r'.extent hdr).physAddr = 0 ∨
    ∃ e ∈ hits, (r'.extent hdr).physAddr = e.physAddr

section Alloc

variable {r r₁ r' : Region} {lo hi size align minVirt maxVirt c : Nat} {hits : List Extent}
  {turns : List (Region × Nat)} {found : Option Nat}

theorem AllocPost.none (hinv : r.Inv lo hi) :
    AllocPost r lo hi size align minVirt maxVirt hits none r where
  inv := hinv
  kept := ⟨Nat.le_refl _, fun _ _ _ => ⟨rfl, .inl rfl⟩, fun _ _ h => h, fun _ _ _ => by omega⟩
  new _ hnone := by cases hnone
  phys _ hnone := by cases hnone

theorem Serves.made (h : r.Serves size align minVirt maxVirt c) (hinv : r.Inv lo hi) : c < r.made :=
  hinv.made_of_type (by rw [h.type_eq]; decide)

theorem AllocPost.whole (hinv : r.Inv lo hi) (hserves : r.Serves size align minVirt maxVirt c)
    (hsize : (r.extent c).size = size) (hmem : r.extent c ∈ hits) (h : Retyped r c .alloc r') :
    AllocPost r lo hi size align minVirt maxVirt hits (some c) r' := by
  have hc := hserves.made hinv
  have hne {a : Nat} (ha : r.type a ≠ .cache) : a ≠ c := by
    rintro rfl
    exact ha hserves.type_eq
  refine ⟨h.inv hinv hc, ⟨h.made.ge, fun a _ htaken => ?_, fun a ha hcached => ?_, fun a ha ha' => ?_⟩,
    ?_, ?_⟩
  · exact ⟨h.extent a, .inl (h.others a (hne htaken))⟩
  · exact (h.others a fun heq => ha (congrArg some heq)).trans hcached
  · have hmade := h.made
    omega
  · rintro _ ⟨⟩
    refine ⟨h.made.symm ▸ hc, h.type_eq, ?_, ?_, ?_, fun hmax => ?_, fun a ha htaken => ?_⟩
    · rw [h.extent, hsize]
    · rw [h.extent]
      exact hserves.aligned
    · rw [h.extent]
      exact hserves.min_le
    · rw [h.extent, hsize]
      exact hserves.le_max hmax
    · rw [h.extent]
      exact hinv.apart ha hc (hne htaken)
  · rintro _ ⟨⟩
    exact .inr ⟨_, hmem, by rw [h.extent]⟩

theorem AllocPost.cut (hinv : r.Inv lo hi) (hserves : r.Serves size align minVirt maxVirt c)
    (hpos : 0 < size) (hpage : PAGE_SIZE ∣ size) (hlt : size < (r.extent c).size)
    (hmem : r.extent c ∈ hits)
    (h : Added r ⟨(r.extent c).virtAddr, (r.extent c).physAddr, size⟩ r') :
    AllocPost r lo hi size align minVirt maxVirt hits (some r.made)
      (r'.shrink c size) := by
  have hc := hserves.made hinv
  have hmade : (r'.shrink c size).made = r.made + 1 := h.made
  have hnew : (r'.shrink c size).extent r.made =
      ⟨(r.extent c).virtAddr, (r.extent c).physAddr, size⟩ := by
    rw [shrink_extent_of_ne (Nat.ne_of_gt hc), h.extent_new]
  have htype (a : Nat) (ha : a ≠ r.made) : (r'.shrink c size).type a = r.type a := by
    rw [shrink_type, (h.others a ha).2]
  have hne {a : Nat} (ha : r.type a ≠ .cache) : a ≠ c := by
    rintro rfl
    exact ha hserves.type_eq
  refine ⟨hinv.cut hc hpos hpage hlt h, ⟨by omega, fun a ha htaken => ⟨?_, .inl (htype a (by omega))⟩,
    fun a ha hcached => ?_, fun a ha ha' => ?_⟩, ?_, ?_⟩
  · rw [shrink_extent_of_ne (hne htaken), (h.others a (by omega)).1]
  · exact (htype a fun heq => ha (congrArg some heq)).trans hcached
  · exact congrArg some (by omega)
  · rintro _ ⟨⟩
    refine ⟨by omega, ?_, ?_, ?_, ?_, fun hmax => ?_, fun a ha htaken x hxa hx => ?_⟩
    · rw [shrink_type, h.type_new]
    · rw [hnew]
    · rw [hnew]
      exact hserves.aligned
    · rw [hnew]
      exact hserves.min_le
    · rw [hnew]
      exact hserves.le_max hmax
    · refine hinv.apart ha hc (hne htaken) x hxa ?_
      rw [hnew] at hx
      simp only [Mem, Extent.span] at hx ⊢
      omega
  · rintro _ ⟨⟩
    exact .inr ⟨_, hmem, by rw [hnew]⟩

theorem AllocPost.free {cur : Range} {rest : List Range} {base : Nat} (hinv : r.Inv lo hi)
    (hfree : r.freeList = cur :: rest) (halign : base % align = 0) (hmin : minVirt ≤ base)
    (hmax : 0 < maxVirt → base + size ≤ maxVirt) (h : CutFree r size base cur r') :
    AllocPost r lo hi size align minVirt maxVirt hits (some r.made) r' := by
  have hmade := h.made
  refine ⟨h.inv lo hi hinv, ⟨by omega, fun a ha _ => ?_, fun a ha hcached => ?_, fun a ha ha' => ?_⟩,
    ?_, ?_⟩
  · exact ⟨(h.others a (by omega)).1, .inl (h.others a (by omega)).2⟩
  · exact (h.others a fun heq => ha (congrArg some heq)).2.trans hcached
  · exact congrArg some (by omega)
  · rintro _ ⟨⟩
    refine ⟨by omega, h.type_new, ?_, ?_, ?_, fun hmax' => ?_, fun a ha _ x hxa hx => ?_⟩
    · rw [h.extent_new]
    · rw [h.extent_new]
      exact halign
    · rw [h.extent_new]
      exact hmin
    · rw [h.extent_new]
      exact hmax hmax'
    · refine hinv.apart_free (f := cur) ha (by simp [hfree]) x hxa ?_
      have hwithin := h.within
      rw [h.extent_new] at hx
      simp only [Mem, Extent.span, Range.span] at hx ⊢
      omega
  · rintro _ ⟨⟩
    exact .inl (by rw [h.extent_new])

-- What the scan has passed by before does not matter.
theorem AllocPost.of_passed (h : AllocPost r₁ lo hi size align minVirt maxVirt hits found r')
    (hpassed : Passed .cache turns r r₁) :
    AllocPost r lo hi size align minVirt maxVirt hits found r' := by
  have htaken {a : Nat} (ha : r.type a ≠ .cache) : r₁.type a ≠ .cache := by
    rcases hpassed.type_or a with heq | heq
    · rwa [heq]
    · rw [heq]
      decide
  have hmade := hpassed.made
  refine ⟨h.inv, ⟨hmade ▸ h.kept.made_le, fun a ha hnot => ?_, fun a ha hcached => ?_,
    fun a ha ha' => h.kept.only a (hmade ▸ ha) ha'⟩, fun hdr hsome => ?_, h.phys⟩
  · obtain ⟨hextent, htype⟩ := h.kept.taken a (hmade ▸ ha) (htaken hnot)
    refine ⟨hextent.trans (hpassed.extent a), ?_⟩
    rcases htype with heq | heq
    · exact (hpassed.type_or a).imp heq.trans heq.trans
    · exact .inr heq
  · exact h.kept.cached a ha (hpassed.kept (k := .cache) hcached)
  · have hnew := h.new hdr hsome
    exact { hnew with
      fresh := fun a ha hnot => hpassed.extent a ▸ hnew.fresh a (hmade ▸ ha) (htaken hnot) }

theorem lost_congr (hmade : r.made ≤ r'.made)
    (hsame : ∀ h < r'.made, r'.type h = .corrupt ↔ h < r.made ∧ r.type h = .corrupt) :
    r'.Lost ↔ r.Lost := by
  constructor
  · rintro ⟨h, hh, hcorrupt⟩
    exact ⟨h, (hsame h hh).mp hcorrupt⟩
  · rintro ⟨h, hh, hcorrupt⟩
    exact ⟨h, by omega, (hsame h (by omega)).mpr ⟨hh, hcorrupt⟩⟩

-- A walk loses the headers that it strips.
theorem Passed.lost_iff {k : ListKind} (hinv : r.Inv lo hi) (h : Passed k turns r r') :
    r'.Lost ↔ r.Lost ∨ ∃ x ∈ turns, x.1.Strips x.2 := by
  constructor
  · rintro ⟨a, ha, hcorrupt⟩
    rcases (h.corrupt_iff a).mp hcorrupt with hcorrupt | ⟨x, hx, rfl, hstrips⟩
    · exact .inl ⟨a, h.made ▸ ha, hcorrupt⟩
    · exact .inr ⟨x, hx, hstrips⟩
  · rintro (⟨a, ha, hcorrupt⟩ | ⟨x, hx, hstrips⟩)
    · exact ⟨a, h.made.symm ▸ ha, (h.corrupt_iff a).mpr (.inl hcorrupt)⟩
    · obtain ⟨hcorrupt, -, hgood⟩ := h.stripped x.2 ⟨x, hx, rfl, hstrips⟩
      exact ⟨x.2, h.made.symm ▸ hinv.made_of_type hgood, hcorrupt⟩

theorem Retyped.lost_iff {k j : ListKind} (h : Retyped r c j.type r') (hc : r.type c = k.type) :
    r'.Lost ↔ r.Lost := by
  refine lost_congr h.made.ge fun a ha => ?_
  rw [h.made] at ha
  by_cases hac : a = c
  · rw [hac, h.type_eq, hc]
    exact iff_of_false (type_ne_corrupt j) fun hh => type_ne_corrupt k hh.2
  · rw [h.others a hac, and_iff_right ha]

theorem lost_iff_of_new (hmade : r'.made = r.made + 1) (hnew : r'.type r.made = .alloc)
    (hothers : ∀ h, h ≠ r.made → r'.type h = r.type h) : r'.Lost ↔ r.Lost := by
  refine lost_congr (by omega) fun a ha => ?_
  by_cases ham : a = r.made
  · rw [ham, hnew]
    exact iff_of_false (by decide) fun hh => absurd hh.1 (Nat.lt_irrefl _)
  · rw [hothers a ham, and_iff_right (by omega)]

theorem Scanned.lost_iff {result : Option Nat × Region}
    (h : Scanned r size align minVirt maxVirt hits result) : result.2.Lost ↔ r.Lost := by
  cases h with
  | none => exact Iff.rfl
  | whole hserves _ _ hretyped => exact hretyped.lost_iff (j := .alloc) (k := .cache) hserves.type_eq
  | cut _ _ _ hadd =>
      exact lost_iff_of_new hadd.made (shrink_type.trans hadd.type_new) fun a ha =>
        shrink_type.trans (hadd.others a ha).2

end Alloc

-- The turns and the hits of the scan that a request begins with.
def allocTurns (r : Region) (size align minVirt maxVirt : Nat) : List (Region × Nat) :=
  let l := r.lists .cache
  cacheTurns size align minVirt maxVirt l.count 0 l.list r

def allocHits (r : Region) (size align minVirt maxVirt : Nat) : List Extent :=
  let l := r.lists .cache
  cacheHits size align minVirt maxVirt l.count 0 l.list r

theorem align_dvd {align k : Nat} (ha : align = 2 ^ k) (hk : k < 64) : align ∣ 2 ^ 64 := by
  subst ha
  exact Nat.pow_dvd_pow 2 (by omega)

-- Away from address 0 the only wrap-around of the adjustment is caught by the
-- comparison with the range's base.
theorem allocBase_spec {cur : Range} {align minVirt k : Nat} (hcur : 0 < cur.base)
    (hlt : cur.base < 2 ^ 64) (hmin : minVirt < 2 ^ 64) (ha : align = 2 ^ k) (hk : k < 64)
    (hle : cur.base ≤ allocBase cur align minVirt) :
    allocBase cur align minVirt % align = 0 ∧ minVirt ≤ allocBase cur align minVirt := by
  have hdvd := align_dvd ha hk
  have hpos : 0 < align := ha ▸ Nat.two_pow_pos k
  unfold allocBase at hle ⊢
  set base := if cur.base < minVirt then minVirt else cur.base with hbase
  have hb : base < 2 ^ 64 ∧ minVirt ≤ base := by rw [hbase]; split <;> omega
  by_cases hmod : base % align ≠ 0
  · simp only [hmod, ne_eq, not_false_eq_true, if_true] at hle ⊢
    have hrem := Nat.mod_lt base hpos
    have hup : align ∣ base + (align - base % align) := by
      have hsum : base + (align - base % align) = align * (base / align + 1) := by
        have := Nat.div_add_mod base align
        rw [Nat.mul_add, Nat.mul_one]
        omega
      exact ⟨_, hsum⟩
    have hnowrap : base + (align - base % align) < 2 ^ 64 := by
      by_contra hwrap
      obtain ⟨n, hn⟩ := hdvd
      obtain ⟨m, hm⟩ := hup
      -- the next multiple after `base` cannot pass the multiple 2 ^ 64
      have hmn : m ≤ n := by
        by_contra hgt
        have hmul : align * (n + 1) ≤ align * m := Nat.mul_le_mul_left _ (by omega)
        rw [Nat.mul_add, Nat.mul_one] at hmul
        omega
      have hnm := Nat.mul_le_mul_left align hmn
      have heq : base + (align - base % align) = 2 ^ 64 := by omega
      rw [heq, Nat.mod_self] at hle
      omega
    rw [Nat.mod_eq_of_lt hnowrap]
    exact ⟨Nat.mod_eq_zero_of_dvd hup, by omega⟩
  · simp only [hmod, if_false]
    exact ⟨by omega, hb.2⟩

section Calls

variable {ε σ : Type} (pool : NodePool ε σ) {r : Region} {lo hi size align minVirt maxVirt k : Nat}

theorem allocFromFree_spec (hinv : r.Inv lo hi) (hbounds : lo < hi) (hlo : 0 < lo) (hhi : hi < 2 ^ 64)
    (hpos : 0 < size) (hpage : PAGE_SIZE ∣ size) (ha : align = 2 ^ k) (hk : k < 64)
    (hmin : minVirt < 2 ^ 64) (hits : List Extent) (s : σ) :
    Sat (allocFromFree pool r size align minVirt maxVirt) s (fun result _ =>
      AllocPost r lo hi size align minVirt maxVirt hits result.1 result.2 ∧
        (result.2.Lost ↔ r.Lost)) fun _ => True := by
  have hnone : AllocPost r lo hi size align minVirt maxVirt hits none r ∧ (r.Lost ↔ r.Lost) :=
    ⟨.none hinv, Iff.rfl⟩
  unfold allocFromFree
  split
  · exact hnone
  · rename_i cur rest hfree
    refine Sat.ite (fun hfit => ?_) fun _ => hnone
    rw [sat_bind]
    refine sat_of_forall_returns fun node t _ => Sat.ite (fun _ => hnone) fun _ => ?_
    obtain ⟨-, -, -, -, hge, -, hsize, hmax⟩ := hfit
    have hcur := hinv.free_mem (f := cur) (by simp [hfree])
    obtain ⟨haligned, hminle⟩ := allocBase_spec (by omega) (by omega) hmin ha hk hge
    refine (cutRange_spec pool hinv hbounds hfree hpos hpage hge (by omega) node t).imp
      fun result u hu => ?_
    rcases hu with rfl | ⟨r', rfl, hcut⟩
    · exact hnone
    · exact ⟨.free hinv hfree haligned hminle (by omega) hcut,
        lost_iff_of_new hcut.made hcut.type_new fun a ha => (hcut.others a ha).2⟩

-- What a call of avmf_region_alloc does. Where list nodes do not run out, it
-- loses the headers that its scan strips.
theorem avmfRegionAlloc_spec (hinv : r.Inv lo hi) (hbounds : lo < hi) (hlo : 0 < lo)
    (hhi : hi < 2 ^ 64) (hpos : 0 < size) (hpage : PAGE_SIZE ∣ size) (ha : align = 2 ^ k)
    (hk : k < 64) (hmin : minVirt < 2 ^ 64) (s : σ) :
    Sat (avmfRegionAlloc pool r size align minVirt maxVirt) s (fun result _ =>
      AllocPost r lo hi size align minVirt maxVirt (r.allocHits size align minVirt maxVirt)
          result.1 result.2 ∧
        (pool.NeverFails → (result.2.Lost ↔
          r.Lost ∨ ∃ x ∈ r.allocTurns size align minVirt maxVirt, x.1.Strips x.2)))
      fun _ => True := by
  unfold avmfRegionAlloc
  refine Sat.ite (fun hrejected => absurd hrejected (hinv.not_rejected hbounds)) fun _ => ?_
  refine Sat.bind (allocFromCache_spec pool hbounds hpage _ 0 _ hinv s) ?_
  rintro ⟨found, r'⟩ t ⟨turns, r₁, hpassed, hturns, hscanned⟩
  have hinv₁ := hpassed.inv hinv
  have hlost (q : Region) (hq : q.Lost ↔ r₁.Lost) (hnodes : pool.NeverFails) :
      q.Lost ↔ r.Lost ∨ ∃ x ∈ r.allocTurns size align minVirt maxVirt, x.1.Strips x.2 := by
    rw [hq, hpassed.lost_iff hinv, hturns hnodes]
    rfl
  have hscan := hscanned.lost_iff
  refine Sat.ite (fun hsome => ⟨?_, hlost _ hscan⟩) fun hnone => ?_
  · refine AllocPost.of_passed ?_ hpassed
    cases hscanned with
    | none => cases hsome
    | whole hserves hsize hmem hretyped => exact .whole hinv₁ hserves hsize hmem hretyped
    | cut hserves hlt hmem hadd => exact .cut hinv₁ hserves hpos hpage hlt hmem hadd
  · cases hscanned with
    | whole => exact absurd rfl hnone
    | cut => exact absurd rfl hnone
    | none =>
        refine (allocFromFree_spec pool hinv₁ hbounds hlo hhi hpos hpage ha hk hmin _ t).imp
          fun result u hu => ⟨hu.1.of_passed hpassed, hlost _ hu.2⟩

end Calls

end Region

end AosKernel.Mm
