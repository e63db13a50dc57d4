import AosKernel.Mm.RegionMoves

namespace AosKernel.Mm

open Verif Verif.Exec Verif.Span

structure NodePool.NeverFails {ε σ : Type} (pool : NodePool ε σ) : Prop where
  avmfAllocIhdr : ∀ s node t, Returns pool.avmfAllocIhdr s node t → node ≠ 0
  avmfAllocIrange : ∀ s addr t, Returns pool.avmfAllocIrange s addr t → addr ≠ 0

namespace Region

-- A CACHE header can serve a request, with all it stands for or the front of it.
structure Serves (r : Region) (size align minVirt maxVirt c : Nat) : Prop where
  type_eq : r.type c = .cache
  size_le : size ≤ (r.extent c).size
  aligned : (r.extent c).virtAddr % align = 0
  min_le : minVirt ≤ (r.extent c).virtAddr
  le_max : 0 < maxVirt → (r.extent c).virtAddr + size ≤ maxVirt

-- The turns of the scan that do not settle on a header, where list nodes do not
-- run out.
def cacheTurns (size align minVirt maxVirt : Nat) :
    Nat → Nat → Option Nat → Region → List (Region × Nat)
  | 0, _, _, _ => []
  | _ + 1, _, none, _ => []
  | m + 1, i, some c, r =>
      if (r.lists .cache).count ≤ i then []
      else match cacheTurn r size align minVirt maxVirt c with
        | .next n r' => (r, c) :: cacheTurns size align minVirt maxVirt m (i + 1) n r'
        | .whole => []
        | .cut => []

-- What the headers stand for on which the scan can settle: the first that
-- matches exactly, and in front of it those that are larger, which it leaves
-- only for want of a list node.
def cacheHits (size align minVirt maxVirt : Nat) :
    Nat → Nat → Option Nat → Region → List Extent
  | 0, _, _, _ => []
  | _ + 1, _, none, _ => []
  | m + 1, i, some c, r =>
      if (r.lists .cache).count ≤ i then []
      else match cacheTurn r size align minVirt maxVirt c with
        | .next n r' => cacheHits size align minVirt maxVirt m (i + 1) n r'
        | .whole => [r.extent c]
        | .cut =>
            r.extent c :: cacheHits size align minVirt maxVirt m (i + 1) (r.headers c).next r

section Turn

variable {r : Region} {k : ListKind} {c size align minVirt maxVirt : Nat}

theorem passed_same (hkept : ¬ r.Strips c) : Passed k [(r, c)] r r := by
  refine ⟨.refl r, fun h hh => ?_, fun _ _ => rfl⟩
  obtain ⟨rfl, hh⟩ := stripped_singleton.mp hh
  exact absurd hh hkept

-- What the list counts is not stripped.
theorem not_strips (htype : r.type c = k.type) (hcount : (r.lists k).count ≠ 0) : ¬ r.Strips c := by
  rintro ⟨j, hj, hzero⟩
  rw [show (r.headers c).type = k.type from htype, kind_type] at hj
  cases hj
  exact hcount hzero

theorem cacheTurn_cases (size align minVirt maxVirt c : Nat) (hvalid : ¬ r.Rejected) (hintact : ∀ a, (r.headers a).Intact)
    (hcount : (r.lists .cache).count ≠ 0) :
    match cacheTurn r size align minVirt maxVirt c with
    | .next _ r' => Passed .cache [(r, c)] r r'
    | .whole => r.Serves size align minVirt maxVirt c ∧ (r.extent c).size = size
    | .cut => r.Serves size align minVirt maxVirt c ∧ size < (r.extent c).size := by
  unfold cacheTurn
  dsimp only
  by_cases hstray : (r.headers c).type ≠ .cache ∨ ¬ (r.headers c).Intact
  · rw [if_pos hstray]
    exact passBy_passed hvalid hintact (hstray.resolve_right (not_not.mpr (hintact c)))
  have htype : r.type c = .cache := not_not.mp (not_or.mp hstray).1
  have hsame : Passed .cache [(r, c)] r r := passed_same (not_strips (k := .cache) htype hcount)
  rw [if_neg hstray]
  by_cases hmin : minVirt > 0 ∧ (r.headers c).virtAddr < minVirt
  · rw [if_pos hmin]
    exact hsame
  rw [if_neg hmin]
  by_cases hmax : maxVirt > 0 ∧
      ((r.headers c).virtAddr > maxVirt ∨ size > maxVirt - (r.headers c).virtAddr)
  · rw [if_pos hmax]
    exact hsame
  rw [if_neg hmax]
  by_cases halign : align = 0
  · rw [if_pos halign]
    exact hsame
  rw [if_neg halign]
  have hserves (hsize : size ≤ (r.headers c).size) (haligned : (r.headers c).virtAddr % align = 0) :
      r.Serves size align minVirt maxVirt c :=
    ⟨htype, hsize, haligned, by simp only [extent]; omega, by simp only [extent]; omega⟩
  by_cases hexact : (r.headers c).size = size ∧ (r.headers c).virtAddr % align = 0
  · rw [if_pos hexact]
    exact ⟨hserves hexact.1.ge hexact.2, hexact.1⟩
  rw [if_neg hexact]
  by_cases hcut : (r.headers c).size > size ∧ (r.headers c).virtAddr % align = 0
  · rw [if_pos hcut]
    exact ⟨hserves (Nat.le_of_lt hcut.1) hcut.2, hcut.1⟩
  · rw [if_neg hcut]
    exact hsame

end Turn

-- A new ALLOC header.
structure Added (r : Region) (e : Extent) (r' : Region) : Prop where
  header : r'.toRegionHeader = r.toRegionHeader
  allocatedBytes : r'.allocatedBytes = r.allocatedBytes
  freeList : r'.freeList = r.freeList
  freeCount : r'.freeCount = r.freeCount
  made : r'.made = r.made + 1
  intact : ∀ h, (r.headers h).Intact → (r'.headers h).Intact
  extent_new : r'.extent r.made = e
  type_new : r'.type r.made = .alloc
  others : ∀ h, h ≠ r.made → r'.extent h = r.extent h ∧ r'.type h = r.type h

theorem setUp_added {r : Region} (e : Extent) (hvalid : ¬ r.Rejected)
    (hintact : ∀ a, (r.headers a).Intact) :
    ((r.setUp e).linkHeader r.made).1 = true ∧
      Added r e ((r.setUp e).linkHeader r.made).2 := by
  have hnew : (r.setUp e).headers r.made = .fresh .alloc e true := by
    rw [setUp, modifyHeader, HeaderRegion.headers_modify_self]
  have hothers (h : Nat) (hh : h ≠ r.made) : (r.setUp e).headers h = r.headers h := by
    rw [setUp, modifyHeader, HeaderRegion.headers_modify_of_ne _ hh]
  have hgood (h : Nat) (hh : (r.headers h).Intact) : ((r.setUp e).headers h).Intact := by
    by_cases hmade : h = r.made
    · rw [hmade, hnew]
      exact ⟨rfl, rfl⟩
    · rwa [hothers h hmade]
  have htype : (r.setUp e).type r.made = ListKind.alloc.type := by
    rw [Region.type, hnew]
    rfl
  obtain ⟨hok, hsame, hlinked⟩ := linkHeader_sameContents (r := r.setUp e) hvalid
    (fun a => hgood a (hintact a)) htype
  refine ⟨hok, hlinked.header, hlinked.allocatedBytes, hlinked.freeList, hlinked.freeCount,
    hlinked.made, fun h hh => hlinked.intact h (hgood h hh), ?_, (hsame.type _).trans htype,
    fun h hh => ⟨?_, ?_⟩⟩
  · rw [hlinked.extent, Region.extent, hnew]
    rfl
  · rw [hlinked.extent, Region.extent, hothers h hh]
    rfl
  · refine (hsame.type h).trans ?_
    rw [hothers h hh]
    rfl

-- The front of a header's memory is taken from it.
def shrink (r : Region) (c size : Nat) : Region :=
  r.modifyHeader c fun x => { x with
    size := x.size - size, virtAddr := x.virtAddr + size, physAddr := x.physAddr + size }

-- How the scan can end in a region that it has left so, and what it returns.
inductive Scanned (r : Region) (size align minVirt maxVirt : Nat) (hits : List Extent) :
    Option Nat × Region → Prop
  | none : Scanned r size align minVirt maxVirt hits (none, r)
  | whole {c : Nat} {r' : Region} : r.Serves size align minVirt maxVirt c →
      (r.extent c).size = size → r.extent c ∈ hits → Retyped r c .alloc r' →
      Scanned r size align minVirt maxVirt hits (some c, r')
  | cut {c : Nat} {r' : Region} : r.Serves size align minVirt maxVirt c →
      size < (r.extent c).size → r.extent c ∈ hits →
      Added r ⟨(r.extent c).virtAddr, (r.extent c).physAddr, size⟩ r' →
      Scanned r size align minVirt maxVirt hits (some r.made, r'.shrink c size)

theorem Scanned.mono {r : Region} {size align minVirt maxVirt : Nat} {hits hits' : List Extent}
    {result : Option Nat × Region} (h : Scanned r size align minVirt maxVirt hits result)
    (hhits : ∀ e ∈ hits, e ∈ hits') : Scanned r size align minVirt maxVirt hits' result := by
  cases h with
  | none => exact .none
  | whole hserves hsize hmem hretyped => exact .whole hserves hsize (hhits _ hmem) hretyped
  | cut hserves hsize hmem hadded => exact .cut hserves hsize (hhits _ hmem) hadded

section Shrink

variable {r : Region} {c h size : Nat}

theorem shrink_extent_self : (r.shrink c size).extent c =
    ⟨(r.extent c).virtAddr + size, (r.extent c).physAddr + size, (r.extent c).size - size⟩ := by
  rw [extent, shrink, modifyHeader, HeaderRegion.headers_modify_self]
  rfl

theorem shrink_extent_of_ne (hh : h ≠ c) : (r.shrink c size).extent h = r.extent h := by
  rw [extent, shrink, modifyHeader, HeaderRegion.headers_modify_of_ne _ hh]
  rfl

theorem shrink_type : (r.shrink c size).type h = r.type h := by
  by_cases hh : h = c
  · rw [type, shrink, modifyHeader, hh, HeaderRegion.headers_modify_self]
    rfl
  · rw [type, shrink, modifyHeader, HeaderRegion.headers_modify_of_ne _ hh]
    rfl

theorem shrink_intact (hh : (r.headers h).Intact) : ((r.shrink c size).headers h).Intact := by
  by_cases hc : h = c
  · subst hc
    rw [shrink, modifyHeader, HeaderRegion.headers_modify_self]
    exact hh
  · rwa [shrink, modifyHeader, HeaderRegion.headers_modify_of_ne _ hc]

end Shrink

section Inv

variable {r r' : Region} {lo hi c size : Nat}

-- What the headers stand for once `c` has been cut in two: the front part is a
-- new header.
theorem cut_extent (hc : c < r.made)
    (hadd : Added r ⟨(r.extent c).virtAddr, (r.extent c).physAddr, size⟩ r') :
    (r'.shrink c size).extent c =
        ⟨(r.extent c).virtAddr + size, (r.extent c).physAddr + size, (r.extent c).size - size⟩ ∧
      (r'.shrink c size).extent r.made = ⟨(r.extent c).virtAddr, (r.extent c).physAddr, size⟩ ∧
        ∀ h, h ≠ c → h ≠ r.made → (r'.shrink c size).extent h = r.extent h := by
  have hne : r.made ≠ c := Nat.ne_of_gt hc
  refine ⟨?_, ?_, fun h hh hh' => ?_⟩
  · rw [shrink_extent_self, (hadd.others c hne.symm).1]
  · rw [shrink_extent_of_ne hne, hadd.extent_new]
  · rw [shrink_extent_of_ne hh, (hadd.others h hh').1]

theorem cut_extents (hc : c < r.made)
    (hadd : Added r ⟨(r.extent c).virtAddr, (r.extent c).physAddr, size⟩ r') :
    ∃ l, r.extents.Perm (r.extent c :: l) ∧
      (r'.shrink c size).extents.Perm (⟨(r.extent c).virtAddr + size,
        (r.extent c).physAddr + size, (r.extent c).size - size⟩ :: l ++
          [⟨(r.extent c).virtAddr, (r.extent c).physAddr, size⟩]) := by
  obtain ⟨hrest, hnew, hothers⟩ := cut_extent hc hadd
  obtain ⟨l, hbefore, hafter⟩ := exists_map_range_perm (f := r.extent)
    (g := (r'.shrink c size).extent) hc fun h hh hh' => hothers h hh' (Nat.ne_of_lt hh)
  have hmade : (r'.shrink c size).made = r.made + 1 := hadd.made
  refine ⟨l, hbefore, ?_⟩
  rw [extents, hmade, List.range_succ, List.map_append, List.map_singleton, hnew, ← hrest]
  exact hafter.append_right _

-- A CACHE header cut in two.
theorem Inv.cut (hinv : r.Inv lo hi) (hc : c < r.made) (hpos : 0 < size) (hpage : PAGE_SIZE ∣ size)
    (hlt : size < (r.extent c).size)
    (hadd : Added r ⟨(r.extent c).virtAddr, (r.extent c).physAddr, size⟩ r') :
    (r'.shrink c size).Inv lo hi := by
  have hmade : (r'.shrink c size).made = r.made + 1 := hadd.made
  obtain ⟨hrest, hnew, hothers⟩ := cut_extent hc hadd
  obtain ⟨l, hbefore, hcut⟩ := cut_extents hc hadd
  refine ⟨hadd.header ▸ hinv.signature, hadd.header ▸ hinv.version, hadd.header ▸ hinv.base_eq,
    hadd.header ▸ hinv.limit_eq, ?_, fun h => shrink_intact (hadd.intact h (hinv.intact h)),
    fun h hh => ?_, fun h hh => ?_, ?_, ?_⟩
  · exact hadd.freeCount.trans (hinv.count.trans (congrArg List.length hadd.freeList).symm)
  · rw [hmade] at hh
    rw [shrink_type, (hadd.others h (by omega)).2]
    exact hinv.unmade h (by omega)
  · have hpagec := hinv.pages c hc
    by_cases hhc : h = c
    · rw [hhc, hrest]
      exact Nat.dvd_sub hpagec hpage
    by_cases hhm : h = r.made
    · rw [hhm, hnew]
      exact hpage
    · rw [hothers h hhc hhm]
      exact hinv.pages h (by omega)
  · have htiles := hinv.tiles.perm ((hbefore.map Extent.span).append_left (r.freeList.map Range.span))
    rw [spans]
    rw [show (r'.shrink c size).freeList = r.freeList from hadd.freeList]
    refine (htiles.recut (fun s hs => ?_) fun x => ?_).perm
      ((hcut.map Extent.span).append_left (r.freeList.map Range.span)).symm
    · have hall := htiles.size_pos
      simp only [List.mem_append, List.map_append, List.map_cons, List.map_nil, List.mem_cons,
        List.not_mem_nil, or_false, List.cons_append] at hs hall
      rcases hs with hs | rfl | hs | rfl
      · exact hall s (.inl hs)
      · simp only [Extent.span]
        omega
      · exact hall s (.inr (.inr hs))
      · exact hpos
    · have hparts := mem_cut (r.extent c).virtAddr (r.extent c).size size x (by omega)
      simp only [List.map_append, List.map_cons, List.map_nil, cover_append, cover_cons, cover_nil,
        Extent.span, List.cons_append] at hparts ⊢
      omega
  · have hbytes : (r'.shrink c size).allocatedBytes = r.allocatedBytes := hadd.allocatedBytes
    have htotal := total_perm (hbefore.map Extent.span)
    have htotal' := total_perm (hcut.map Extent.span)
    rw [hbytes, htotal', hinv.allocated, htotal]
    simp only [List.map_append, List.map_cons, List.map_nil, total_append, total_cons, total_nil,
      Extent.span, List.cons_append]
    omega

end Inv

section Scan

variable {ε σ : Type} (pool : NodePool ε σ) {r : Region} {lo hi size align minVirt maxVirt : Nat}

theorem splitCache_spec (hinv : r.Inv lo hi) (hbounds : lo < hi) {c : Nat} (hc : c < r.made)
    (hpage : PAGE_SIZE ∣ size) (hlt : size < (r.extent c).size) (node : Nat) (s : σ) :
    Sat (splitCache pool r size node c) s (fun result _ => ∃ r',
      Added r ⟨(r.extent c).virtAddr, (r.extent c).physAddr, size⟩ r' ∧
        result = (some r.made, r'.shrink c size)) fun _ => True := by
  have hlink := setUp_added ⟨(r.extent c).virtAddr, (r.extent c).physAddr, size⟩
    (hinv.not_rejected hbounds) hinv.intact
  unfold splitCache
  simp only [extent] at hlink ⊢
  generalize (r.setUp _).linkHeader r.made = linked at hlink ⊢
  obtain ⟨linked, r'⟩ := linked
  obtain ⟨hok, hadd⟩ := hlink
  obtain rfl : linked = true := hok
  -- whole pages are left, which are enough for the cache
  have hlarge : ¬ ((r'.shrink c size).extent c).size < 0x200 := by
    have hpages := Nat.le_of_dvd (by omega) (Nat.dvd_sub (hinv.pages c hc) hpage)
    rw [shrink_extent_self, (hadd.others c (Nat.ne_of_lt hc)).1]
    unfold PAGE_SIZE at hpages
    dsimp only
    omega
  change Sat (if ((r'.shrink c size).extent c).size < 0x200 then _ else _) s _ _
  rw [if_neg hlarge]
  exact ⟨r', hadd, rfl⟩

theorem Retyped.used {c : Nat} {type : AvmfHeaderType} {r' : Region} (h : Retyped r c type r')
    (used : Bool) : Retyped r c type (r'.modifyHeader c fun x => { x with used := used }) := by
  have hsame (a : Nat) : (r'.modifyHeader c fun x => { x with used := used }).type a = r'.type a := by
    by_cases ha : a = c
    · rw [Region.type, modifyHeader, ha, HeaderRegion.headers_modify_self]
      rfl
    · rw [Region.type, modifyHeader, HeaderRegion.headers_modify_of_ne _ ha]
      rfl
  refine ⟨h.toRelinked.trans (modifyHeader_relinked r' c (fun _ => rfl) fun _ hx => hx),
    (hsame c).trans h.type_eq, fun a ha => (hsame a).trans (h.others a ha)⟩

-- The scan passes by headers and ends, or settles on one of its hits.
theorem allocFromCache_spec (hbounds : lo < hi) (hpage : PAGE_SIZE ∣ size) (m i : Nat)
    (c : Option Nat) (hinv : r.Inv lo hi) (s : σ) :
    Sat (allocFromCache pool size align minVirt maxVirt m i c r) s (fun result _ => ∃ turns r₁,
      Passed .cache turns r r₁ ∧
        (pool.NeverFails → turns = cacheTurns size align minVirt maxVirt m i c r) ∧
          Scanned r₁ size align minVirt maxVirt (cacheHits size align minVirt maxVirt m i c r) result)
      fun _ => True := by
  induction m generalizing i c r s with
  | zero => exact ⟨[], r, .refl .cache r, fun _ => rfl, .none⟩
  | succ m ih =>
      cases c with
      | none => exact ⟨[], r, .refl .cache r, fun _ => rfl, .none⟩
      | some c =>
          unfold allocFromCache cacheTurns cacheHits
          refine Sat.ite (fun hend => ?_) fun hturn => ?_
          · rw [if_pos hend]
            exact ⟨[], r, .refl .cache r, fun _ => rfl, .none⟩
          have hcount : (r.lists .cache).count ≠ 0 := by omega
          have hcases := cacheTurn_cases size align minVirt maxVirt c (hinv.not_rejected hbounds)
            hinv.intact hcount
          simp only [if_neg hturn]
          cases hkind : cacheTurn r size align minVirt maxVirt c with
          | next n r' =>
              rw [hkind] at hcases
              refine (ih (i + 1) n (hcases.inv hinv) s).imp fun result t ht => ?_
              obtain ⟨turns, r₁, hpassed, hturns, hscanned⟩ := ht
              refine ⟨(r, c) :: turns, r₁, hcases.trans hpassed, fun hnodes => ?_, hscanned⟩
              rw [hturns hnodes]
          | whole =>
              rw [hkind] at hcases
              obtain ⟨hserves, hsize⟩ := hcases
              obtain ⟨hok, hmoved⟩ := moveHeader (k := .cache) (j := .alloc)
                (hinv.not_rejected hbounds) hinv.intact hserves.type_eq hcount
              dsimp only
              change Sat (if (((r.unlinkHeader c).modifyHeader c fun x =>
                { x with type := ListKind.alloc.type }).linkHeader c).1 = true then _ else _) s _ _
              rw [if_pos hok]
              exact ⟨[], r, .refl .cache r, fun _ => rfl,
                .whole hserves hsize List.mem_cons_self (hmoved.used true)⟩
          | cut =>
              rw [hkind] at hcases
              obtain ⟨hserves, hlt⟩ := hcases
              dsimp only
              rw [sat_bind]
              refine sat_of_forall_returns fun node t hnode => Sat.ite (fun hzero => ?_) fun _ => ?_
              · refine (ih (i + 1) _ hinv t).imp fun result u hu => ?_
                obtain ⟨turns, r₁, hpassed, -, hscanned⟩ := hu
                exact ⟨turns, r₁, hpassed, fun hnodes => absurd hzero (hnodes.avmfAllocIhdr s node t
                  hnode), hscanned.mono fun e he => List.mem_cons_of_mem _ he⟩
              · have hc : c < r.made := hinv.made_of_type (by rw [hserves.type_eq]; decide)
                refine Sat.bind (splitCache_spec pool hinv hbounds hc hpage hlt node t) ?_
                rintro _ u ⟨r', hadd, rfl⟩
                exact ⟨[], r, .refl .cache r, fun _ => rfl, .cut hserves hlt List.mem_cons_self hadd⟩

end Scan

section Cut

variable {ε σ : Type} (pool : NodePool ε σ) {r r' : Region} {lo hi size base : Nat} {cur : Range}
  {rest parts : List Range}

-- The region when a free range has made way for its parts, and what has been
-- cut out is counted as allocated.
def withFree (r : Region) (list : List Range) : Region :=
  { r with freeList := list, freeCount := list.length }

def withBytes (r : Region) (size : Nat) : Region :=
  { r with allocatedBytes := r.allocatedBytes + size }

theorem linkNew_spec (hvalid : ¬ r.Rejected) (hintact : ∀ a, (r.headers a).Intact) (node : Nat)
    (s : σ) :
    Sat (linkNew pool r size base node) s (fun result _ => ∃ r', Added r ⟨base, 0, size⟩ r' ∧
      result = (some r.made, r'.withBytes size)) fun _ => True := by
  have hlink := setUp_added ⟨base, 0, size⟩ hvalid hintact
  unfold linkNew
  dsimp only
  generalize (r.setUp _).linkHeader r.made = linked at hlink ⊢
  obtain ⟨linked, r'⟩ := linked
  obtain ⟨hok, hadd⟩ := hlink
  obtain rfl : linked = true := hok
  exact ⟨r', hadd, rfl⟩

-- The first free range gives up `[base, base + size)`: its parts stand in its
-- place.
theorem Inv.cut_free (hinv : r.Inv lo hi) (hfree : r.freeList = cur :: rest) (hpos : 0 < size)
    (hpage : PAGE_SIZE ∣ size) (hparts : ∀ f ∈ parts, 0 < f.size)
    (hcover : ∀ x, cover (parts.map Range.span) x + (if Mem x ⟨base, size⟩ then 1 else 0) =
      if Mem x cur.span then 1 else 0)
    (hadd : Added (r.withFree (parts ++ rest)) ⟨base, 0, size⟩ r') :
    (r'.withBytes size).Inv lo hi := by
  have hmade : (r'.withBytes size).made = r.made + 1 := hadd.made
  have hnew : (r'.withBytes size).extent r.made = ⟨base, 0, size⟩ := hadd.extent_new
  have hothers (h : Nat) (hh : h ≠ r.made) : (r'.withBytes size).extent h = r.extent h :=
    (hadd.others h hh).1
  have hextents : (r'.withBytes size).extents = r.extents ++ [⟨base, 0, size⟩] := by
    rw [extents, hmade, List.range_succ, List.map_append, List.map_singleton, hnew, extents]
    congr 1
    exact List.map_congr_left fun h hh => hothers h (Nat.ne_of_lt (List.mem_range.mp hh))
  have hlist : (r'.withBytes size).freeList = parts ++ rest := hadd.freeList
  refine ⟨hadd.header ▸ hinv.signature, hadd.header ▸ hinv.version, hadd.header ▸ hinv.base_eq,
    hadd.header ▸ hinv.limit_eq, ?_, fun h => hadd.intact h (hinv.intact h), fun h hh => ?_,
    fun h hh => ?_, ?_, ?_⟩
  · rw [hlist]
    exact hadd.freeCount
  · rw [hmade] at hh
    exact ((hadd.others h (Nat.ne_of_gt hh)).2).trans (hinv.unmade h (by omega))
  · by_cases hhm : h = r.made
    · rw [hhm, hnew]
      exact hpage
    · rw [hothers h hhm]
      exact hinv.pages h (by omega)
  · have htiles := hinv.tiles
    rw [spans, hfree] at htiles
    rw [spans, hlist, hextents]
    refine htiles.recut (fun s hs => ?_) fun x => ?_
    · have hall := htiles.size_pos
      simp only [List.mem_append, List.map_append, List.map_cons, List.map_nil, List.mem_cons,
        List.not_mem_nil, or_false] at hs hall
      rcases hs with (hs | hs) | hs | rfl
      · obtain ⟨f, hf, rfl⟩ := List.mem_map.mp hs
        exact hparts f hf
      · exact hall s (.inl (.inr hs))
      · exact hall s (.inr hs)
      · exact hpos
    · have hx := hcover x
      simp only [List.map_append, List.map_cons, List.map_nil, cover_append, cover_cons, cover_nil,
        Extent.span] at hx ⊢
      omega
  · have hbytes : (r'.withBytes size).allocatedBytes = r.allocatedBytes + size :=
      congrArg (· + size) hadd.allocatedBytes
    rw [hbytes, hextents, hinv.allocated]
    simp [Extent.span]

-- What a call on the free list has done when it returns the new header.
structure CutFree (r : Region) (size base : Nat) (cur : Range) (r' : Region) : Prop where
  within : cur.base ≤ base ∧ base + size ≤ cur.base + cur.size
  inv : ∀ lo hi, r.Inv lo hi → r'.Inv lo hi
  made : r'.made = r.made + 1
  extent_new : r'.extent r.made = ⟨base, 0, size⟩
  type_new : r'.type r.made = .alloc
  others : ∀ h, h ≠ r.made → r'.extent h = r.extent h ∧ r'.type h = r.type h

-- Whichever parts remain of the range, the header is linked to the same effect.
theorem linkParts_spec (hinv : r.Inv lo hi) (hbounds : lo < hi) (hfree : r.freeList = cur :: rest)
    (hpos : 0 < size) (hpage : PAGE_SIZE ∣ size) (hbase : cur.base ≤ base)
    (hfits : base + size ≤ cur.base + cur.size) (node : Nat) (parts : List Range)
    (hparts : ∀ f ∈ parts, 0 < f.size)
    (hcover : ∀ x, cover (parts.map Range.span) x + (if Mem x ⟨base, size⟩ then 1 else 0) =
      if Mem x cur.span then 1 else 0)
    (q : Region) (hq : q = r.withFree (parts ++ rest)) (s : σ) :
    Sat (linkNew pool q size base node) s (fun result _ => result = (none, r) ∨
      ∃ r', result = (some r.made, r') ∧ CutFree r size base cur r') fun _ => True := by
  have hvalid := hinv.not_rejected hbounds
  subst hq
  refine (linkNew_spec pool (r := r.withFree (parts ++ rest)) hvalid hinv.intact node s).imp
    fun result u hu => ?_
  obtain ⟨r', hadd, rfl⟩ := hu
  exact .inr ⟨_, rfl, ⟨hbase, hfits⟩, fun lo hi h => h.cut_free hfree hpos hpage hparts hcover hadd,
    hadd.made, hadd.extent_new, hadd.type_new, hadd.others⟩

theorem cutRange_spec (hinv : r.Inv lo hi) (hbounds : lo < hi) (hfree : r.freeList = cur :: rest)
    (hpos : 0 < size) (hpage : PAGE_SIZE ∣ size) (hbase : cur.base ≤ base)
    (hfits : base + size ≤ cur.base + cur.size) (node : Nat) (s : σ) :
    Sat (cutRange pool r size base node cur rest) s (fun result _ => result = (none, r) ∨
      ∃ r', result = (some r.made, r') ∧ CutFree r size base cur r') fun _ => True := by
  have hlink := linkParts_spec pool hinv hbounds hfree hpos hpage hbase hfits node
  have hcount : r.freeCount = rest.length + 1 := by
    rw [hinv.count, hfree, List.length_cons]
  have hfront (x : Nat) : _ = if Mem x cur.span then 1 else 0 :=
    mem_cut cur.base cur.size (base - cur.base) x (by omega)
  have hback (x : Nat) := mem_cut base (cur.base + cur.size - base) size x (by omega)
  rw [Nat.add_sub_cancel' hbase, show cur.size - (base - cur.base) =
    cur.base + cur.size - base by omega] at hfront
  dsimp only [cutRange]
  refine Sat.ite (fun hcut => ?_) fun hcut => Sat.ite (fun hpre => ?_) fun hpre =>
    Sat.ite (fun hsuf => ?_) fun hsuf => ?_
  · rw [sat_bind]
    refine sat_of_forall_returns fun _ t _ => hlink [] (by simp) (fun x => ?_) _ ?_ t
    · have hx : (⟨base, size⟩ : Span) = cur.span := by
        simp only [Range.span, Span.mk.injEq]
        omega
      simp [hx]
    · simp [withFree, hcount]
  · refine hlink [⟨cur.addr, base + size, cur.base + cur.size - (base + size)⟩] ?_ (fun x => ?_) _ ?_ s
    · simp only [List.mem_singleton, forall_eq]
      omega
    · have hbc : cur.base = base := by omega
      have hx := hback x
      rw [show cur.base + cur.size - base - size = cur.base + cur.size - (base + size) by omega,
        show cur.base + cur.size - base = cur.size by omega] at hx
      simp only [List.map_cons, List.map_nil, cover_cons, cover_nil, Range.span, hbc] at hx ⊢
      omega
    · simp [withFree, hcount]
  · refine hlink [⟨cur.addr, cur.base, base - cur.base⟩] ?_ (fun x => ?_) _ ?_ s
    · simp only [List.mem_singleton, forall_eq]
      omega
    · have hx := hfront x
      rw [show cur.base + cur.size - base = size by omega] at hx
      simp only [List.map_cons, List.map_nil, cover_cons, cover_nil, Range.span_mk]
      omega
    · simp [withFree, hcount]
  · rw [sat_bind]
    refine sat_of_forall_returns fun addr t _ => Sat.ite (fun _ => ?_) fun _ => ?_
    · rw [sat_bind]
      exact sat_of_forall_returns fun _ u _ => .inl rfl
    · refine hlink [⟨cur.addr, cur.base, base - cur.base⟩,
        ⟨addr, base + size, cur.base + cur.size - (base + size)⟩] ?_ (fun x => ?_) _ ?_ t
      · simp only [List.mem_cons, List.not_mem_nil, or_false, forall_eq_or_imp, forall_eq]
        omega
      · have hx := hfront x
        have hy := hback x
        rw [show cur.base + cur.size - base - size =
          cur.base + cur.size - (base + size) by omega] at hy
        simp only [List.map_cons, List.map_nil, cover_cons, cover_nil, Range.span_mk]
        omega
      · simp [withFree, hcount]

end Cut

end Region

end AosKernel.Mm
