import AosKernel.Mm.RegionCalls

namespace AosKernel.Mm

open Verif Verif.Exec Verif.Span

namespace Region

-- The turns of the walk of avmf_region_free at headers that are not of the list.
def walkTurns (base size : Nat) : Nat → Nat → Option Nat → Region → List (Region × Nat)
  | 0, _, _, _ => []
  | _ + 1, _, none, _ => []
  | m + 1, i, some c, r =>
      if (r.lists .alloc).count ≤ i then []
      else
        let x := r.headers c
        if x.type ≠ .alloc ∨ ¬ x.Intact then
          (r, c) :: walkTurns base size m (i + 1) (r.passBy .alloc c).1 (r.passBy .alloc c).2
        else if x.virtAddr ≠ base ∨ x.size ≠ size then walkTurns base size m (i + 1) x.next r
        else []

-- The header that a call of avmf_region_free comes to, and the turns before.
def freeTarget (r : Region) (base size : Nat) : Option Nat :=
  if freeRejected r base size then none
  else
    let l := r.lists .alloc
    (findToFree base (align4k size) l.count 0 l.list r).1

def freeTurns (r : Region) (base size : Nat) : List (Region × Nat) :=
  if freeRejected r base size then []
  else
    let l := r.lists .alloc
    walkTurns base (align4k size) l.count 0 l.list r

-- The ALLOC header that has been found for a range.
structure Found (r : Region) (base size c : Nat) : Prop where
  type_eq : r.type c = .alloc
  virt_eq : (r.extent c).virtAddr = base
  size_eq : (r.extent c).size = size

-- What avmf_region_free does to the region that its walk has left: the header it
-- has found goes to the cache.
inductive GivenBack (r : Region) (base size : Nat) : Option Nat → Region → Prop
  | missed : GivenBack r base size none r
  | cached {c : Nat} {r' : Region} : r.Found base size c → Retyped r c .cache r' →
      GivenBack r base size (some c) r'

section Walk

variable {r : Region} {lo hi base size : Nat}

theorem findToFree_spec (base size : Nat) (hbounds : lo < hi) (m i : Nat) (c : Option Nat) (hinv : r.Inv lo hi) :
    Passed .alloc (walkTurns base size m i c r) r (findToFree base size m i c r).2 ∧
      ∀ h, (findToFree base size m i c r).1 = some h →
        (findToFree base size m i c r).2.Found base size h ∧
          ((findToFree base size m i c r).2.lists .alloc).count ≠ 0 := by
  induction m generalizing i c r with
  | zero => exact ⟨.refl .alloc r, fun h hnone => by cases hnone⟩
  | succ m ih =>
      cases c with
      | none => exact ⟨.refl .alloc r, fun h hnone => by cases hnone⟩
      | some c =>
          unfold findToFree walkTurns
          by_cases hend : (r.lists .alloc).count ≤ i
          · rw [if_pos hend, if_pos hend]
            exact ⟨.refl .alloc r, fun h hnone => by cases hnone⟩
          rw [if_neg hend, if_neg hend]
          dsimp only
          by_cases hstray : (r.headers c).type ≠ .alloc ∨ ¬ (r.headers c).Intact
          · rw [if_pos hstray, if_pos hstray]
            have hpassed := passBy_passed (k := .alloc) (hinv.not_rejected hbounds) hinv.intact
              (hstray.resolve_right (not_not.mpr (hinv.intact c)))
            obtain ⟨hrest, hfound⟩ := ih (i + 1) (r.passBy .alloc c).1 (hpassed.inv hinv)
            exact ⟨hpassed.trans hrest, hfound⟩
          rw [if_neg hstray, if_neg hstray]
          by_cases hother : (r.headers c).virtAddr ≠ base ∨ (r.headers c).size ≠ size
          · rw [if_pos hother, if_pos hother]
            exact ih (i + 1) _ hinv
          · rw [if_neg hother, if_neg hother]
            refine ⟨.refl .alloc r, ?_⟩
            rintro _ ⟨⟩
            rw [not_or, not_not, not_not] at hother
            exact ⟨⟨not_not.mp (not_or.mp hstray).1, hother.1, hother.2⟩,
              fun hzero => hend (by rw [hzero]; exact Nat.zero_le i)⟩

variable {ε σ : Type} (pool : NodePool ε σ)

-- Whole pages go to the cache: no list node is needed.
theorem freeHeader_spec (hinv : r.Inv lo hi) (hbounds : lo < hi) {c : Nat}
    (hfound : r.Found base size c) (hcount : (r.lists .alloc).count ≠ 0) (s : σ) (E : ε → Prop) :
    Sat (freeHeader pool r c) s (fun r' t => t = s ∧ Retyped r c .cache r') E := by
  have hc : c < r.made := hinv.made_of_type (by rw [hfound.type_eq]; decide)
  have hlarge : (r.headers c).size > 0x200 := by
    have hpages := Nat.le_of_dvd (hinv.extent_mem hc).2.2 (hinv.pages c hc)
    unfold PAGE_SIZE extent at hpages
    omega
  have hmove := moveHeader (k := .alloc) (j := .cache) (hinv.not_rejected hbounds) hinv.intact
    hfound.type_eq hcount
  unfold freeHeader
  rw [if_pos hlarge]
  simp only [ListKind.type] at hmove ⊢
  generalize ((r.unlinkHeader c).modifyHeader c _).linkHeader c = linked at hmove ⊢
  obtain ⟨linked, r'⟩ := linked
  obtain ⟨hok, hmoved⟩ := hmove
  obtain rfl : linked = true := hok
  refine ⟨rfl, ?_⟩
  have hstored := modifyHeader_relinked r' c (f := fun x => { x with type := .cache, used := false })
    (fun _ => rfl) fun _ hx => hx
  refine ⟨hmoved.toRelinked.trans hstored, ?_, fun a ha => ?_⟩
  · rw [Region.type, modifyHeader, HeaderRegion.headers_modify_self]
  · rw [Region.type, modifyHeader, HeaderRegion.headers_modify_of_ne _ ha]
    exact hmoved.others a ha

-- What a call of avmf_region_free does.
theorem avmfRegionFree_spec (hinv : r.Inv lo hi) (hbounds : lo < hi) (base size : Nat) (s : σ)
    (E : ε → Prop) :
    Sat (avmfRegionFree pool r base size) s (fun r' t => t = s ∧ ∃ r₁,
      Passed .alloc (r.freeTurns base size) r r₁ ∧
        GivenBack r₁ base (align4k size) (r.freeTarget base size) r') E := by
  unfold avmfRegionFree freeTarget freeTurns
  by_cases hrejected : freeRejected r base size
  · rw [if_pos hrejected, if_pos hrejected, if_pos hrejected]
    exact ⟨rfl, r, .refl .alloc r, .missed⟩
  rw [if_neg hrejected, if_neg hrejected, if_neg hrejected]
  dsimp only
  obtain ⟨hpassed, hfound⟩ := findToFree_spec base (align4k size) hbounds
    (r.lists .alloc).count 0 (r.lists .alloc).list hinv
  generalize findToFree base (align4k size) (r.lists .alloc).count 0 (r.lists .alloc).list r = walk
    at hpassed hfound ⊢
  obtain ⟨found, r₁⟩ := walk
  cases found with
  | none => exact ⟨rfl, r₁, hpassed, .missed⟩
  | some c =>
      obtain ⟨hc, hcount⟩ := hfound c rfl
      refine (freeHeader_spec pool (hpassed.inv hinv) hbounds hc hcount s E).imp fun r' t ht => ?_
      exact ⟨ht.1, r₁, hpassed, .cached hc ht.2⟩

end Walk

section GivenBack

variable {r r₁ r' : Region} {lo hi base size : Nat} {turns : List (Region × Nat)}
  {found : Option Nat}

theorem GivenBack.inv (h : GivenBack r base size found r') (hinv : r.Inv lo hi) : r'.Inv lo hi := by
  cases h with
  | missed => exact hinv
  | cached hc hretyped =>
      exact hretyped.inv hinv (hinv.made_of_type (by rw [hc.type_eq]; decide))

theorem GivenBack.relinked (h : GivenBack r base size found r') : r.Relinked r' := by
  cases h with
  | missed => exact .refl r
  | cached _ hretyped => exact hretyped.toRelinked

theorem GivenBack.lost_iff (h : GivenBack r base size found r') : r'.Lost ↔ r.Lost := by
  cases h with
  | missed => exact Iff.rfl
  | cached hc hretyped => exact hretyped.lost_iff (j := .cache) (k := .alloc) hc.type_eq

end GivenBack

end Region

end AosKernel.Mm
