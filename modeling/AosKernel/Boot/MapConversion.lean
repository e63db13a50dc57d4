import AosKernel.Boot.ConversionRounds

namespace AosKernel.Boot

open Verif Mm Conversion

def EfiDescriptor.span (d : EfiDescriptor) : Span := ⟨d.physicalStart, d.size⟩

def EfiDescriptor.Apart (d e : EfiDescriptor) : Prop := Span.Apart d.span e.span

instance : Std.Symm EfiDescriptor.Apart where
  symm _ _ h x hx hx' := h x hx' hx

theorem EfiDescriptor.apart_of_le {d e : EfiDescriptor}
    (h : d.limit ≤ e.physicalStart ∨ e.limit ≤ d.physicalStart) : d.Apart e := by
  rintro x ⟨hlow, hhigh⟩ ⟨hlow', hhigh'⟩
  simp only [limit, span] at *
  omega

-- A byte has only one descriptor.
theorem descriptor_unique {ds : List EfiDescriptor} (h : ds.Pairwise EfiDescriptor.Apart)
    {d e : EfiDescriptor} (hd : d ∈ ds) (he : e ∈ ds) {x : Nat} (hx : Span.Mem x d.span)
    (hx' : Span.Mem x e.span) : d = e := by
  by_contra hne
  exact h.forall hd he hne x hx hx'

-- The page of `x` holds a byte of the structure.
def OnPages (x : Nat) (s : Span) : Prop := alignDown s.base ≤ x ∧ x < alignUpPage s.limit

instance (x : Nat) (s : Span) : Decidable (OnPages x s) := by
  unfold OnPages
  infer_instance

section Rounds

variable (core smmap : Span)

-- The type that `x`, a byte of `d`, has to get.
def pageType (d : EfiDescriptor) (x : Nat) : SmmapType :=
  if OnPages x core ∨ OnPages x smmap then .unibootStructs else smmapType d.type

-- The type that the round for `d` gives it.
def roundType (prev : LastEntry) (d : EfiDescriptor) (x : Nat) : SmmapType :=
  match cutOut core smmap d with
  | none => d.entry.type
  | some (ubStart, ubEnd) => cutType prev d ubStart ubEnd x

-- last_entry after the round.
def roundLast (prev : LastEntry) (d : EfiDescriptor) : LastEntry :=
  some (d.limit, match cutOut core smmap d with
    | none => d.entry.type
    | some (ubStart, ubEnd) => if ubEnd < d.limit then typeBehind prev d ubStart else .unibootStructs)

-- A descriptor that the loop takes apart where a structure is, if at all.
structure CutInside (d : EfiDescriptor) : Prop where
  virt : d.virtualStart = 0
  unfit : ¬ (PerfectFit core d.entry ∨ PerfectFit smmap d.entry)
  inside : ∀ ubStart ubEnd, cutOut core smmap d = some (ubStart, ubEnd) →
    d.physicalStart ≤ ubStart ∧ ubStart < ubEnd ∧ ubEnd ≤ d.limit

variable {core smmap}

theorem Conversion.Ends.round {c : Conversion} {prev : LastEntry} {d : EfiDescriptor}
    (h : c.Ends prev) (hd : CutInside core smmap d) :
    (convertDescriptor core smmap c d).Ends (roundLast core smmap prev d) ∧
      ∀ type x, (convertDescriptor core smmap c d).hits type x = c.hits type x +
        if Span.Mem x d.span ∧ roundType core smmap prev d x = type then 1 else 0 := by
  have hslot : (c.write c.mcount d.entry).mmap (c.write c.mcount d.entry).mcount = d.entry :=
    write_mmap_self
  have hhits (type : SmmapType) (x : Nat) :
      (c.write c.mcount d.entry).hits type x = c.hits type x := hits_write_uncounted
  have hinside := hd.inside
  unfold convertDescriptor roundLast roundType
  unfold cutOut at hinside ⊢
  simp only [hd.unfit, if_false]
  by_cases hcore : Holds core d.entry
  · simp only [hcore, if_true] at hinside ⊢
    obtain ⟨hle, hlt, hend⟩ := hinside _ _ rfl
    have hround := h.write.fragmentEntry hslot hd.virt hle hlt hend
    exact ⟨hround.1, fun type x => by rw [hround.2, hhits]; rfl⟩
  · by_cases hsmmap : Holds smmap d.entry
    · simp only [hcore, hsmmap, if_true, if_false] at hinside ⊢
      obtain ⟨hle, hlt, hend⟩ := hinside _ _ rfl
      have hround := h.write.fragmentEntry hslot hd.virt hle hlt hend
      exact ⟨hround.1, fun type x => by rw [hround.2, hhits]; rfl⟩
    · simp only [hcore, hsmmap, if_false]
      have hround := h.write.append hslot hd.virt d.fits
      refine ⟨hround.1, fun type x => ?_⟩
      rw [hround.2, hhits]
      simp only [SmmapEntry.Types, and_comm]
      rfl

variable (core smmap)

-- What the rounds for `ds` add to the entries that give `x` the type.
def written (type : SmmapType) (x : Nat) : LastEntry → List EfiDescriptor → Nat
  | _, [] => 0
  | prev, d :: ds =>
      (if Span.Mem x d.span ∧ roundType core smmap prev d x = type then 1 else 0) +
        written type x (roundLast core smmap prev d) ds

variable {core smmap}

theorem Conversion.Ends.run {c : Conversion} {prev : LastEntry} {ds : List EfiDescriptor}
    (h : c.Ends prev) (hds : ∀ d ∈ ds, CutInside core smmap d) (type : SmmapType) (x : Nat) :
    (convertFrom core smmap c ds).hits type x =
      c.hits type x + written core smmap type x prev ds := by
  induction ds generalizing c prev with
  | nil => rfl
  | cons d ds ih =>
      obtain ⟨hends, hhits⟩ := h.round (hds d List.mem_cons_self)
      have hrest := ih hends fun d hd => hds d (List.mem_cons_of_mem _ hd)
      rw [convertFrom, List.foldl_cons]
      rw [convertFrom] at hrest
      rw [hrest, hhits, written, Nat.add_assoc]

variable (core smmap)

-- Every round gives each byte of its descriptor the right type.
def RoundsRight : LastEntry → List EfiDescriptor → Prop
  | _, [] => True
  | prev, d :: ds =>
      (∀ x, Span.Mem x d.span → roundType core smmap prev d x = pageType core smmap d x) ∧
        RoundsRight (roundLast core smmap prev d) ds

variable {core smmap}

theorem written_of_right {prev : LastEntry} {ds : List EfiDescriptor}
    (h : RoundsRight core smmap prev ds) (hapart : ds.Pairwise EfiDescriptor.Apart)
    (type : SmmapType) (x : Nat) :
    written core smmap type x prev ds =
      if ∃ d ∈ ds, Span.Mem x d.span ∧ pageType core smmap d x = type then 1 else 0 := by
  induction ds generalizing prev with
  | nil => simp [written]
  | cons d ds ih =>
      obtain ⟨hd, hrest⟩ := h
      obtain ⟨hfirst, hds⟩ := List.pairwise_cons.mp hapart
      rw [written, ih hrest hds]
      by_cases hx : Span.Mem x d.span
      · have hnone : ¬ ∃ e ∈ ds, Span.Mem x e.span ∧ pageType core smmap e x = type :=
          fun ⟨e, he, hxe, _⟩ => hfirst e he x hx hxe
        simp only [hnone, if_false, Nat.add_zero, hx, true_and, hd x hx, List.mem_cons,
          exists_eq_or_imp, or_false]
      · simp only [hx, false_and, if_false, Nat.zero_add, List.mem_cons, exists_eq_or_imp, false_or]

theorem right_of_written {prev : LastEntry} {ds : List EfiDescriptor}
    (h : ∀ type x, 0 < written core smmap type x prev ds →
      ∀ d ∈ ds, Span.Mem x d.span → type = pageType core smmap d x) :
    RoundsRight core smmap prev ds := by
  induction ds generalizing prev with
  | nil => trivial
  | cons d ds ih =>
      refine ⟨fun x hx => ?_, ih fun type x hpos e he => ?_⟩
      · refine h _ x ?_ d List.mem_cons_self hx
        rw [written, if_pos ⟨hx, rfl⟩]
        omega
      · refine h type x ?_ e (List.mem_cons_of_mem _ he)
        rw [written]
        omega

end Rounds

namespace Conversion

variable {c : Conversion} {type : SmmapType} {x : Nat}

def entries (c : Conversion) : List SmmapEntry := (List.range c.mcount).map c.mmap

theorem hits_eq_card : c.hits type x =
    ((Finset.range c.mcount).filter fun i => (c.mmap i).Types type x).card :=
  (Finset.card_filter _ _).symm

theorem hits_pos_iff : 0 < c.hits type x ↔ ∃ e ∈ c.entries, e.Types type x := by
  rw [hits_eq_card, Finset.card_pos]
  constructor
  · rintro ⟨i, hi⟩
    obtain ⟨hi, htypes⟩ := Finset.mem_filter.mp hi
    exact ⟨_, List.mem_map_of_mem (List.mem_range.mpr (Finset.mem_range.mp hi)), htypes⟩
  · rintro ⟨e, he, htypes⟩
    obtain ⟨i, hi, rfl⟩ := List.mem_map.mp he
    exact ⟨i, Finset.mem_filter.mpr ⟨Finset.mem_range.mpr (List.mem_range.mp hi), htypes⟩⟩

-- Entries of which no two give a byte the same type, or different ones.
theorem entries_apart (hone : ∀ type x, c.hits type x ≤ 1)
    (htype : ∀ type type' x, 0 < c.hits type x → 0 < c.hits type' x → type = type') :
    c.entries.Pairwise fun e f => Span.Apart e.span f.span := by
  rw [entries, List.pairwise_map]
  refine (List.nodup_range (n := c.mcount)).imp_of_mem fun {i j} hi hj hne x hx hx' => ?_
  have hpos (k : Nat) (hk : k ∈ List.range c.mcount) (hxk : Span.Mem x (c.mmap k).span) :
      0 < c.hits (c.mmap k).type x :=
    hits_pos_iff.mpr ⟨_, List.mem_map_of_mem hk, rfl, hxk⟩
  have heq := htype _ _ x (hpos i hi hx) (hpos j hj hx')
  have htwo : 1 < c.hits (c.mmap i).type x := by
    rw [hits_eq_card, Finset.one_lt_card]
    exact ⟨i, Finset.mem_filter.mpr ⟨by simpa using hi, rfl, hx⟩, j,
      Finset.mem_filter.mpr ⟨by simpa using hj, heq.symm, hx'⟩, hne⟩
  have := hone (c.mmap i).type x
  omega

end Conversion

-- The entries share no byte, cover the descriptors and nothing else, and give
-- each byte the type that it has to get.
structure Converted (core smmap : Span) (ds : List EfiDescriptor) (entries : List SmmapEntry) :
    Prop where
  apart : entries.Pairwise fun e f => Span.Apart e.span f.span
  cover : ∀ x, (∃ e ∈ entries, Span.Mem x e.span) ↔ ∃ d ∈ ds, Span.Mem x d.span
  typed : ∀ e ∈ entries, ∀ d ∈ ds, ∀ x, Span.Mem x e.span → Span.Mem x d.span →
    e.type = pageType core smmap d x

theorem converted_iff_right {core smmap : Span} {ds : List EfiDescriptor}
    (hds : ∀ d ∈ ds, CutInside core smmap d)
    (hapart : ds.Pairwise EfiDescriptor.Apart) :
    Converted core smmap ds (convertFrom core smmap emptySmmap ds).entries ↔
      RoundsRight core smmap none ds := by
  have hhits (type : SmmapType) (x : Nat) :
      (convertFrom core smmap emptySmmap ds).hits type x = written core smmap type x none ds := by
    have hempty : emptySmmap.Ends none := rfl
    rw [hempty.run hds]
    exact Nat.zero_add _
  constructor
  · intro h
    refine right_of_written fun type x hpos d hd hx => ?_
    obtain ⟨e, he, htype, hxe⟩ := Conversion.hits_pos_iff.mp ((hhits type x).symm ▸ hpos)
    exact htype.symm.trans (h.typed e he d hd x hxe hx)
  · intro h
    have hwritten (type : SmmapType) (x : Nat) :=
      (hhits type x).trans (written_of_right h hapart type x)
    have hpos (type : SmmapType) (x : Nat) :
        0 < (convertFrom core smmap emptySmmap ds).hits type x ↔
          ∃ d ∈ ds, Span.Mem x d.span ∧ pageType core smmap d x = type := by
      rw [hwritten]
      split <;> simp_all
    refine ⟨Conversion.entries_apart (fun type x => ?_) fun type type' x h₁ h₂ => ?_, fun x => ?_,
      fun e he d hd x hxe hx => ?_⟩
    · rw [hwritten]
      split <;> omega
    · obtain ⟨d, hd, hx, rfl⟩ := (hpos type x).mp h₁
      obtain ⟨e, he, hx', rfl⟩ := (hpos type' x).mp h₂
      rw [descriptor_unique hapart hd he hx hx']
    · constructor
      · rintro ⟨e, he, hxe⟩
        obtain ⟨d, hd, hx, -⟩ := (hpos e.type x).mp
          (Conversion.hits_pos_iff.mpr ⟨e, he, rfl, hxe⟩)
        exact ⟨d, hd, hx⟩
      · rintro ⟨d, hd, hx⟩
        obtain ⟨e, he, -, hxe⟩ := Conversion.hits_pos_iff.mp ((hpos _ x).mpr ⟨d, hd, hx, rfl⟩)
        exact ⟨e, he, hxe⟩
    · obtain ⟨d', hd', hx', htype⟩ := (hpos e.type x).mp
        (Conversion.hits_pos_iff.mpr ⟨e, he, rfl, hxe⟩)
      rw [← htype, descriptor_unique hapart hd hd' hx hx']

section Pieces

variable (core smmap : Span)

-- The type of a descriptor's last byte; an empty one has its own.
def lastType (d : EfiDescriptor) : SmmapType :=
  if d.size = 0 then smmapType d.type else pageType core smmap d (d.limit - 1)

-- The pieces of a descriptor get the right types. Behind UniBootCore the type
-- comes from slot `e`: while it is kept, no page of SMMAP may be there, and
-- once it is lost, there may be none but those of SMMAP.
def PiecesRight (prev : LastEntry) (d : EfiDescriptor) : Prop :=
  (d.Contains core →
    (d.Contains smmap → core.base ≤ smmap.base) ∧
    if alignUpPage core.limit = d.limit ∨ ¬ SlotLost prev d core.base then
      d.Contains smmap → alignUpPage smmap.limit ≤ alignUpPage core.limit
    else d.Contains smmap ∧ smmap.base ≤ alignUpPage core.limit ∧
      alignUpPage smmap.limit = d.limit) ∧
  (¬ d.Contains core → d.Contains smmap →
    alignUpPage smmap.limit = d.limit ∨ ¬ SlotLost prev d smmap.base)

instance (prev : LastEntry) (d : EfiDescriptor) : Decidable (PiecesRight core smmap prev d) := by
  unfold PiecesRight
  infer_instance

-- The same along the map, where the descriptor in front of another says how
-- last_entry ends.
def MapRight : LastEntry → List EfiDescriptor → Prop
  | _, [] => True
  | prev, d :: ds =>
      PiecesRight core smmap prev d ∧ MapRight (some (d.limit, lastType core smmap d)) ds

instance mapRightDecidable :
    (prev : LastEntry) → (ds : List EfiDescriptor) → Decidable (MapRight core smmap prev ds)
  | _, [] => instDecidableTrue
  | _, _ :: ds => @instDecidableAnd _ _ inferInstance (mapRightDecidable _ ds)

-- The comparison with the virtual range, which starts at 0, catches no
-- structure that is not in the descriptor.
def VirtualMiss (d : EfiDescriptor) : Prop :=
  (core.limit ≤ d.size → d.Contains core) ∧
    (¬ d.Contains core → smmap.limit ≤ d.size → d.Contains smmap)

instance (d : EfiDescriptor) : Decidable (VirtualMiss core smmap d) := by
  unfold VirtualMiss
  infer_instance

-- A structure at a page boundary in memory that exists.
structure PlacedIn (s : Span) (ds : List EfiDescriptor) : Prop where
  aligned : PAGE_SIZE ∣ s.base
  part : ¬ PAGE_SIZE ∣ s.size
  inside : ∃ d ∈ ds, d.Contains s

-- A map as the firmware gives it before it has been given a virtual one.
structure Described (ds : List EfiDescriptor) : Prop where
  apart : ds.Pairwise EfiDescriptor.Apart
  aligned : ∀ d ∈ ds, PAGE_SIZE ∣ d.physicalStart
  virt : ∀ d ∈ ds, d.virtualStart = 0

variable {core smmap} {ds : List EfiDescriptor} {d : EfiDescriptor} {s : Span}

theorem Described.limit_aligned (h : Described ds) (hd : d ∈ ds) : PAGE_SIZE ∣ d.limit :=
  Nat.dvd_add (h.aligned d hd) ⟨d.numberOfPages, Nat.mul_comm _ _⟩

-- The pages of a structure that a descriptor contains are the descriptor's.
theorem Described.pages_inside (h : Described ds) (hd : d ∈ ds) (hs : PAGE_SIZE ∣ s.base)
    (hpart : ¬ PAGE_SIZE ∣ s.size) (hc : d.Contains s) :
    alignDown s.base = s.base ∧ d.physicalStart ≤ s.base ∧ s.base < alignUpPage s.limit ∧
      alignUpPage s.limit ≤ d.limit := by
  have hlimit := h.limit_aligned hd
  obtain ⟨hlow, hhigh⟩ := hc
  unfold alignDown alignUpPage Span.limit PAGE_SIZE at *
  refine ⟨by omega, hlow, by omega, by omega⟩

-- So what is on them is in no other descriptor.
theorem PlacedIn.contains (hs : PlacedIn s ds) (h : Described ds) (hd : d ∈ ds) {x : Nat}
    (hx : Span.Mem x d.span) (hpage : OnPages x s) : d.Contains s := by
  obtain ⟨e, he, hc⟩ := hs.inside
  obtain ⟨hdown, hlow, -, hhigh⟩ := h.pages_inside he hs.aligned hs.part hc
  have hxe : Span.Mem x e.span := by
    obtain ⟨hpageLow, hpageHigh⟩ := hpage
    rw [hdown] at hpageLow
    refine ⟨hlow.trans hpageLow, ?_⟩
    exact Nat.lt_of_lt_of_le hpageHigh hhigh
  rw [descriptor_unique h.apart hd he hx hxe]
  exact hc

theorem holds_iff (hvirt : d.virtualStart = 0) (hs : s.limit < 2 ^ 64) :
    Holds s d.entry ↔ d.Contains s ∨ s.limit ≤ d.size := by
  have hend : add64 s.base s.size = s.limit := add64_eq hs
  have hlimit : d.entry.limit = d.limit := add64_eq d.limit_lt
  have hsize : d.entry.size < 2 ^ 64 := by
    have := d.limit_lt
    unfold EfiDescriptor.limit at this
    exact Nat.lt_of_le_of_lt (Nat.le_add_left _ _) this
  have hvirt' : add64 0 d.entry.size = d.size := by
    rw [add64_eq (by omega), Nat.zero_add]
    rfl
  unfold Holds
  rw [hend, hlimit, show d.entry.virtStart = 0 from hvirt, hvirt']
  simp only [EfiDescriptor.Contains, Nat.zero_le, true_and]
  rfl

-- No structure fills pages exactly.
theorem not_perfectFit (hvirt : d.virtualStart = 0) (hd : PAGE_SIZE ∣ d.physicalStart)
    (hs : PAGE_SIZE ∣ s.base) (hpart : ¬ PAGE_SIZE ∣ s.size) (hfits : s.limit < 2 ^ 64) :
    ¬ PerfectFit s d.entry := by
  have hend : add64 s.base s.size = s.base + s.size := add64_eq hfits
  have hlimit : d.entry.limit = d.physicalStart + d.numberOfPages * 0x1000 := add64_eq d.fits
  unfold PerfectFit
  rw [hend, hlimit, show d.entry.virtStart = 0 from hvirt, show d.entry.size = d.numberOfPages *
    0x1000 from rfl, add64_eq (by have := d.fits; omega)]
  unfold PAGE_SIZE at *
  rintro (⟨-, h⟩ | ⟨-, h⟩) <;> omega

theorem onPages_iff (hs : PAGE_SIZE ∣ s.base) {x : Nat} :
    OnPages x s ↔ s.base ≤ x ∧ x < alignUpPage s.limit := by
  rw [OnPages, show alignDown s.base = s.base from Nat.div_mul_cancel hs]

-- No descriptor has the type that the pages of the structures get.
theorem pageType_iff {x : Nat} :
    (.unibootStructs = pageType core smmap d x ↔ OnPages x core ∨ OnPages x smmap) ∧
      (d.entry.type = pageType core smmap d x ↔ ¬ (OnPages x core ∨ OnPages x smmap)) := by
  have htype : d.entry.type ≠ .unibootStructs := Conversion.entry_type_ne
  unfold pageType
  by_cases hpage : OnPages x core ∨ OnPages x smmap
  · rw [if_pos hpage]
    exact ⟨iff_of_true rfl hpage, iff_of_false htype (not_not_intro hpage)⟩
  · rw [if_neg hpage]
    exact ⟨iff_of_false htype.symm hpage, iff_of_true rfl hpage⟩

variable (hcore : PlacedIn core ds) (hsmmap : PlacedIn smmap ds) (hds : Described ds) (hd : d ∈ ds)

include hcore hsmmap hds hd

-- The three pieces of the descriptor of UniBootCore: the one in front of it, and the one
-- behind it while slot `e` is kept and once it is lost.
theorem coreFront_iff :
    (∀ x, Span.Mem x d.span → x < core.base → d.entry.type = pageType core smmap d x) ↔
      (d.Contains smmap → core.base ≤ smmap.base) := by
  constructor
  · intro hright hs
    obtain ⟨-, hlow, hmid, hhigh⟩ := hds.pages_inside hd hsmmap.aligned hsmmap.part hs
    by_contra hfront
    have hin : Span.Mem smmap.base d.span := ⟨hlow, Nat.lt_of_lt_of_le hmid hhigh⟩
    exact pageType_iff.2.mp (hright _ hin (Nat.lt_of_not_le hfront))
      (.inr ((onPages_iff hsmmap.aligned).mpr ⟨Nat.le_refl _, hmid⟩))
  · intro hfront x hx hlt
    rw [pageType_iff.2, onPages_iff hcore.aligned]
    rintro (hpage | hpage)
    · omega
    · have hle := hfront (hsmmap.contains hds hd hx hpage)
      have hpage := (onPages_iff hsmmap.aligned).mp hpage
      omega

theorem coreKept_iff (hc : d.Contains core) :
    (∀ x, Span.Mem x d.span → alignUpPage core.limit ≤ x →
      d.entry.type = pageType core smmap d x) ↔
      (d.Contains smmap → alignUpPage smmap.limit ≤ alignUpPage core.limit) := by
  obtain ⟨-, hlow, hmid, -⟩ := hds.pages_inside hd hcore.aligned hcore.part hc
  constructor
  · intro hright hs
    obtain ⟨-, hsLow, hsMid, hsHigh⟩ := hds.pages_inside hd hsmmap.aligned hsmmap.part hs
    by_contra hbehind
    have hin : Span.Mem (alignUpPage smmap.limit - 1) d.span :=
      ⟨show d.physicalStart ≤ _ by omega, show _ < d.limit by omega⟩
    exact pageType_iff.2.mp (hright _ hin (by omega))
      (.inr ((onPages_iff hsmmap.aligned).mpr ⟨by omega, by omega⟩))
  · intro hbehind x hx hge
    rw [pageType_iff.2, onPages_iff hcore.aligned]
    rintro (hpage | hpage)
    · omega
    · have hle := hbehind (hsmmap.contains hds hd hx hpage)
      have hpage := (onPages_iff hsmmap.aligned).mp hpage
      omega

theorem coreLost_iff (hc : d.Contains core) (hlt : alignUpPage core.limit < d.limit) :
    (∀ x, Span.Mem x d.span → alignUpPage core.limit ≤ x →
      .unibootStructs = pageType core smmap d x) ↔
      d.Contains smmap ∧ smmap.base ≤ alignUpPage core.limit ∧
        alignUpPage smmap.limit = d.limit := by
  obtain ⟨-, hlow, hmid, -⟩ := hds.pages_inside hd hcore.aligned hcore.part hc
  constructor
  · intro hright
    have hon (x : Nat) (hge : alignUpPage core.limit ≤ x) (hhi : x < d.limit) :
        OnPages x smmap := by
      have hin : Span.Mem x d.span := ⟨show d.physicalStart ≤ x by omega, hhi⟩
      refine (pageType_iff.1.mp (hright x hin hge)).resolve_left fun hpage => ?_
      have hpage := (onPages_iff hcore.aligned).mp hpage
      omega
    have hfirst := hon (alignUpPage core.limit) (Nat.le_refl _) hlt
    have hlast := (onPages_iff hsmmap.aligned).mp (hon (d.limit - 1) (by omega) (by omega))
    have hin : Span.Mem (alignUpPage core.limit) d.span :=
      ⟨show d.physicalStart ≤ _ by omega, hlt⟩
    have hs := hsmmap.contains hds hd hin hfirst
    obtain ⟨-, -, -, hsHigh⟩ := hds.pages_inside hd hsmmap.aligned hsmmap.part hs
    exact ⟨hs, ((onPages_iff hsmmap.aligned).mp hfirst).1, by omega⟩
  · rintro ⟨-, hsLow, hsHigh⟩ x hx hge
    have hxHigh : x < d.limit := hx.2
    exact pageType_iff.1.mpr (.inr ((onPages_iff hsmmap.aligned).mpr ⟨by omega, by omega⟩))

-- The round for the descriptor of UniBootCore.
theorem coreRound_iff {prev : LastEntry} (hc : d.Contains core) :
    (∀ x, Span.Mem x d.span → cutType prev d core.base (alignUpPage core.limit) x =
        pageType core smmap d x) ↔ PiecesRight core smmap prev d := by
  obtain ⟨-, -, hmid, hhigh⟩ := hds.pages_inside hd hcore.aligned hcore.part hc
  have hpieces : (∀ x, Span.Mem x d.span →
      cutType prev d core.base (alignUpPage core.limit) x = pageType core smmap d x) ↔
      (∀ x, Span.Mem x d.span → x < core.base → d.entry.type = pageType core smmap d x) ∧
        ∀ x, Span.Mem x d.span → alignUpPage core.limit ≤ x →
          typeBehind prev d core.base = pageType core smmap d x := by
    unfold cutType
    constructor
    · refine fun hright => ⟨fun x hx hlt => ?_, fun x hx hge => ?_⟩
      · have hx := hright x hx
        rwa [if_pos hlt] at hx
      · have hx := hright x hx
        rwa [if_neg (by omega), if_neg (by omega)] at hx
    · rintro ⟨hfront, hbehind⟩ x hx
      by_cases hlt : x < core.base
      · rw [if_pos hlt]
        exact hfront x hx hlt
      · rw [if_neg hlt]
        by_cases hin : x < alignUpPage core.limit
        · rw [if_pos hin]
          exact pageType_iff.1.mpr (.inl ((onPages_iff hcore.aligned).mpr ⟨by omega, hin⟩))
        · rw [if_neg hin]
          exact hbehind x hx (Nat.le_of_not_lt hin)
  rw [hpieces, coreFront_iff hcore hsmmap hds hd]
  unfold PiecesRight
  simp only [hc, not_true_eq_false, false_imp_iff, and_true, true_imp_iff]
  refine and_congr_right fun _ => ?_
  by_cases hlost : SlotLost prev d core.base
  · rw [typeBehind, if_pos hlost]
    by_cases hall : alignUpPage core.limit = d.limit
    · rw [if_pos (.inl hall), hall]
      refine iff_of_true (fun x hx hge => absurd hx.2 (Nat.not_lt.mpr hge)) fun hs => ?_
      exact (hds.pages_inside hd hsmmap.aligned hsmmap.part hs).2.2.2
    · rw [if_neg (by rw [not_or, not_not]; exact ⟨hall, hlost⟩)]
      exact coreLost_iff hcore hsmmap hds hd hc (Nat.lt_of_le_of_ne hhigh hall)
  · rw [typeBehind, if_neg hlost, if_pos (.inr hlost)]
    exact coreKept_iff hcore hsmmap hds hd hc

-- The round for the descriptor of SMMAP, when UniBootCore is in another.
theorem smmapRound_iff {prev : LastEntry} (hc : ¬ d.Contains core) (hs : d.Contains smmap) :
    (∀ x, Span.Mem x d.span → cutType prev d smmap.base (alignUpPage smmap.limit) x =
        pageType core smmap d x) ↔ PiecesRight core smmap prev d := by
  obtain ⟨hdown, hlow, hmid, hhigh⟩ := hds.pages_inside hd hsmmap.aligned hsmmap.part hs
  have hmem (x : Nat) : Span.Mem x d.span ↔ d.physicalStart ≤ x ∧ x < d.limit := Iff.rfl
  have hpage (x : Nat) (hx : Span.Mem x d.span) : OnPages x core ∨ OnPages x smmap ↔
      smmap.base ≤ x ∧ x < alignUpPage smmap.limit := by
    rw [or_iff_right fun hpage => hc (hcore.contains hds hd hx hpage), OnPages, hdown]
  have htype := Conversion.entry_type_ne (d := d)
  have hentry : smmapType d.type = d.entry.type := rfl
  unfold PiecesRight
  simp only [hc, hs, false_imp_iff, not_false_eq_true, true_imp_iff, true_and]
  constructor
  · intro hright
    by_contra hlost
    rw [not_or, not_not] at hlost
    have hin : Span.Mem (alignUpPage smmap.limit) d.span := (hmem _).mpr ⟨by omega, by omega⟩
    have hx := hright _ hin
    rw [cutType, if_neg (by omega), if_neg (by omega), typeBehind, if_pos hlost.2, pageType,
      if_neg (fun h => by have := (hpage _ hin).mp h; omega)] at hx
    exact htype hx.symm
  · intro hkept x hx
    obtain ⟨hxLow, hxHigh⟩ := (hmem x).mp hx
    unfold cutType pageType
    simp only [hpage x hx]
    by_cases hxFront : x < smmap.base
    · rw [if_pos hxFront, if_neg (by omega), hentry]
    · by_cases hxMid : x < alignUpPage smmap.limit
      · rw [if_neg hxFront, if_pos hxMid, if_pos ⟨by omega, hxMid⟩]
      · rw [if_neg hxFront, if_neg hxMid, if_neg (by omega), typeBehind,
          if_neg (hkept.resolve_left (by omega)), hentry]

variable (hcoreFits : core.limit < 2 ^ 64) (hsmmapFits : smmap.limit < 2 ^ 64)
  (hmiss : VirtualMiss core smmap d)

include hcoreFits hsmmapFits hmiss

-- Where the virtual ranges do no harm, the structure cut out is in the descriptor.
theorem cutOut_eq :
    cutOut core smmap d =
      if d.Contains core then some (core.base, alignUpPage core.limit)
      else if d.Contains smmap then some (smmap.base, alignUpPage smmap.limit)
      else none := by
  have hvirt := hds.virt d hd
  have hdown {s : Span} (hs : PAGE_SIZE ∣ s.base) : alignDown s.base = s.base :=
    Nat.div_mul_cancel hs
  unfold cutOut
  rw [hdown hcore.aligned, hdown hsmmap.aligned]
  by_cases hc : d.Contains core
  · rw [if_pos ((holds_iff hvirt hcoreFits).mpr (.inl hc)), if_pos hc]
  · have hnot : ¬ Holds core d.entry := by
      rw [holds_iff hvirt hcoreFits]
      rintro (h | h)
      · exact hc h
      · exact hc (hmiss.1 h)
    rw [if_neg hnot, if_neg hc]
    by_cases hs : d.Contains smmap
    · rw [if_pos ((holds_iff hvirt hsmmapFits).mpr (.inl hs)), if_pos hs]
    · have hnot' : ¬ Holds smmap d.entry := by
        rw [holds_iff hvirt hsmmapFits]
        rintro (h | h)
        · exact hs h
        · exact hs (hmiss.2 hc h)
      rw [if_neg hnot', if_neg hs]

theorem cutInside_of_miss : CutInside core smmap d where
  virt := hds.virt d hd
  unfit := by
    rintro (h | h)
    · exact not_perfectFit (hds.virt d hd) (hds.aligned d hd) hcore.aligned hcore.part hcoreFits h
    · exact not_perfectFit (hds.virt d hd) (hds.aligned d hd) hsmmap.aligned hsmmap.part hsmmapFits h
  inside := by
    intro ubStart ubEnd hcut
    rw [cutOut_eq hcore hsmmap hds hd hcoreFits hsmmapFits hmiss] at hcut
    split at hcut
    · cases hcut
      exact (hds.pages_inside hd hcore.aligned hcore.part ‹_›).2
    · split at hcut
      · cases hcut
        exact (hds.pages_inside hd hsmmap.aligned hsmmap.part ‹_›).2
      · cases hcut

theorem round_right_iff (prev : LastEntry) :
    (∀ x, Span.Mem x d.span → roundType core smmap prev d x = pageType core smmap d x) ↔
      PiecesRight core smmap prev d := by
  unfold roundType
  rw [cutOut_eq hcore hsmmap hds hd hcoreFits hsmmapFits hmiss]
  by_cases hc : d.Contains core
  · simp only [hc, if_true]
    exact coreRound_iff hcore hsmmap hds hd hc
  · by_cases hs : d.Contains smmap
    · simp only [hc, hs, if_true, if_false]
      exact smmapRound_iff hcore hsmmap hds hd hc hs
    · simp only [hc, hs, if_false]
      refine iff_of_true (fun x hx => ?_) ⟨fun h => absurd h hc, fun _ h => absurd h hs⟩
      rw [pageType, if_neg]
      · rfl
      · rintro (hpage | hpage)
        · exact hc (hcore.contains hds hd hx hpage)
        · exact hs (hsmmap.contains hds hd hx hpage)

-- After a right round last_entry ends as the map says.
theorem roundLast_eq {prev : LastEntry}
    (h : ∀ x, Span.Mem x d.span → roundType core smmap prev d x = pageType core smmap d x) :
    roundLast core smmap prev d = some (d.limit, lastType core smmap d) := by
  have hmem (x : Nat) : Span.Mem x d.span ↔ d.physicalStart ≤ x ∧ x < d.limit := Iff.rfl
  have hlimit : d.limit = d.physicalStart + d.size := rfl
  have hinside := (cutInside_of_miss hcore hsmmap hds hd hcoreFits hsmmapFits hmiss).inside
  unfold roundLast lastType
  unfold roundType at h
  by_cases hempty : d.size = 0
  · rw [if_pos hempty]
    cases hcut : cutOut core smmap d with
    | none => rfl
    | some cut =>
        have := hinside cut.1 cut.2 hcut
        omega
  · rw [if_neg hempty, ← h (d.limit - 1) ((hmem _).mpr ⟨by omega, by omega⟩)]
    cases hcut : cutOut core smmap d with
    | none => rfl
    | some cut =>
        have := hinside cut.1 cut.2 hcut
        dsimp only
        by_cases hend : cut.2 < d.limit
        · rw [if_pos hend, cutType, if_neg (by omega), if_neg (by omega)]
        · rw [if_neg hend, cutType, if_neg (by omega), if_pos (by omega)]

end Pieces

theorem roundsRight_iff_mapRight {core smmap : Span} {ds : List EfiDescriptor}
    (hcore : PlacedIn core ds) (hsmmap : PlacedIn smmap ds) (hds : Described ds)
    (hcoreFits : core.limit < 2 ^ 64) (hsmmapFits : smmap.limit < 2 ^ 64)
    (hmiss : ∀ d ∈ ds, VirtualMiss core smmap d) {part : List EfiDescriptor} (hpart : part ⊆ ds)
    (prev : LastEntry) :
    RoundsRight core smmap prev part ↔ MapRight core smmap prev part := by
  induction part generalizing prev with
  | nil => exact Iff.rfl
  | cons d part ih =>
      obtain ⟨hd, hpart⟩ := List.cons_subset.mp hpart
      have hround := round_right_iff hcore hsmmap hds hd hcoreFits hsmmapFits (hmiss d hd) prev
      rw [RoundsRight, MapRight, hround]
      refine and_congr_right fun hpieces => ?_
      rw [roundLast_eq hcore hsmmap hds hd hcoreFits hsmmapFits (hmiss d hd) (hround.mpr hpieces)]
      exact ih hpart _

namespace BootLayout

-- The structures are at page boundaries inside descriptors of the map.
structure Given (b : BootLayout) : Prop where
  described : Described b.descriptors
  core_aligned : PAGE_SIZE ∣ b.uniBootCore
  core_inside : ∃ d ∈ b.descriptors, d.Contains b.coreSpan
  smmap_aligned : PAGE_SIZE ∣ b.smmap
  smmap_inside : ∃ d ∈ b.descriptors, d.Contains b.smmapSpan

def MapConverted (b : BootLayout) : Prop :=
  Converted b.coreSpan b.smmapSpan b.descriptors b.convert

variable {b : BootLayout}

theorem Given.core (h : b.Given) : PlacedIn b.coreSpan b.descriptors :=
  ⟨h.core_aligned, show ¬ PAGE_SIZE ∣ sizeofBootInfo by decide, h.core_inside⟩

theorem Given.smmap (h : b.Given) : PlacedIn b.smmapSpan b.descriptors := by
  refine ⟨h.smmap_aligned, ?_, h.smmap_inside⟩
  simp only [smmapSpan, smmapSize, sizeofSmmap, sizeofSmmapEntry, PAGE_SIZE]
  omega

theorem core_limit_lt (b : BootLayout) : b.coreSpan.limit < 2 ^ 64 :=
  (le_alignUpPage _).trans_lt b.core_fits

theorem smmap_limit_lt (b : BootLayout) : b.smmapSpan.limit < 2 ^ 64 :=
  (le_alignUpPage _).trans_lt b.smmap_fits

-- Where no virtual range catches a structure, the map comes out right exactly
-- if every descriptor's pieces do.
theorem map_converted_iff (h : b.Given)
    (hmiss : ∀ d ∈ b.descriptors, VirtualMiss b.coreSpan b.smmapSpan d) :
    b.MapConverted ↔ MapRight b.coreSpan b.smmapSpan none b.descriptors := by
  have hds := h.described
  have hcut (d : EfiDescriptor) (hd : d ∈ b.descriptors) : CutInside b.coreSpan b.smmapSpan d :=
    cutInside_of_miss h.core h.smmap hds hd b.core_limit_lt b.smmap_limit_lt (hmiss d hd)
  rw [← roundsRight_iff_mapRight h.core h.smmap hds b.core_limit_lt b.smmap_limit_lt hmiss
    (List.Subset.refl _)]
  exact converted_iff_right hcut hds.apart

theorem kernelSpaceLow_given : kernelSpaceLow.Given where
  described :=
    { apart := (show kernelSpaceLow.descriptors.Pairwise fun d e =>
        d.limit ≤ e.physicalStart ∨ e.limit ≤ d.physicalStart by decide).imp
        EfiDescriptor.apart_of_le
      aligned := by decide
      virt := by decide }
  core_aligned := by decide
  core_inside := ⟨kernelSpaceLow.descriptors[4], by decide, by decide⟩
  smmap_aligned := by decide
  smmap_inside := ⟨kernelSpaceLow.descriptors[3], by decide, by decide⟩

theorem map_converted_iff_low : kernelSpaceLow.MapConverted ∧
    MapRight kernelSpaceLow.coreSpan kernelSpaceLow.smmapSpan none kernelSpaceLow.descriptors := by
  have hright : MapRight kernelSpaceLow.coreSpan kernelSpaceLow.smmapSpan none
      kernelSpaceLow.descriptors := by decide
  exact ⟨(map_converted_iff kernelSpaceLow_given (by decide)).mpr hright, hright⟩

theorem lowMemory_fits : 0 + 0xA0 * 4096 < 2 ^ 64 := by decide

theorem loaderData_fits : 0x7D000000 + 0x10 * 4096 < 2 ^ 64 := by decide

theorem core_fits_first : alignUpPage (0x7D000000 + sizeofBootInfo) < 2 ^ 64 := by decide

theorem bss_fits_first : alignUpPage (0x500000 + 0x1000000) < 2 ^ 64 := by decide

-- UniBootCore at the start of its descriptor, and another type in front of it.
def coreFirst : BootLayout where
  descriptors := [
    ⟨.conventionalMemory, 0, 0, 0xA0, lowMemory_fits⟩,
    ⟨.conventionalMemory, 0x100000, 0, 0x7CF00, by decide⟩,
    ⟨.loaderData, 0x7D000000, 0, 0x10, loaderData_fits⟩]
  kernelImage := ⟨0x100000, 0x400000⟩
  kernelSpace := 0x500000
  uniBootCore := 0x7D000000
  smmap := 0x7C000000
  bssEnd := 0x500000
  core_fits := core_fits_first
  smmap_fits := by decide
  bss_fits := bss_fits_first

theorem coreFirst_given : coreFirst.Given where
  described :=
    { apart := (show coreFirst.descriptors.Pairwise fun d e =>
        d.limit ≤ e.physicalStart ∨ e.limit ≤ d.physicalStart by decide).imp
        EfiDescriptor.apart_of_le
      aligned := by decide
      virt := by decide }
  core_aligned := by decide
  core_inside := ⟨coreFirst.descriptors[2], by decide, by decide⟩
  smmap_aligned := by decide
  smmap_inside := ⟨coreFirst.descriptors[1], by decide, by decide⟩

-- The rest of its descriptor is typed as a structure too.
theorem map_converted_fails : ∃ b : BootLayout, b.Given ∧ ¬ b.MapConverted := by
  refine ⟨coreFirst, coreFirst_given, fun h => ?_⟩
  have htype := h.typed ⟨.unibootStructs, 0x7D001000, 0, 0xF000⟩ (by decide +kernel)
    coreFirst.descriptors[2] (by decide) 0x7D001000 (by decide) (by decide)
  exact absurd htype (by decide)

end BootLayout

end AosKernel.Boot
