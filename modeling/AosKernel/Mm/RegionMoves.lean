import AosKernel.Mm.RegionInvariant

namespace AosKernel.Mm

open Verif Verif.Exec Verif.Span

namespace Region

-- Unlinking the header makes it a corrupt one: its list counts no header.
def Strips (r : Region) (c : Nat) : Prop := ∃ k ∈ (r.headers c).type.kind, (r.lists k).count = 0

instance (r : Region) (c : Nat) : Decidable (r.Strips c) := by unfold Strips; infer_instance

-- So does one of the turns of a walk, each taken at a header in a region.
def Stripped (turns : List (Region × Nat)) (h : Nat) : Prop := ∃ x ∈ turns, x.2 = h ∧ x.1.Strips h

-- The type of one header has changed and none else.
structure Retyped (r : Region) (c : Nat) (type : AvmfHeaderType) (r' : Region) : Prop
    extends r.Relinked r' where
  type_eq : r'.type c = type
  others : ∀ h, h ≠ c → r'.type h = r.type h

-- A walk over the list `k`: headers of other types have become corrupt.
structure Passed (k : ListKind) (turns : List (Region × Nat)) (r r' : Region) : Prop
    extends r.Relinked r' where
  stripped : ∀ h, Stripped turns h →
    r'.type h = .corrupt ∧ r.type h ≠ k.type ∧ r.type h ≠ .corrupt
  others : ∀ h, ¬ Stripped turns h → r'.type h = r.type h

section Types

variable {r r' r'' : Region} {k : ListKind} {turns turns' : List (Region × Nat)} {c h : Nat}

theorem stripped_nil : ¬ Stripped [] h := by simp [Stripped]

theorem stripped_append : Stripped (turns ++ turns') h ↔ Stripped turns h ∨ Stripped turns' h := by
  simp only [Stripped, List.mem_append, or_and_right, exists_or]

theorem stripped_singleton : Stripped [(r, c)] h ↔ c = h ∧ r.Strips h := by
  simp only [Stripped, List.mem_singleton, exists_eq_left]

theorem Passed.refl (k : ListKind) (r : Region) : Passed k [] r r :=
  ⟨.refl r, fun _ h => absurd h stripped_nil, fun _ _ => rfl⟩

theorem Passed.trans (h : Passed k turns r r') (h' : Passed k turns' r' r'') :
    Passed k (turns ++ turns') r r'' := by
  refine ⟨h.toRelinked.trans h'.toRelinked, fun a ha => ?_, fun a ha => ?_⟩
  · rw [stripped_append] at ha
    by_cases hlater : Stripped turns' a
    · obtain ⟨hcorrupt, hkind, hgood⟩ := h'.stripped a hlater
      have hsame := h.others a fun hearlier => hgood (h.stripped a hearlier).1
      rw [hsame] at hkind hgood
      exact ⟨hcorrupt, hkind, hgood⟩
    · obtain ⟨hcorrupt, hkind, hgood⟩ := h.stripped a (ha.resolve_right hlater)
      exact ⟨(h'.others a hlater).trans hcorrupt, hkind, hgood⟩
  · rw [stripped_append, not_or] at ha
    exact (h'.others a ha.2).trans (h.others a ha.1)

-- A header of the list that is walked over stays one.
theorem Passed.kept (h : Passed k turns r r') {a : Nat} (ha : r.type a = k.type) :
    r'.type a = k.type :=
  (h.others a fun hstripped => (h.stripped a hstripped).2.1 ha).trans ha

theorem Passed.type_or (h : Passed k turns r r') (a : Nat) :
    r'.type a = r.type a ∨ r'.type a = .corrupt := by
  by_cases ha : Stripped turns a
  · exact .inr (h.stripped a ha).1
  · exact .inl (h.others a ha)

theorem Passed.corrupt_iff (h : Passed k turns r r') (a : Nat) :
    r'.type a = .corrupt ↔ r.type a = .corrupt ∨ Stripped turns a := by
  by_cases ha : Stripped turns a
  · exact iff_of_true (h.stripped a ha).1 (.inr ha)
  · rw [h.others a ha, or_iff_left ha]

theorem Passed.inv {lo hi : Nat} (hinv : r.Inv lo hi) (h : Passed k turns r r') : r'.Inv lo hi := by
  refine hinv.relinked h.toRelinked fun a ha => ?_
  rcases h.type_or a with heq | heq
  · exact heq.trans (hinv.unmade a ha)
  · exact heq

theorem Retyped.inv {lo hi : Nat} {type : AvmfHeaderType} (hinv : r.Inv lo hi)
    (h : Retyped r c type r') (hc : c < r.made) : r'.Inv lo hi :=
  hinv.relinked h.toRelinked fun a ha => (h.others a (by omega)).trans (hinv.unmade a ha)

section Links

variable (hvalid : ¬ r.Rejected) (hintact : ∀ a, (r.headers a).Intact)

include hintact

theorem unlinkHeader_sameContents {k : ListKind} (htype : r.type c = k.type)
    (hcount : (r.lists k).count ≠ 0) : r.SameContents (r.unlinkHeader c).toHeaderRegion := by
  refine HeaderRegion.avmfUnlinkHeader_contents hintact (k := k) ?_ hcount
  rw [← kind_type k, ← htype]
  rfl

include hvalid

theorem linkHeader_sameContents {k : ListKind} (htype : r.type c = k.type) :
    (r.linkHeader c).1 = true ∧ r.SameContents (r.linkHeader c).2.toHeaderRegion ∧
      r.Relinked (r.linkHeader c).2 := by
  have hkind : (r.headers c).type.kind = some k := by
    rw [← kind_type k, ← htype]
    rfl
  obtain ⟨hok, hsame⟩ := HeaderRegion.avmfLinkHeader_contents hintact hvalid hkind
  exact ⟨hok, hsame, relinked_of_sameContents hsame⟩

-- A header moves from its list to another one.
theorem moveHeader {k j : ListKind} (htype : r.type c = k.type) (hcount : (r.lists k).count ≠ 0) :
    (((r.unlinkHeader c).modifyHeader c fun x => { x with type := j.type }).linkHeader c).1 = true ∧
      Retyped r c j.type
        (((r.unlinkHeader c).modifyHeader c fun x => { x with type := j.type }).linkHeader c).2 := by
  have hunlink := unlinkHeader_sameContents hintact htype hcount
  have hunlinked : r.Relinked (r.unlinkHeader c) := relinked_of_sameContents hunlink
  have hstore := modifyHeader_relinked (r.unlinkHeader c) c
    (f := fun x => { x with type := j.type }) (fun _ => rfl) fun _ h => h
  have hset : ((r.unlinkHeader c).modifyHeader c fun x => { x with type := j.type }).type c =
      j.type := by
    rw [Region.type, modifyHeader, HeaderRegion.headers_modify_self]
  have hrest (h : Nat) (hh : h ≠ c) :
      ((r.unlinkHeader c).modifyHeader c fun x => { x with type := j.type }).type h = r.type h := by
    rw [Region.type, modifyHeader, HeaderRegion.headers_modify_of_ne _ hh]
    exact hunlink.type h
  have hrelinked := hunlinked.trans hstore
  generalize (r.unlinkHeader c).modifyHeader c (fun x => { x with type := j.type }) = r₁ at *
  obtain ⟨hok, hsame, hlinked⟩ := linkHeader_sameContents (r := r₁) (c := c)
    (fun h => hvalid (hrelinked.rejected.mp h)) (fun a => hrelinked.intact a (hintact a)) hset
  exact ⟨hok, hrelinked.trans hlinked, (hsame.type c).trans hset,
    fun h hh => (hsame.type h).trans (hrest h hh)⟩

-- A turn at a header that is not of the list.
theorem passBy_passed (hstray : r.type c ≠ k.type) : Passed k [(r, c)] r (r.passBy k c).2 := by
  unfold passBy
  dsimp only
  by_cases hcorrupt : (r.headers c).type = .corrupt
  · have hkept : ¬ r.Strips c := by
      simp [Strips, hcorrupt, AvmfHeaderType.kind]
    rw [if_pos hcorrupt]
    refine ⟨.refl r, fun h hh => ?_, fun _ _ => rfl⟩
    obtain ⟨rfl, hh⟩ := stripped_singleton.mp hh
    exact absurd hh hkept
  rw [if_neg hcorrupt]
  obtain ⟨j, hj⟩ : ∃ j, (r.headers c).type.kind = some j := by
    cases htype : (r.headers c).type with
    | corrupt => exact absurd htype hcorrupt
    | cache => exact ⟨.cache, rfl⟩
    | alloc => exact ⟨.alloc, rfl⟩
  have hstrips : r.Strips c ↔ (r.lists j).count = 0 := by simp [Strips, hj]
  by_cases hcount : (r.lists j).count = 0
  · have hempty : r.unlinkHeader c = r.modifyHeader c fun x => { x with type := .corrupt } := by
      rw [unlinkHeader, HeaderRegion.avmfUnlinkHeader_empty hvalid hj hcount]
      rfl
    rw [hempty]
    refine ⟨modifyHeader_relinked r c (fun _ => rfl) fun _ h => h, fun h hh => ?_, fun h hh => ?_⟩
    · obtain ⟨rfl, -⟩ := stripped_singleton.mp hh
      refine ⟨?_, hstray, hcorrupt⟩
      rw [Region.type, modifyHeader, HeaderRegion.headers_modify_self]
    · have hne : h ≠ c := by
        rintro rfl
        exact hh (stripped_singleton.mpr ⟨rfl, hstrips.mpr hcount⟩)
      rw [Region.type, modifyHeader, HeaderRegion.headers_modify_of_ne _ hne]
      rfl
  · have hsame : r.SameContents (r.unlinkHeader c).toHeaderRegion :=
      HeaderRegion.avmfUnlinkHeader_contents hintact hj hcount
    refine ⟨relinked_of_sameContents hsame, fun h hh => ?_, fun h _ => hsame.type h⟩
    obtain ⟨rfl, hh⟩ := stripped_singleton.mp hh
    exact absurd (hstrips.mp hh) hcount

end Links

end Types

end Region

end AosKernel.Mm
