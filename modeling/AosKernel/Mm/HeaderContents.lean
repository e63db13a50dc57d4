import AosKernel.Mm.HeaderLinks

namespace AosKernel.Mm

-- A header without its place in a list.
def Header.contents (x : Header) : Header := { x with next := none, parent := none }

namespace HeaderRegion

-- Nothing but links, lists and counts differs.
structure SameContents (r r' : HeaderRegion) : Prop where
  header : r'.toRegionHeader = r.toRegionHeader
  contents : ∀ h, (r'.headers h).contents = (r.headers h).contents

namespace SameContents

variable {r r' r'' : HeaderRegion} {h : Nat}

theorem refl (r : HeaderRegion) : SameContents r r := ⟨rfl, fun _ => rfl⟩

theorem trans (h : SameContents r r') (h' : SameContents r' r'') : SameContents r r'' :=
  ⟨h'.header.trans h.header, fun a => (h'.contents a).trans (h.contents a)⟩

theorem type (h : SameContents r r') (a : Nat) : (r'.headers a).type = (r.headers a).type :=
  congrArg (·.type) (h.contents a)

theorem extent (h : SameContents r r') (a : Nat) :
    (r'.headers a).toExtent = (r.headers a).toExtent :=
  congrArg (·.toExtent) (h.contents a)

theorem intact (h : SameContents r r') {a : Nat} (ha : (r.headers a).Intact) :
    (r'.headers a).Intact :=
  ⟨(congrArg (·.signature) (h.contents a)).trans ha.1,
    (congrArg (·.version) (h.contents a)).trans ha.2⟩

theorem of_modify {a : Nat} {f : Header → Header} (hf : ∀ x, (f x).contents = x.contents) :
    SameContents r (r.modify a f) := by
  refine ⟨rfl, fun b => ?_⟩
  by_cases hb : b = a
  · subst hb
    rw [headers_modify_self, hf]
  · rw [headers_modify_of_ne _ hb]

theorem setList (h : SameContents r r') (k : ListKind) (l : HeaderList) :
    SameContents r (r'.setList k l) :=
  ⟨h.header, h.contents⟩

theorem modify (h : SameContents r r') {a : Nat} {f : Header → Header}
    (hf : ∀ x, (f x).contents = x.contents) : SameContents r (r'.modify a f) :=
  h.trans (.of_modify hf)

end SameContents

section Intact

variable {r : HeaderRegion} (hintact : ∀ a, (r.headers a).Intact)

include hintact

theorem not_poisoned (n : Option Nat) : ¬ r.Poisoned n := by
  rintro ⟨b, -, hb⟩
  exact hb (hintact b)

theorem unlinkChild_contents (n p : Option Nat) : SameContents r (r.unlinkChild n p) := by
  unfold unlinkChild
  split
  · exact .refl r
  · rw [if_neg (not_poisoned hintact _)]
    exact .of_modify fun _ => rfl

theorem unlinkParent_contents (n p : Option Nat) : SameContents r (r.unlinkParent n p) := by
  unfold unlinkParent
  split
  · exact .refl r
  · rw [if_pos (not_poisoned hintact _)]
    exact .of_modify fun _ => rfl

-- Unlinking a header of a list that has one leaves all headers what they are.
theorem avmfUnlinkHeader_contents {h : Nat} {k : ListKind}
    (hkind : (r.headers h).type.kind = some k) (hcount : (r.lists k).count ≠ 0) :
    SameContents r (r.avmfUnlinkHeader h) := by
  unfold avmfUnlinkHeader
  by_cases hrejected : r.Rejected
  · rw [if_pos hrejected]
    exact .refl r
  simp only [if_neg hrejected, hkind, if_neg hcount, not_poisoned hintact, if_false, false_or]
  generalize (r.headers h).next = n
  generalize (r.headers h).parent = p
  have hchild := unlinkChild_contents hintact n p
  have hintact' (a : Nat) := hchild.intact (hintact a)
  rw [if_neg (not_poisoned hintact' p)]
  exact ((hchild.trans (unlinkParent_contents hintact' n p)).setList k _).modify
    (f := fun x => { x with next := none, parent := none }) fun _ => rfl

omit hintact in
-- Where its list counts no header, it is taken for a corrupt one.
theorem avmfUnlinkHeader_empty {h : Nat} {k : ListKind} (hvalid : ¬ r.Rejected)
    (hkind : (r.headers h).type.kind = some k) (hcount : (r.lists k).count = 0) :
    r.avmfUnlinkHeader h = r.modify h fun x => { x with type := .corrupt } := by
  unfold avmfUnlinkHeader
  simp only [if_neg hvalid, hkind, if_pos hcount]

omit hintact in
theorem linkBehind_contents (k : ListKind) (c h count : Nat) :
    SameContents r (r.linkBehind k c h count) := by
  have hbehind : SameContents r (r.modify c fun x => { x with next := some h }) :=
    .of_modify fun _ => rfl
  exact (hbehind.modify (f := fun x => { x with parent := some c }) fun _ => rfl).setList k _

omit hintact in
theorem resetListFrom_contents (k : ListKind) (h i : Nat) (p : Option Nat) :
    SameContents r (r.resetListFrom k h i p) := by
  unfold resetListFrom
  split
  · exact (SameContents.refl r).setList _ _
  · split
    · exact (SameContents.refl r).setList _ _
    · exact linkBehind_contents ..

theorem findProperEnd_contents (k : ListKind) (h m i : Nat) (p : Option Nat) (c : Nat) :
    SameContents r (findProperEnd k h m i p c r) := by
  induction m generalizing i p c with
  | zero => exact .refl r
  | succ m ih =>
      unfold findProperEnd
      dsimp only
      rw [if_neg (not_not.mpr (hintact c))]
      split
      · split
        · exact resetListFrom_contents ..
        · split
          · exact resetListFrom_contents ..
          · exact ih ..
      · split
        · exact linkBehind_contents ..
        · exact ih ..

theorem noProperEnd_contents (k : ListKind) (h : Nat) : SameContents r (r.noProperEnd k h) := by
  unfold noProperEnd
  dsimp only
  have hset := (SameContents.refl r).setList k { r.lists k with listEnd := some h }
  split
  · exact hset
  · exact hset.trans (findProperEnd_contents (fun a => hset.intact (hintact a)) ..)

-- Linking succeeds for every header that has a list, and changes no header.
theorem avmfLinkHeader_contents {h : Nat} {k : ListKind} (hvalid : ¬ r.Rejected)
    (hkind : (r.headers h).type.kind = some k) :
    (r.avmfLinkHeader h).1 = true ∧ SameContents r (r.avmfLinkHeader h).2 := by
  have hclear : SameContents r (r.modify h fun x => { x with next := none, parent := none }) :=
    .of_modify fun _ => rfl
  have hkind' := hkind
  rw [← hclear.type] at hkind'
  have hintact' (a : Nat) := hclear.intact (hintact a)
  unfold avmfLinkHeader
  simp only [if_neg hvalid, hkind']
  split
  · exact ⟨rfl, hclear.setList _ _⟩
  · split
    · exact ⟨rfl, hclear.trans (noProperEnd_contents hintact' ..)⟩
    · split
      · exact ⟨rfl, hclear.trans (noProperEnd_contents hintact' ..)⟩
      · exact ⟨rfl, hclear.trans (linkBehind_contents ..)⟩

end Intact

end HeaderRegion

end AosKernel.Mm
