import AosKernel.Lib.DoublyLinked
import AosKernel.Lib.Trace
import AosKernel.Mm.HeaderLinks

namespace AosKernel.Mm

open Verif

namespace HeaderRegion

def next (r : HeaderRegion) (a : Nat) : Option Nat := (r.headers a).next

def parent (r : HeaderRegion) (a : Nat) : Option Nat := (r.headers a).parent

-- The headers of `l` are properly linked in a list of the region.
structure Linked (r : HeaderRegion) (k : ListKind) (l : List Nat) : Prop where
  links : DoublyLinked r.next r.parent (r.lists k).list (r.lists k).listEnd l
  count : (r.lists k).count = l.length
  intact : ∀ a ∈ l, (r.headers a).Intact ∧ (r.headers a).type = k.type

section Operations

variable {r r' : HeaderRegion} {j k : ListKind} {l u v : List Nat} {a h : Nat}

-- What happens to other headers and to the other list does not matter.
theorem Linked.congr (hl : r.Linked k l) (hlists : r'.lists k = r.lists k)
    (hsame : ∀ a ∈ l, r'.headers a = r.headers a) : r'.Linked k l := by
  refine ⟨?_, hlists ▸ hl.count, fun a ha => hsame a ha ▸ hl.intact a ha⟩
  rw [hlists]
  exact hl.links.congr fun a ha => ⟨congrArg Header.next (hsame a ha),
    congrArg Header.parent (hsame a ha)⟩

-- A header is in one list only.
theorem Linked.kind_eq (hj : r.Linked j u) (hk : r.Linked k v) (hu : a ∈ u) (hv : a ∈ v) :
    j = k :=
  type_injective ((hj.intact a hu).2.symm.trans (hk.intact a hv).2)

theorem unlinkChild_headers {n p : Option Nat} (hn : ¬ r.Poisoned n) (b : Nat) :
    (r.unlinkChild n p).headers b =
      { r.headers b with parent := if n = some b then p else (r.headers b).parent } := by
  cases n with
  | none => rfl
  | some c =>
      rw [unlinkChild, if_neg hn]
      by_cases hb : c = b
      · subst hb
        rw [headers_modify_self, if_pos rfl]
      · rw [headers_modify_of_ne _ (Ne.symm hb), if_neg fun h => hb (Option.some.inj h)]

theorem unlinkChild_rest (n p : Option Nat) :
    (r.unlinkChild n p).lists = r.lists ∧
      (r.unlinkChild n p).toRegionHeader = r.toRegionHeader := by
  unfold unlinkChild
  split
  · exact ⟨rfl, rfl⟩
  · split <;> exact ⟨rfl, rfl⟩

theorem unlinkParent_headers {n p : Option Nat} (hp : ¬ r.Poisoned p) (b : Nat) :
    (r.unlinkParent n p).headers b =
      { r.headers b with next := if p = some b then n else (r.headers b).next } := by
  cases p with
  | none => rfl
  | some c =>
      have hwrite : r.unlinkParent n (some c) = r.modify c fun x => { x with next := n } :=
        if_pos hp
      rw [hwrite]
      by_cases hb : c = b
      · subst hb
        rw [headers_modify_self, if_pos rfl]
      · rw [headers_modify_of_ne _ (Ne.symm hb), if_neg fun h => hb (Option.some.inj h)]

theorem unlinkParent_rest (n p : Option Nat) :
    (r.unlinkParent n p).lists = r.lists ∧
      (r.unlinkParent n p).toRegionHeader = r.toRegionHeader := by
  unfold unlinkParent
  split
  · exact ⟨rfl, rfl⟩
  · split
    · exact ⟨rfl, rfl⟩
    · split <;> exact ⟨rfl, rfl⟩

-- A header that is linked has neighbours of the list.
theorem Linked.neighbours (hl : r.Linked k (u ++ h :: v)) :
    r.next h = v.head? ∧ r.parent h = u.getLast? ∧ ¬ r.Poisoned v.head? ∧
      ¬ r.Poisoned u.getLast? := by
  refine ⟨hl.links.next_eq, hl.links.parent_eq, ?_, ?_⟩
  · rintro ⟨b, hb, hbad⟩
    have hmem : b ∈ v := List.mem_of_mem_head? hb
    exact hbad (hl.intact b (by simp [hmem])).1
  · rintro ⟨b, hb, hbad⟩
    have hmem : b ∈ u := List.mem_of_mem_getLast? hb
    exact hbad (hl.intact b (by simp [hmem])).1

theorem poisoned_congr {n : Option Nat}
    (hsame : ∀ b, (r'.headers b).signature = (r.headers b).signature ∧
      (r'.headers b).version = (r.headers b).version) : r'.Poisoned n ↔ r.Poisoned n := by
  simp only [Poisoned, Header.Intact, (hsame _).1, (hsame _).2]

theorem unlink_eq (hvalid : ¬ r.Rejected) (hl : r.Linked k (u ++ h :: v)) :
    r.avmfUnlinkHeader h =
      ((r.unlinkChild v.head? u.getLast?).unlinkParent v.head? u.getLast?).dropEnd k h := by
  obtain ⟨hnext, hparent, hchild, hpar⟩ := hl.neighbours
  have hcount : (r.lists k).count ≠ 0 := by
    rw [hl.count]
    simp
  have hpar' : ¬ (r.unlinkChild v.head? u.getLast?).Poisoned u.getLast? := by
    rw [poisoned_congr fun b => ?_]
    · exact hpar
    · rw [unlinkChild_headers hchild]
      exact ⟨rfl, rfl⟩
  rw [next] at hnext
  rw [parent] at hparent
  unfold avmfUnlinkHeader
  simp only [if_neg hvalid, (hl.intact h (by simp)).2, kind_type, if_neg hcount, hnext, hparent,
    hchild, hpar', or_self, if_false]

-- Where a list with a linked header starts and ends.
theorem Linked.first_iff (hl : r.Linked k (u ++ h :: v)) : (r.lists k).list = some h ↔ u = [] := by
  have hforward := hl.links.forward.resolve_left (by simp)
  cases u with
  | nil => exact iff_of_true hforward.1 rfl
  | cons c u =>
      refine iff_of_false (fun hlist => ?_) (List.cons_ne_nil c u)
      obtain rfl := Option.some.inj (hforward.1.symm.trans hlist)
      exact (List.nodup_cons.mp hl.links.nodup).1 (by simp)

theorem Linked.last_iff (hl : r.Linked k (u ++ h :: v)) :
    (r.lists k).listEnd = some h ↔ v = [] := by
  rw [hl.links.last_eq]
  have hv := (List.nodup_cons.mp (List.nodup_append.mp hl.links.nodup).2.1).1
  cases v with
  | nil => simp
  | cons c v =>
      refine iff_of_false (fun hlast => hv ?_) (List.cons_ne_nil c v)
      rw [List.getLast?_append_of_ne_nil _ (List.cons_ne_nil h _), List.getLast?_cons_cons] at hlast
      exact List.mem_of_getLast? hlast

-- What unlinking does to the other headers and to the lists.
theorem unlink_spec (hvalid : ¬ r.Rejected) (hl : r.Linked k (u ++ h :: v)) :
    (∀ b, b ≠ h → (r.avmfUnlinkHeader h).headers b =
      { r.headers b with
        next := if u.getLast? = some b then v.head? else (r.headers b).next
        parent := if v.head? = some b then u.getLast? else (r.headers b).parent }) ∧
      (r.avmfUnlinkHeader h).lists k =
        ⟨if v ≠ [] ∧ u = [] then v.head? else (r.lists k).list, (r.lists k).count - 1,
          if v = [] then u.getLast? else (r.lists k).listEnd⟩ ∧
      ∀ j, j ≠ k → (r.avmfUnlinkHeader h).lists j = r.lists j := by
  obtain ⟨hnext, hparent, hchild, hpar⟩ := hl.neighbours
  have hheaders (b : Nat) :
      ((r.unlinkChild v.head? u.getLast?).unlinkParent v.head? u.getLast?).headers b =
        { r.headers b with
          next := if u.getLast? = some b then v.head? else (r.headers b).next
          parent := if v.head? = some b then u.getLast? else (r.headers b).parent } := by
    rw [unlinkParent_headers, unlinkChild_headers hchild]
    rw [poisoned_congr fun b => ?_]
    · exact hpar
    · rw [unlinkChild_headers hchild]
      exact ⟨rfl, rfl⟩
  have hlists : ((r.unlinkChild v.head? u.getLast?).unlinkParent v.head? u.getLast?).lists =
      r.lists := by
    rw [(unlinkParent_rest ..).1, (unlinkChild_rest ..).1]
  rw [unlink_eq hvalid hl]
  generalize (r.unlinkChild v.head? u.getLast?).unlinkParent v.head? u.getLast? = r₂
    at hheaders hlists
  have hself : r₂.headers h = { r.headers h with next := v.head?, parent := u.getLast? } := by
    rw [next] at hnext
    rw [parent] at hparent
    rw [hheaders, hnext, hparent, ite_self, ite_self]
  refine ⟨fun b hb => ?_, ?_, fun j hj => ?_⟩
  · rw [dropEnd, headers_modify_of_ne _ hb]
    exact hheaders b
  · simp only [dropEnd, modify_lists, setList, Function.update_self, hlists, hself, hl.last_iff,
      hl.first_iff]
    by_cases hv : v = []
    · simp [hv]
    · by_cases hu : u = []
      · simp [hv, hu]
      · simp [hv, hu]
  · simp only [dropEnd, modify_lists, setList, hlists, Function.update_of_ne hj]

theorem unlink_header (hvalid : ¬ r.Rejected) (hl : r.Linked k (u ++ h :: v)) :
    (r.avmfUnlinkHeader h).toRegionHeader = r.toRegionHeader := by
  rw [unlink_eq hvalid hl]
  show (unlinkParent ..).toRegionHeader = _
  rw [(unlinkParent_rest ..).2, (unlinkChild_rest ..).2]

-- Unlinking takes the header out of its list.
theorem unlink_linked (hvalid : ¬ r.Rejected) (hl : r.Linked k (u ++ h :: v)) :
    (r.avmfUnlinkHeader h).Linked k (u ++ v) := by
  obtain ⟨hheaders, hlist, -⟩ := unlink_spec hvalid hl
  obtain ⟨hnext, hparent, -⟩ := hl.neighbours
  have hne : ∀ b ∈ u ++ v, b ≠ h := by
    rintro b hb rfl
    exact (List.nodup_cons.mp (List.nodup_middle.mp hl.links.nodup)).1 hb
  have hremoved := hl.links.remove (r.avmfUnlinkHeader h).next (r.avmfUnlinkHeader h).parent
    (fun b hb => ?_) fun b hb => ?_
  · refine ⟨?_, ?_, fun b hb => ?_⟩
    · rw [hlist]
      have hforward := hremoved.forward
      have hbackward := hremoved.backward
      rw [hnext] at hforward
      rw [hparent] at hbackward
      refine ⟨hforward.elim .inl fun hlinks => ?_, hbackward⟩
      by_cases hv : v = []
      · by_cases hu : u = []
        · exact .inl (by simp [hu, hv])
        · exact .inr (by simpa [hu, hv] using hlinks)
      · exact .inr (by simpa [hv] using hlinks)
    · rw [hlist, hl.count]
      simp
    · rw [hheaders b (hne b hb)]
      refine hl.intact b ?_
      rcases List.mem_append.mp hb with hb | hb <;> simp [hb]
  · rw [next, hheaders b (hne b hb), hnext]
    rfl
  · rw [parent, hheaders b (hne b hb), hparent]
    rfl

-- The other list stays as it is.
theorem unlink_other (hvalid : ¬ r.Rejected) (hl : r.Linked k (u ++ h :: v)) (hj : r.Linked j l)
    (hjk : j ≠ k) : (r.avmfUnlinkHeader h).Linked j l := by
  obtain ⟨hheaders, -, hothers⟩ := unlink_spec hvalid hl
  have hapart : ∀ a ∈ l, a ∉ u ++ h :: v := fun a ha hmem => hjk (hj.kind_eq hl ha hmem)
  refine hj.congr (hothers j hjk) fun a ha => ?_
  have ha' := hapart a ha
  rw [hheaders a (fun heq => ha' (by simp [heq])), if_neg, if_neg]
  · intro heq
    exact ha' (by simp [List.mem_of_mem_head? heq])
  · intro heq
    exact ha' (by simp [List.mem_of_getLast? heq])

-- The header as avmf_link_header looks at it.
theorem reset_headers_self (f : Header → Header)
    (htype : (f (r.headers h)).type = k.type) :
    ((r.modify h f).headers h).type.kind = some k := by
  rw [headers_modify_self, htype, kind_type]

-- A header that is linked into an empty list is the only one there.
theorem link_empty_eq (hvalid : ¬ r.Rejected) (hcount : (r.lists k).count = 0)
    (htype : (r.headers h).type = k.type) :
    r.avmfLinkHeader h =
      (true, (r.modify h fun x => { x with next := none, parent := none }).resetList k h) := by
  have hkind := reset_headers_self (f := fun x => { x with next := none, parent := none }) htype
  unfold avmfLinkHeader
  simp only [if_neg hvalid, hkind, modify_lists, hcount, Nat.lt_one_iff, true_or, if_true]

theorem link_empty (hvalid : ¬ r.Rejected) (hl : r.Linked k []) (hintact : (r.headers h).Intact)
    (htype : (r.headers h).type = k.type) : (r.avmfLinkHeader h).2.Linked k [h] := by
  rw [link_empty_eq hvalid hl.count htype]
  have hself := headers_modify_self (r := r) (a := h)
    fun x => { x with next := none, parent := none }
  refine ⟨.single ?_ ?_ ?_ ?_, ?_, ?_⟩
  · simp [resetList, setList]
  · simp [resetList, setList]
  · simp [next, resetList, hself]
  · simp [parent, resetList, hself]
  · simp [resetList, setList]
  · simpa [resetList, hself, Header.Intact] using ⟨hintact, htype⟩

theorem link_empty_other (hvalid : ¬ r.Rejected) (hcount : (r.lists k).count = 0)
    (htype : (r.headers h).type = k.type) (hj : r.Linked j l) (hjk : j ≠ k) (hnew : h ∉ l) :
    (r.avmfLinkHeader h).2.Linked j l := by
  rw [link_empty_eq hvalid hcount htype]
  refine hj.congr ?_ fun a ha => ?_
  · simp only [resetList, setList, Function.update_of_ne hjk, modify_lists]
  · rw [resetList, setList_headers, headers_modify_of_ne]
    rintro rfl
    exact hnew ha

-- A header that is linked behind others does not become the end.
theorem link_nonempty (hvalid : ¬ r.Rejected) (hl : r.Linked k l) (hne : l ≠ []) (hnew : h ∉ l)
    (htype : (r.headers h).type = k.type) :
    (r.avmfLinkHeader h).1 = true ∧ ((r.avmfLinkHeader h).2.lists k).listEnd = l.getLast? := by
  have hlast := hl.links.last_eq
  cases hend : l.getLast? with
  | none => exact absurd (List.getLast?_eq_none_iff.mp hend) hne
  | some c =>
      have hmem : c ∈ l := List.mem_of_getLast? hend
      rw [hend] at hlast
      obtain ⟨hintact, hctype⟩ := hl.intact c hmem
      have hcount : ¬ ((r.lists k).count < 1 ∨ (r.lists k).list = none) := by
        have hforward := hl.links.forward.resolve_left hne
        obtain ⟨a, rest, rfl⟩ := List.exists_cons_of_ne_nil hne
        rw [hl.count, hforward.1]
        simp
      have hkind := reset_headers_self (f := fun x => { x with next := none, parent := none }) htype
      have hc : (r.modify h fun x => { x with next := none, parent := none }).headers c =
          r.headers c :=
        headers_modify_of_ne _ fun heq => hnew (heq ▸ hmem)
      have hgood : ¬ (¬ (r.headers c).Intact ∨ (r.headers c).type = .corrupt) := by
        rw [hctype]
        exact not_or.mpr ⟨not_not.mpr hintact, type_ne_corrupt k⟩
      unfold avmfLinkHeader
      simp only [if_neg hvalid, hkind, modify_lists, if_neg hcount, hlast, hc, if_neg hgood]
      simp [linkBehind, setList, hlast]

end Operations

-- A region with the headers that are linked in its lists, in link order.
structure LinkState where
  region : HeaderRegion
  linked : ListKind → List Nat

inductive LinkCall
  | link (h : Nat) (k : ListKind)
  | unlink (h : Nat)

-- The caller sets the type of an unlinked header and links it, or unlinks a
-- linked one.
def LinkStep (s : LinkState) (call : LinkCall) (t : LinkState) : Prop :=
  match call with
  | .link h k =>
      (∀ j, h ∉ s.linked j) ∧ (s.region.headers h).Intact ∧
        let result := (s.region.modify h fun x => { x with type := k.type }).avmfLinkHeader h
        t = ⟨result.2,
          if result.1 then Function.update s.linked k (s.linked k ++ [h]) else s.linked⟩
  | .unlink h =>
      ∃ k, h ∈ s.linked k ∧
        t = ⟨s.region.avmfUnlinkHeader h, Function.update s.linked k ((s.linked k).erase h)⟩

-- What a list should be: its first `count` headers are `l`, in order and without
-- repetition, `parent` is the inverse of `next` among them and the end is the
-- last of them.
structure ListRight (r : HeaderRegion) (k : ListKind) (l : List Nat) : Prop where
  order : ∃ stop, Links r.next (r.lists k).list l stop
  count : (r.lists k).count = l.length
  nodup : l.Nodup
  inverse : ∀ a ∈ l, ∀ b ∈ l, r.next a = some b ↔ r.parent b = some a
  last : (r.lists k).listEnd = l.getLast?

def LinkState.Right (s : LinkState) : Prop := ∀ k, ListRight s.region k (s.linked k)

-- Both lists are properly linked, and empty where the region is rejected.
structure LinkState.Proper (s : LinkState) : Prop where
  lists : ∀ k, s.region.Linked k (s.linked k)
  rejected : s.region.Rejected → ∀ k, s.linked k = []

-- No header is linked while another one of its type is.
def LinksEmpty (s : LinkState) : LinkCall → Prop
  | .link _ k => s.linked k = []
  | .unlink _ => True

theorem Linked.right {r : HeaderRegion} {k : ListKind} {l : List Nat} (h : r.Linked k l) :
    ListRight r k l where
  order := h.links.links
  count := h.count
  nodup := h.links.nodup
  inverse _ ha _ hb := h.links.inverse ha hb
  last := h.links.last_eq

theorem LinkState.Proper.right {s : LinkState} (h : s.Proper) : s.Right :=
  fun k => (h.lists k).right

theorem unlinkStep_proper {s t : LinkState} {h : Nat} (hs : s.Proper)
    (hstep : LinkStep s (.unlink h) t) : t.Proper := by
  obtain ⟨k, hmem, rfl⟩ := hstep
  have hvalid : ¬ s.region.Rejected := fun hrejected => by
    rw [hs.rejected hrejected k] at hmem
    cases hmem
  have hk := hs.lists k
  have hnodup := hk.links.nodup
  obtain ⟨u, v, heq⟩ := List.append_of_mem hmem
  rw [heq] at hk hnodup
  have hu : h ∉ u := fun hu =>
    (List.nodup_append.mp hnodup).2.2 h hu h List.mem_cons_self rfl
  have herase : (s.linked k).erase h = u ++ v := by
    rw [heq, List.erase_append_right _ hu, List.erase_cons_head]
  refine ⟨fun j => ?_, fun hrejected => absurd ?_ hvalid⟩
  · by_cases hj : j = k
    · subst hj
      simp only [Function.update_self, herase]
      exact unlink_linked hvalid hk
    · simp only [Function.update_of_ne hj]
      exact unlink_other hvalid hk (hs.lists j) hj
  · simpa only [unlink_header hvalid hk] using hrejected

theorem linkStep_proper {s t : LinkState} {h : Nat} {k : ListKind} (hs : s.Proper)
    (hstep : LinkStep s (.link h k) t) (hempty : s.linked k = []) : t.Proper := by
  obtain ⟨hnew, hintact, rfl⟩ := hstep
  have hlists (j : ListKind) :
      (s.region.modify h fun x => { x with type := k.type }).Linked j (s.linked j) :=
    (hs.lists j).congr rfl fun a ha => headers_modify_of_ne _ fun heq => hnew j (heq ▸ ha)
  have hself := headers_modify_self (r := s.region) (a := h) fun x => { x with type := k.type }
  have htype : ((s.region.modify h fun x => { x with type := k.type }).headers h).type =
      k.type := by rw [hself]
  have hintact' : ((s.region.modify h fun x => { x with type := k.type }).headers h).Intact := by
    rw [hself]
    exact hintact
  have hrejects : (s.region.modify h fun x => { x with type := k.type }).Rejected ↔
      s.region.Rejected := Iff.rfl
  generalize s.region.modify h (fun x => { x with type := k.type }) = r at *
  by_cases hrejected : r.Rejected
  · have hrefused : r.avmfLinkHeader h = (false, r) := if_pos hrejected
    simp only [hrefused]
    exact ⟨hlists, fun _ => hs.rejected (hrejects.mp hrejected)⟩
  · have hk := hlists k
    rw [hempty] at hk
    have hresult := link_empty_eq hrejected hk.count htype
    have hok : (r.avmfLinkHeader h).1 = true := by rw [hresult]
    simp only [hok, if_true, hempty, List.nil_append]
    refine ⟨fun j => ?_, fun hrejected' => absurd ?_ hrejected⟩
    · by_cases hj : j = k
      · subst hj
        simp only [Function.update_self]
        exact link_empty hrejected hk hintact' htype
      · simp only [Function.update_of_ne hj]
        exact link_empty_other hrejected hk.count htype (hlists j) hj (hnew j)
    · rw [hresult] at hrejected'
      exact hrejected'

-- Where another header of the type is linked, the end is not the new one.
theorem linkStep_not_right {s t : LinkState} {h : Nat} {k : ListKind} (hs : s.Proper)
    (hstep : LinkStep s (.link h k) t) (hne : s.linked k ≠ []) : ¬ t.Right := by
  obtain ⟨hnew, -, rfl⟩ := hstep
  have hk : (s.region.modify h fun x => { x with type := k.type }).Linked k (s.linked k) :=
    (hs.lists k).congr rfl fun a ha => headers_modify_of_ne _ fun heq => hnew k (heq ▸ ha)
  have htype : ((s.region.modify h fun x => { x with type := k.type }).headers h).type =
      k.type := by rw [headers_modify_self]
  have hvalid : ¬ (s.region.modify h fun x => { x with type := k.type }).Rejected :=
    fun hrejected => hne (hs.rejected hrejected k)
  obtain ⟨hok, hend⟩ := link_nonempty hvalid hk hne (hnew k) htype
  intro hright
  have hlast := (hright k).last
  simp only [hok, if_true, Function.update_self, List.getLast?_concat, hend] at hlast
  exact hnew k (List.mem_of_getLast? hlast)

-- The lists are right throughout a run exactly when no header is linked while
-- another one of its type is.
theorem header_lists_right_iff {start s : LinkState} {past : List (LinkState × LinkCall)}
    (hstart : start.Proper) (hrun : Trace LinkStep start past s) :
    Trace.Always LinkState.Right past s ↔ Trace.Admits LinksEmpty past := by
  refine Trace.always_iff_admits hstart hstart.right (fun s call t hs _ hstep ht => ?_)
    (fun s call t hs _ hstep => ?_) hrun
  · cases call with
    | link h k =>
        by_cases hempty : s.linked k = []
        · exact linkStep_proper hs hstep hempty
        · exact absurd ht (linkStep_not_right hs hstep hempty)
    | unlink h => exact unlinkStep_proper hs hstep
  · cases call with
    | link h k =>
        by_cases hempty : s.linked k = []
        · exact iff_of_true (linkStep_proper hs hstep hempty).right hempty
        · exact iff_of_false (linkStep_not_right hs hstep hempty) hempty
    | unlink h => exact iff_of_true (unlinkStep_proper hs hstep).right trivial

-- A region after avmf_region_init, and headers whose signatures are intact.
def newRegion : HeaderRegion where
  signature := AVMF_SIGNATURE
  version := AVMF_VERSION
  base := 0x1000
  limit := 0x20000000
  lists := fun _ => ⟨none, 0, none⟩
  headers := fun _ => .fresh .corrupt ⟨0, 0, 0⟩ false

def newState : LinkState := ⟨newRegion, fun _ => []⟩

theorem newState_proper : newState.Proper :=
  ⟨fun _ => ⟨.nil rfl, rfl, by simp [newState]⟩, fun _ _ => rfl⟩

-- The states of a run that links a header and of one that unlinks it again.
def linkState (s : LinkState) (h : Nat) (k : ListKind) : LinkState :=
  let result := (s.region.modify h fun x => { x with type := k.type }).avmfLinkHeader h
  ⟨result.2, if result.1 then Function.update s.linked k (s.linked k ++ [h]) else s.linked⟩

def unlinkState (s : LinkState) (h : Nat) (k : ListKind) : LinkState :=
  ⟨s.region.avmfUnlinkHeader h, Function.update s.linked k ((s.linked k).erase h)⟩

-- A header that moves from the ALLOC to the CACHE list.
theorem header_lists_right_iff_move :
    ∃ past s, Trace LinkStep newState past s ∧
      past.map Prod.snd = [.link 1 .alloc, .unlink 1, .link 1 .cache] ∧
        Trace.Always LinkState.Right past s := by
  have hrun : Trace LinkStep newState ([] ++ [(newState, .link 1 .alloc)] ++
      [(linkState newState 1 .alloc, .unlink 1)] ++
      [(unlinkState (linkState newState 1 .alloc) 1 .alloc, .link 1 .cache)])
      (linkState (unlinkState (linkState newState 1 .alloc) 1 .alloc) 1 .cache) := by
    refine ((Trace.nil.snoc ?_).snoc ?_).snoc ?_
    · exact ⟨by intro j; cases j <;> decide, by decide, rfl⟩
    · exact ⟨.alloc, by decide, rfl⟩
    · exact ⟨by intro j; cases j <;> decide, by decide, rfl⟩
  refine ⟨_, _, hrun, rfl, (header_lists_right_iff newState_proper hrun).mpr ?_⟩
  intro x hx
  simp only [List.nil_append, List.cons_append, List.mem_cons, List.not_mem_nil, or_false] at hx
  rcases hx with rfl | rfl | rfl
  · show newState.linked .alloc = []
    decide
  · trivial
  · show (unlinkState (linkState newState 1 .alloc) 1 .alloc).linked .cache = []
    decide

-- After three links the second header is in no list any more: the end is still
-- the first one, which leads to the third.
theorem header_lists_right_fails :
    ∃ past s, Trace LinkStep newState past s ∧
      past.map Prod.snd = [.link 1 .alloc, .link 2 .alloc, .link 3 .alloc] ∧
        s.linked .alloc = [1, 2, 3] ∧ s.region.lists .alloc = ⟨some 1, 3, some 1⟩ ∧
          s.region.next 1 = some 3 ∧ s.region.next 3 = none ∧ ¬ s.Right := by
  have hrun : Trace LinkStep newState ([] ++ [(newState, .link 1 .alloc)] ++
      [(linkState newState 1 .alloc, .link 2 .alloc)] ++
      [(linkState (linkState newState 1 .alloc) 2 .alloc, .link 3 .alloc)])
      (linkState (linkState (linkState newState 1 .alloc) 2 .alloc) 3 .alloc) := by
    refine ((Trace.nil.snoc ?_).snoc ?_).snoc ?_
    · exact ⟨by intro j; cases j <;> decide, by decide, rfl⟩
    · exact ⟨by intro j; cases j <;> decide, by decide, rfl⟩
    · exact ⟨by intro j; cases j <;> decide, by decide, rfl⟩
  refine ⟨_, _, hrun, rfl, by decide, by decide, by decide, by decide, fun hright => ?_⟩
  have hlast := (hright .alloc).last
  revert hlast
  decide

end HeaderRegion

end AosKernel.Mm
