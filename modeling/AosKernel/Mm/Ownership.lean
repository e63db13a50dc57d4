import AosKernel.Mm.AvmfKeeps
import AosKernel.Mm.Pager
import AosKernel.Mm.RegionPartition

namespace AosKernel.Mm

open Verif Verif.Exec Verif.Span Region

-- The physical pages that `size` bytes at `phys` take up.
def pagesOf (phys size : Nat) : Span := ⟨phys / PAGE_SIZE, size / PAGE_SIZE⟩

-- An ALLOC header with a physical address owns its pages.
def Extent.owned (e : Extent) : List Span :=
  if e.physAddr > 0 then [pagesOf e.physAddr e.size] else []

def Region.owned (r : Region) : List Span := (r.ofType .alloc).flatMap Extent.owned

def Avmf.owned (a : Avmf) : List Span := a.regions.flatMap Region.owned

-- What the memory manager itself owns: the pages of its headers and those of
-- its page tables.
def owners (s : KernelState) : List Span :=
  s.avmf.owned ++ s.rest.tables.map fun b => pagesOf b.toNat PAGE_SIZE

def Avmf.mark (a : Avmf) (page : Nat) : Nat := if a.marked page then 1 else 0

theorem Avmf.mark_le_one (a : Avmf) (page : Nat) : a.mark page ≤ 1 := by
  unfold Avmf.mark
  split <;> omega

theorem Avmf.mark_le_of_imp {a b : Avmf} {p : Nat} (h : a.marked p = true → b.marked p = true) :
    a.mark p ≤ b.mark p := by
  unfold Avmf.mark
  by_cases ha : a.marked p = true
  · simp [ha, h ha]
  · simp [ha]

-- No cached header within reach of the request has a physical address left.
def Request.Clean (q : Request) : Prop :=
  ∀ e ∈ q.region.allocHits q.size q.align q.minVirt q.maxVirt, e.physAddr = 0

instance (q : Request) : Decidable q.Clean := by unfold Request.Clean; infer_instance

def AllClean (requests : List Request) : Prop := ∀ q ∈ requests, q.Clean

instance (requests : List Request) : Decidable (AllClean requests) := by
  unfold AllClean; infer_instance

-- What the header with one number owns.
def Region.ownedBy (r : Region) (h : Nat) : List Span :=
  if r.type h = .alloc then (r.extent h).owned else []

section Owned

variable {r r' : Region} {h c p : Nat}

theorem ownedBy_of_ne (htype : r.type h ≠ .alloc) : r.ownedBy h = [] := if_neg htype

theorem ownedBy_alloc (htype : r.type h = .alloc) : r.ownedBy h = (r.extent h).owned := if_pos htype

theorem Extent.owned_zero {e : Extent} (hzero : e.physAddr = 0) : e.owned = [] := by
  rw [Extent.owned, hzero]
  rfl

theorem ownedBy_congr (hextent : r'.extent h = r.extent h)
    (htype : r'.type h = .alloc ↔ r.type h = .alloc) : r'.ownedBy h = r.ownedBy h := by
  rw [ownedBy, ownedBy, hextent, if_congr htype rfl rfl]

theorem owned_eq (r : Region) : r.owned = ((List.range r.made).map r.ownedBy).flatten := by
  rw [Region.owned, Region.ofType]
  induction List.range r.made with
  | nil => rfl
  | cons h l ih =>
      by_cases htype : r.type h = .alloc
      · rw [List.filter_cons_of_pos (by simpa using htype), List.map_cons, List.flatMap_cons, ih,
          List.map_cons, List.flatten_cons, ownedBy_alloc htype]
      · rw [List.filter_cons_of_neg (by simpa using htype), ih, List.map_cons, List.flatten_cons,
          ownedBy_of_ne htype, List.nil_append]

theorem cover_flatten_le {l : List Nat} {f g : Nat → List Span}
    (hle : ∀ h ∈ l, cover (f h) p ≤ cover (g h) p) :
    cover (l.map f).flatten p ≤ cover (l.map g).flatten p := by
  induction l with
  | nil => exact Nat.le_refl _
  | cons h l ih =>
      obtain ⟨hhead, htail⟩ := List.forall_mem_cons.mp hle
      have hrest := ih htail
      simp only [List.map_cons, List.flatten_cons, cover_append]
      omega

-- Headers that lose their owner, and new ones without.
theorem owned_le (hmade : r.made ≤ r'.made)
    (hold : ∀ h < r.made, cover (r'.ownedBy h) p ≤ cover (r.ownedBy h) p)
    (hnew : ∀ h, r.made ≤ h → h < r'.made → r'.ownedBy h = []) :
    cover r'.owned p ≤ cover r.owned p := by
  obtain ⟨n, hn⟩ := Nat.exists_eq_add_of_le hmade
  have hnone : (((List.range n).map (r.made + ·)).map r'.ownedBy).flatten = [] := by
    rw [List.flatten_eq_nil_iff]
    intro l hl
    simp only [List.map_map, List.mem_map, List.mem_range, Function.comp_apply] at hl
    obtain ⟨a, ha, rfl⟩ := hl
    exact hnew _ (Nat.le_add_right _ _) (by omega)
  rw [owned_eq, owned_eq, hn, List.range_add, List.map_append, List.flatten_append, hnone,
    List.append_nil]
  exact cover_flatten_le fun h hh => hold h (List.mem_range.mp hh)

-- One header owns something else.
theorem owned_trade (hc : c < r.made) (hmade : r'.made = r.made)
    (hsame : ∀ h < r.made, h ≠ c → r'.ownedBy h = r.ownedBy h) :
    cover r'.owned p + cover (r.ownedBy c) p = cover r.owned p + cover (r'.ownedBy c) p := by
  obtain ⟨l, hl, hl'⟩ := exists_map_range_perm (f := r.ownedBy) (g := r'.ownedBy) hc hsame
  rw [owned_eq, owned_eq, hmade, cover_perm hl.flatten, cover_perm hl'.flatten, List.flatten_cons,
    List.flatten_cons, cover_append, cover_append]
  omega

theorem owned_congr (hmade : r'.made = r.made)
    (hsame : ∀ h < r.made, r'.ownedBy h = r.ownedBy h) : r'.owned = r.owned := by
  rw [owned_eq, owned_eq, hmade]
  exact congrArg List.flatten (List.map_congr_left fun h hh => hsame h (List.mem_range.mp hh))

-- Without a physical address to take over, an allocation owns nothing yet.
theorem Region.AllocPost.owned_le {lo hi size align minVirt maxVirt : Nat} {hits : List Extent}
    {found : Option Nat} (hpost : AllocPost r lo hi size align minVirt maxVirt hits found r')
    (hclean : ∀ e ∈ hits, e.physAddr = 0) (p : Nat) : cover r'.owned p ≤ cover r.owned p := by
  have hnone (a : Nat) (ha : some a = found) : r'.ownedBy a = [] := by
    rw [ownedBy_alloc (hpost.new a ha.symm).type_eq]
    rcases hpost.phys a ha.symm with hzero | ⟨e, he, heq⟩
    · exact Extent.owned_zero hzero
    · exact Extent.owned_zero (heq.trans (hclean e he))
  refine Mm.owned_le hpost.kept.made_le (fun a ha => ?_) fun a ha ha' =>
    hnone a (hpost.kept.only a ha ha')
  by_cases hfound : some a = found
  · rw [hnone a hfound]
    exact Nat.zero_le _
  by_cases hcache : r.type a = .cache
  · rw [ownedBy_of_ne (by rw [hpost.kept.cached a hfound hcache]; decide)]
    exact Nat.zero_le _
  · obtain ⟨hextent, htype | htype⟩ := hpost.kept.taken a ha hcache
    · rw [ownedBy_congr hextent (by rw [htype])]
    · rw [ownedBy_of_ne (by rw [htype]; decide)]
      exact Nat.zero_le _

theorem Region.Passed.owned_eq {turns : List (Region × Nat)} (hpassed : Passed .alloc turns r r') :
    r'.owned = r.owned := by
  refine owned_congr hpassed.made fun a _ => ownedBy_congr (hpassed.extent a) ?_
  by_cases ha : Stripped turns a
  · obtain ⟨hcorrupt, hkind, -⟩ := hpassed.stripped a ha
    exact iff_of_false (by rw [hcorrupt]; decide) hkind
  · rw [hpassed.others a ha]

-- The header that goes to the cache owns nothing any more.
theorem Region.Retyped.owned_add (h : Retyped r c .cache r') (htype : r.type c = .alloc)
    (hc : c < r.made) (p : Nat) : cover r'.owned p + cover (r.extent c).owned p = cover r.owned p := by
  have htrade := owned_trade (p := p) hc h.made fun a _ ha =>
    ownedBy_congr (h.extent a) (by rw [h.others a ha])
  rw [ownedBy_alloc htype, ownedBy_of_ne (by rw [h.type_eq]; decide)] at htrade
  exact htrade

end Owned

end AosKernel.Mm
