import AosKernel.Core.Kmalloc
import AosKernel.Lib.Links
import AosKernel.Lib.Trace
import Mathlib.Data.List.Nodup
import Mathlib.Data.List.Perm.Subperm

namespace AosKernel.Core

open Verif AosKernel.Mm

-- The list of headers that a field leads to.
def hdrPtr (hdr : Nat) : Option Nat := if hdr = 0 then none else some hdr

def releases (events : List HeapEvent) : List Nat :=
  events.filterMap fun
    | .read _ => none
    | .release hdr => some hdr

namespace KHeap

def next (k : KHeap) (hdr : Nat) : Option Nat := hdrPtr (k.nxt hdr)

-- `hdr` leads to `b` through nxt.
def Reaches (k : KHeap) (hdr b : Nat) : Prop := ∃ l, Links k.next (some hdr) l (some b)

-- The links of the live blocks refer to live blocks or NULL.
structure Linked (k : KHeap) : Prop where
  nxt : ∀ s ∈ k.live, k.nxt s.base = 0 ∨ k.IsBlock (k.nxt s.base)
  prev : ∀ s ∈ k.live, k.prev s.base = 0 ∨ k.IsBlock (k.prev s.base)

-- The pages of the blocks that `hdr` leads to have been released, each once. No header
-- has been read after that, and no link is left to them.
structure FreesChain (k : KHeap) (hdr : Nat) (k' : KHeap) : Prop where
  events : ∃ new, k'.events = k.events ++ new ∧ (releases new).Nodup ∧
    (∀ b, b ∈ releases new ↔ k.Reaches hdr b) ∧
    ∀ before later b, new = before ++ .read b :: later → .release b ∉ before
  live : ∀ s, s ∈ k'.live ↔ s ∈ k.live ∧ ¬ k.Reaches hdr s.base
  linked : k'.Linked

end KHeap

inductive HeapCall
  | kmalloc (size : Nat) (answer : PagesAnswer)
  | klink (ptr1 ptr2 : Nat)
  | kfree (ptr : Nat)

namespace KHeap

-- The pointer that kmalloc has returned for a live block.
def IsLive (k : KHeap) (ptr : Nat) : Prop := ∃ s ∈ k.live, s.base + allocHdrSize = ptr

def Allowed (k : KHeap) : HeapCall → Prop
  | .kmalloc size answer => k.Answers size answer
  | .klink ptr1 ptr2 => k.IsLive ptr1 ∧ k.IsLive ptr2
  | .kfree ptr => k.IsLive ptr

def call (k : KHeap) : HeapCall → Option KHeap
  | .kmalloc size answer => some (k.kmalloc size answer).2
  | .klink ptr1 ptr2 => some (k.klink ptr1 ptr2)
  | .kfree ptr => k.kfree ptr

def Takes (k : KHeap) (c : HeapCall) (k' : KHeap) : Prop := k.Allowed c ∧ k.call c = some k'

-- What a call has to do: it returns, the links are as they should be, and kfree has
-- released what the block leads to.
def Sound (k : KHeap) (c : HeapCall) : Prop :=
  ∃ k', k.call c = some k' ∧
    match c with
    | .kfree ptr => k.FreesChain (ptr - allocHdrSize) k'
    | _ => k'.Linked

-- The way from the block to be freed comes to an end, and no other block has a link to
-- one on the way.
def Unlinked (k : KHeap) : HeapCall → Prop
  | .kfree ptr => (∃ l, Links k.next (some (ptr - allocHdrSize)) l none) ∧
      ∀ s ∈ k.live, ¬ k.Reaches (ptr - allocHdrSize) s.base →
        ¬ k.Reaches (ptr - allocHdrSize) (k.nxt s.base) ∧
          ¬ k.Reaches (ptr - allocHdrSize) (k.prev s.base)
  | _ => True

theorem Inv.header_mem {k : KHeap} (h : Inv k) {t : Span} (ht : t ∈ k.live) {i : Nat}
    (hi : i < 40) : Span.Mem (t.base + i) t := by
  have hsize : 40 ≤ t.size := h.size_le t ht
  exact ⟨Nat.le_add_right _ _, by omega⟩

theorem kmalloc_spec {k : KHeap} (h : Inv k) (hlinked : k.Linked) {size : Nat}
    {answer : PagesAnswer} (hans : k.Answers size answer) :
    Inv (k.kmalloc size answer).2 ∧ (k.kmalloc size answer).2.Linked := by
  cases answer with
  | none => exact ⟨h, hlinked⟩
  | some new =>
      obtain ⟨s, fresh⟩ := new
      obtain ⟨-, -, hbase, hlimit, hapart⟩ := hans s fresh rfl
      have hold (t : Span) (ht : t ∈ k.live) :=
        header_congr k (k.kmalloc size (some (s, fresh))).2 t.base fun i hi =>
          kmalloc_bytes hans ht (h.header_mem ht hi)
      have hblock {b : Nat} (hb : k.IsBlock b) :
          (k.kmalloc size (some (s, fresh))).2.IsBlock b := by
        obtain ⟨t, ht, rfl⟩ := hb
        exact ⟨t, List.mem_cons_of_mem _ ht, rfl⟩
      constructor
      · refine ⟨?_, ?_, ?_, List.pairwise_cons.mpr ⟨hapart, h.apart⟩, ?_⟩
        · exact List.forall_mem_cons.mpr ⟨hbase, h.base_le⟩
        · exact List.forall_mem_cons.mpr ⟨hans.hdr_le, h.size_le⟩
        · exact List.forall_mem_cons.mpr ⟨hlimit, h.limit_le⟩
        · refine List.forall_mem_cons.mpr ⟨newHeader_signed _ _ _, fun t ht => ?_⟩
          exact (hold t ht).1.trans (h.signed t ht)
      · constructor
        · refine List.forall_mem_cons.mpr ⟨.inl (newHeader_nxt _ _ _), fun t ht => ?_⟩
          rw [(hold t ht).2.2.1]
          exact (hlinked.nxt t ht).imp_right hblock
        · refine List.forall_mem_cons.mpr ⟨.inl (newHeader_prev _ _ _), fun t ht => ?_⟩
          rw [(hold t ht).2.2.2]
          exact (hlinked.prev t ht).imp_right hblock

theorem Inv.base_cases {k : KHeap} (h : Inv k) {s t : Span} (hs : s ∈ k.live)
    (ht : t ∈ k.live) : s.base = t.base ∨ s.base + 40 ≤ t.base ∨ t.base + 40 ≤ s.base := by
  by_contra hno
  have hss : 40 ≤ s.size := h.size_le s hs
  have hts : 40 ≤ t.size := h.size_le t ht
  obtain hle | hlt := Nat.le_total s.base t.base
  · have heq := eq_of_mem h.apart hs ht ⟨hle, by omega⟩ (h.base_mem ht)
    exact hno (.inl (congrArg Span.base heq))
  · have heq := eq_of_mem h.apart hs ht (h.base_mem hs) ⟨hlt, by omega⟩
    exact hno (.inl (congrArg Span.base heq))

-- klink changes a link of each of its two blocks, and nothing else of a header.
theorem klink_header {k : KHeap} (h : Inv k) {a b s : Span} (ha : a ∈ k.live) (hb : b ∈ k.live)
    (hs : s ∈ k.live) :
    let k' := k.klink (a.base + allocHdrSize) (b.base + allocHdrSize)
    k'.signed s.base = k.signed s.base ∧
      (k'.nxt s.base = k.nxt s.base ∨ k'.nxt s.base = b.base) ∧
      (k'.prev s.base = k.prev s.base ∨ k'.prev s.base = a.base) := by
  intro k'
  have hsa := h.base_cases hs ha
  have hsb := h.base_cases hs hb
  have hbytes : k'.ram.bytes = (k.ram.bytes.writeWord (a.base + 24)
      (BitVec.ofNat 64 b.base)).writeWord (b.base + 32) (BitVec.ofNat 64 a.base) := by
    change (k.klink _ _).ram.bytes = _
    unfold klink
    rw [Ram.writeWord_bytes, Ram.writeWord_bytes, Nat.add_sub_cancel, Nat.add_sub_cancel]
  have hword (w : Span) (hw : w ∈ k.live) : (BitVec.ofNat 64 w.base).toNat = w.base := by
    rw [BitVec.toNat_ofNat, Nat.mod_eq_of_lt (h.base_lt hw)]
  refine ⟨?_, ?_, ?_⟩
  · have hbyte (i : Nat) (hi : i < 10) :
        k'.ram.bytes (s.base + i) = k.ram.bytes (s.base + i) := by
      rw [hbytes, Bytes.writeWord_other _ _ _ (by omega), Bytes.writeWord_other _ _ _ (by omega)]
    unfold KHeap.signed
    rw [Bool.eq_iff_iff, List.all_eq_true, List.all_eq_true]
    exact forall₂_congr fun i hi => by rw [hbyte i (List.mem_range.mp hi)]
  · unfold KHeap.nxt
    rw [hbytes, Bytes.readWord_writeWord_apart _ _ (by omega)]
    by_cases heq : s.base = a.base
    · rw [heq, Bytes.readWord_writeWord]
      exact .inr (hword b hb)
    · rw [Bytes.readWord_writeWord_apart _ _ (by omega)]
      exact .inl rfl
  · unfold KHeap.prev
    rw [hbytes]
    by_cases heq : s.base = b.base
    · rw [heq, Bytes.readWord_writeWord]
      exact .inr (hword a ha)
    · rw [Bytes.readWord_writeWord_apart _ _ (by omega),
        Bytes.readWord_writeWord_apart _ _ (by omega)]
      exact .inl rfl

theorem klink_spec {k : KHeap} (h : Inv k) (hlinked : k.Linked) {ptr1 ptr2 : Nat}
    (h1 : k.IsLive ptr1) (h2 : k.IsLive ptr2) :
    Inv (k.klink ptr1 ptr2) ∧ (k.klink ptr1 ptr2).Linked := by
  obtain ⟨a, ha, rfl⟩ := h1
  obtain ⟨b, hb, rfl⟩ := h2
  constructor
  · refine ⟨h.base_le, h.size_le, h.limit_le, h.apart, fun s hs => ?_⟩
    exact (klink_header h ha hb hs).1.trans (h.signed s hs)
  · constructor
    · intro s hs
      obtain hkept | hnew := (klink_header h ha hb hs).2.1
      · rw [hkept]
        exact hlinked.nxt s hs
      · exact .inr ⟨b, hb, hnew.symm⟩
    · intro s hs
      obtain hkept | hnew := (klink_header h ha hb hs).2.2
      · rw [hkept]
        exact hlinked.prev s hs
      · exact .inr ⟨a, ha, hnew.symm⟩

-- The events of the rounds of kfree for the headers of a list.
def roundEvents (l : List Nat) : List HeapEvent := l.flatMap fun b => [.read b, .release b]

theorem releases_roundEvents (l : List Nat) : releases (roundEvents l) = l := by
  induction l with
  | nil => rfl
  | cons b l ih => exact congrArg (b :: ·) ih

theorem read_mem_roundEvents {l : List Nat} {b : Nat} : .read b ∈ roundEvents l ↔ b ∈ l := by
  simp [roundEvents]

theorem roundEvents_order {l : List Nat} (hl : l.Nodup) {before later : List HeapEvent} {b : Nat}
    (h : roundEvents l = before ++ .read b :: later) : .release b ∉ before := by
  induction l generalizing before with
  | nil => exact absurd h (by simp [roundEvents])
  | cons c l ih =>
      obtain ⟨hc, hl⟩ := List.nodup_cons.mp hl
      change HeapEvent.read c :: .release c :: roundEvents l = _ at h
      match before, h with
      | [], _ => exact List.not_mem_nil
      | [_], h => simp at h
      | e :: f :: before, h =>
          rw [List.cons_append, List.cons_append, List.cons.injEq, List.cons.injEq] at h
          obtain ⟨rfl, rfl, hrest⟩ := h
          have hb : b ∈ l := by
            rw [← read_mem_roundEvents, hrest]
            exact List.mem_append_right _ List.mem_cons_self
          have hne : HeapEvent.release b ≠ .release c := fun heq =>
            hc (HeapEvent.release.inj heq ▸ hb)
          rw [List.mem_cons, List.mem_cons]
          rintro (hread | hrelease | hlater)
          · cases hread
          · exact hne hrelease
          · exact ih hl hrest hlater

theorem hdrPtr_of_pos {hdr : Nat} (h : 0 < hdr) : hdrPtr hdr = some hdr :=
  if_neg (Nat.ne_of_gt h)

theorem hdrPtr_ne_zero (hdr : Nat) : hdrPtr hdr ≠ some 0 := by
  unfold hdrPtr
  split
  · nofun
  · rename_i hne
    exact fun heq => hne (Option.some.inj heq)

theorem not_links_zero {k : KHeap} {first : Option Nat} {l : List Nat} (hfirst : first ≠ some 0) :
    ¬ Links k.next first l (some 0) := by
  induction l generalizing first with
  | nil => exact hfirst
  | cons b l ih => exact fun hl => ih (hdrPtr_ne_zero (k.nxt b)) hl.2

-- The rounds along a way that comes to an end.
theorem kfreeLoop_chain {l : List Nat} {k : KHeap} {fuel hdr : Nat} (h : Inv k) (hl : l.Nodup)
    (hblocks : ∀ b ∈ l, k.IsBlock b) (hlinks : Links k.next (hdrPtr hdr) l none)
    (hfuel : l.length < fuel) :
    ∃ k', kfreeLoop fuel k hdr = some k' ∧ k'.events = k.events ++ roundEvents l ∧
      ∀ s, s ∈ k'.live ↔ s ∈ k.live ∧ s.base ∉ l := by
  induction l generalizing k fuel hdr with
  | nil =>
      have hzero : hdr = 0 := by
        by_contra hne
        rw [Links.nil_iff, hdrPtr, if_neg hne] at hlinks
        cases hlinks
      obtain ⟨fuel, rfl⟩ := Nat.exists_eq_succ_of_ne_zero (Nat.ne_of_gt hfuel)
      refine ⟨k, if_pos hzero, (List.append_nil _).symm, fun s => ?_⟩
      simp
  | cons b l ih =>
      obtain ⟨hstart, hrest⟩ := hlinks
      obtain ⟨hb, hnodup⟩ := List.nodup_cons.mp hl
      obtain ⟨t, ht, hbase⟩ := hblocks b List.mem_cons_self
      have hpos := h.base_pos ht
      have hhdr : hdr = b := by
        unfold hdrPtr at hstart
        split at hstart
        · cases hstart
        · exact Option.some.inj hstart
      subst hhdr hbase
      obtain ⟨fuel, rfl⟩ := Nat.exists_eq_succ_of_ne_zero
        (Nat.ne_of_gt (Nat.lt_of_le_of_lt (Nat.zero_le _) hfuel))
      have hnext := ((h.events (k.events ++ [.read t.base])).avmfFree t.base)
      have hmem (s : Span) := h.mem_avmfFree ht (s := s)
      have hothers : ∀ c ∈ l, ({ k with events := k.events ++ [.read t.base] } : KHeap).avmfFree
          t.base |>.IsBlock c := by
        intro c hc
        obtain ⟨s, hs, rfl⟩ := hblocks c (List.mem_cons_of_mem _ hc)
        refine ⟨s, (hmem s).mpr ⟨hs, fun heq => hb (heq ▸ hc)⟩, rfl⟩
      obtain ⟨k', hrun, hevents, hlive⟩ := ih hnext hnodup hothers hrest
        (Nat.lt_of_succ_lt_succ hfuel)
      refine ⟨k', ?_, ?_, fun s => ?_⟩
      · rw [kfreeLoop_succ (Nat.ne_of_gt hpos) (h.mapped ht) (h.signed t ht)]
        exact hrun
      · rw [hevents]
        change (k.events ++ [.read t.base]) ++ [.release t.base] ++ roundEvents l = _
        rw [List.append_assoc, List.append_assoc]
        rfl
      · rw [hlive s]
        refine (and_congr_left' (hmem s)).trans ?_
        rw [List.mem_cons, not_or, and_assoc]
        refine and_congr_right fun hs => and_congr_left' (not_congr ⟨congrArg _, fun heq => ?_⟩)
        refine eq_of_mem h.apart hs ht (x := t.base) ?_ (h.base_mem ht)
        rw [← heq]
        exact h.base_mem hs

theorem links_congr {k k' : KHeap} (hram : k'.ram = k.ram) (hdr : Nat) :
    k'.nxt hdr = k.nxt hdr ∧ k'.prev hdr = k.prev hdr :=
  (header_congr k k' hdr fun i _ => by rw [hram]).2.2

-- Where the loop returns, the way has come to an end: `k` is what is left of `start`, and
-- a header that the loop reads is the one of a block.
theorem kfreeLoop_ends {start : KHeap} (h : Inv start) (hlinked : start.Linked) {fuel : Nat}
    {k k' : KHeap} {hdr : Nat} (hram : k.ram = start.ram)
    (hhdr : hdr = 0 ∨ start.IsBlock hdr) (hrun : kfreeLoop fuel k hdr = some k') :
    ∃ l, Links start.next (hdrPtr hdr) l none := by
  induction fuel generalizing k hdr with
  | zero => cases hrun
  | succ fuel ih =>
      obtain rfl | ⟨t, ht, rfl⟩ := hhdr
      · exact ⟨[], rfl⟩
      · have hpos := h.base_pos ht
        obtain ⟨hsame, -, hnxt, -⟩ := header_congr start k t.base fun i _ => by rw [hram]
        have hsigned : k.signed t.base = true := hsame.trans (h.signed t ht)
        by_cases hmapped : k.mapped t.base = true
        · rw [kfreeLoop_succ (Nat.ne_of_gt hpos) hmapped hsigned, hnxt] at hrun
          have hrest : ∃ l, Links start.next (hdrPtr (start.nxt t.base)) l none := by
            refine ih ?_ (hlinked.nxt t ht) hrun
            exact hram
          obtain ⟨l, hl⟩ := hrest
          exact ⟨t.base :: l, hdrPtr_of_pos hpos, hl⟩
        · rw [kfreeLoop, if_neg (Nat.ne_of_gt hpos), Bool.eq_false_of_not_eq_true hmapped,
            Bool.not_false, if_pos rfl] at hrun
          cases hrun

-- What a block leads to is a block.
theorem Linked.blocks {k : KHeap} (hlinked : k.Linked) {hdr : Nat} {l : List Nat}
    {stop : Option Nat} (hhdr : hdr = 0 ∨ k.IsBlock hdr)
    (hl : Links k.next (hdrPtr hdr) l stop) : ∀ b ∈ l, k.IsBlock b := by
  induction l generalizing hdr with
  | nil => exact fun b hb => absurd hb List.not_mem_nil
  | cons c l ih =>
      obtain ⟨hstart, hrest⟩ := hl
      have hblock : k.IsBlock c := by
        unfold hdrPtr at hstart
        split at hstart
        · cases hstart
        · rename_i hne
          rw [← Option.some.inj hstart]
          exact hhdr.resolve_left hne
      obtain ⟨t, ht, rfl⟩ := hblock
      exact List.forall_mem_cons.mpr ⟨⟨t, ht, rfl⟩, ih (hlinked.nxt t ht) hrest⟩

-- A kfree that does what it has to has left no link to what it has released.
theorem unlinked_of_frees {k k' : KHeap} (h : Inv k) (hlinked : k.Linked) {t : Span}
    (ht : t ∈ k.live) (hrun : kfreeLoop (k.live.length + 1) k t.base = some k')
    (hfrees : k.FreesChain t.base k') :
    (∃ l, Links k.next (some t.base) l none) ∧
      ∀ s ∈ k.live, ¬ k.Reaches t.base s.base →
        ¬ k.Reaches t.base (k.nxt s.base) ∧ ¬ k.Reaches t.base (k.prev s.base) := by
  have hstart : hdrPtr t.base = some t.base := hdrPtr_of_pos (h.base_pos ht)
  refine ⟨hstart ▸ kfreeLoop_ends h hlinked rfl (.inr ⟨t, ht, rfl⟩) hrun, fun s hs hout => ?_⟩
  obtain ⟨hnxt, hprev⟩ := links_congr (kfreeLoop_ram hrun) s.base
  have hleft := (hfrees.live s).mpr ⟨hs, hout⟩
  have hgone {b : Nat} (hb : b = 0 ∨ k'.IsBlock b) : ¬ k.Reaches t.base b := by
    rintro ⟨l, hl⟩
    obtain rfl | ⟨u, hu, rfl⟩ := hb
    · exact not_links_zero (hstart ▸ hdrPtr_ne_zero t.base) hl
    · exact ((hfrees.live u).mp hu).2 ⟨l, hl⟩
  exact ⟨hgone (hnxt ▸ hfrees.linked.nxt s hleft), hgone (hprev ▸ hfrees.linked.prev s hleft)⟩

-- Where the way ends and nothing else has a link to it, kfree releases the way.
theorem frees_of_unlinked {k : KHeap} (h : Inv k) (hlinked : k.Linked) {t : Span}
    (ht : t ∈ k.live) {l : List Nat} (hl : Links k.next (some t.base) l none)
    (hothers : ∀ s ∈ k.live, ¬ k.Reaches t.base s.base →
      ¬ k.Reaches t.base (k.nxt s.base) ∧ ¬ k.Reaches t.base (k.prev s.base)) :
    ∃ k', kfreeLoop (k.live.length + 1) k t.base = some k' ∧ k.FreesChain t.base k' := by
  have hstart : hdrPtr t.base = some t.base := hdrPtr_of_pos (h.base_pos ht)
  have hblocks := hlinked.blocks (.inr ⟨t, ht, rfl⟩) (hstart.symm ▸ hl)
  have hsub : l ⊆ k.live.map Span.base := by
    intro b hb
    obtain ⟨s, hs, rfl⟩ := hblocks b hb
    exact List.mem_map_of_mem hs
  have hlen := (hl.nodup.subperm hsub).length_le
  rw [List.length_map] at hlen
  obtain ⟨k', hrun, hevents, hleft⟩ := kfreeLoop_chain h hl.nodup hblocks (hstart.symm ▸ hl)
    (Nat.lt_succ_of_le hlen)
  have hleft (s : Span) : s ∈ k'.live ↔ s ∈ k.live ∧ ¬ k.Reaches t.base s.base :=
    (hleft s).trans (and_congr_right fun _ => not_congr hl.mem_iff)
  have hkept {b : Nat} (hb : b = 0 ∨ k.IsBlock b) (hout : ¬ k.Reaches t.base b) :
      b = 0 ∨ k'.IsBlock b := by
    refine hb.imp_right ?_
    rintro ⟨u, hu, rfl⟩
    exact ⟨u, (hleft u).mpr ⟨hu, hout⟩, rfl⟩
  refine ⟨k', hrun, ⟨roundEvents l, hevents, ?_, fun b => ?_, fun _ _ _ hsplit =>
    roundEvents_order hl.nodup hsplit⟩, hleft, ?_⟩
  · rw [releases_roundEvents]
    exact hl.nodup
  · rw [releases_roundEvents]
    exact hl.mem_iff
  · constructor
    · intro s hs
      obtain ⟨hs, hout⟩ := (hleft s).mp hs
      rw [(links_congr (kfreeLoop_ram hrun) s.base).1]
      exact hkept (hlinked.nxt s hs) (hothers s hs hout).1
    · intro s hs
      obtain ⟨hs, hout⟩ := (hleft s).mp hs
      rw [(links_congr (kfreeLoop_ram hrun) s.base).2]
      exact hkept (hlinked.prev s hs) (hothers s hs hout).2

-- kfree does what it has to exactly where nothing else has a link to what it releases.
theorem kfree_iff {k : KHeap} (h : Inv k) (hlinked : k.Linked) {ptr : Nat}
    (hlive : k.IsLive ptr) : k.Sound (.kfree ptr) ↔ k.Unlinked (.kfree ptr) := by
  obtain ⟨t, ht, rfl⟩ := hlive
  simp only [Sound, Unlinked, call, kfree, Nat.add_sub_cancel]
  constructor
  · rintro ⟨k', hrun, hfrees⟩
    exact unlinked_of_frees h hlinked ht hrun hfrees
  · rintro ⟨⟨l, hl⟩, hothers⟩
    exact frees_of_unlinked h hlinked ht hl hothers

theorem call_exact {k : KHeap} {c : HeapCall} (h : Inv k ∧ k.Linked)
    (hallowed : k.Allowed c) : k.Sound c ↔ k.Unlinked c := by
  cases c with
  | kmalloc size answer =>
      exact ⟨fun _ => trivial, fun _ => ⟨_, rfl, (kmalloc_spec h.1 h.2 hallowed).2⟩⟩
  | klink ptr1 ptr2 =>
      exact ⟨fun _ => trivial, fun _ => ⟨_, rfl, (klink_spec h.1 h.2 hallowed.1 hallowed.2).2⟩⟩
  | kfree ptr => exact kfree_iff h.1 h.2 hallowed

theorem call_keeps {k k' : KHeap} {c : HeapCall} (h : Inv k ∧ k.Linked)
    (hunlinked : k.Unlinked c) (hstep : k.Takes c k') : Inv k' ∧ k'.Linked := by
  obtain ⟨hallowed, hcall⟩ := hstep
  cases c with
  | kmalloc size answer =>
      obtain rfl := Option.some.inj hcall
      exact kmalloc_spec h.1 h.2 hallowed
  | klink ptr1 ptr2 =>
      obtain rfl := Option.some.inj hcall
      exact klink_spec h.1 h.2 hallowed.1 hallowed.2
  | kfree ptr =>
      obtain ⟨k'', hcall', hfrees⟩ := (kfree_iff h.1 h.2 hallowed).mpr hunlinked
      obtain rfl := Option.some.inj (hcall'.symm.trans hcall)
      exact ⟨kfreeLoop_inv h.1 hcall, hfrees.linked⟩

end KHeap

theorem emptyHeap_inv : emptyHeap.Inv ∧ emptyHeap.Linked :=
  ⟨⟨nofun, nofun, nofun, List.Pairwise.nil, nofun⟩, nofun, nofun⟩

-- Over a whole run, the last call of which may be one that does not return.
theorem heap_run_iff {past : List (KHeap × HeapCall)} {k : KHeap} {c : HeapCall}
    (h : Trace KHeap.Takes emptyHeap past k) (hallowed : k.Allowed c) :
    Trace.Admits KHeap.Sound (past ++ [(k, c)]) ↔
      Trace.Admits KHeap.Unlinked (past ++ [(k, c)]) :=
  Trace.admits_iff_admits emptyHeap_inv (fun _ _ _ hinv hok hstep => KHeap.call_keeps hinv hok hstep)
    (fun _ _ _ hstep => hstep.1) (fun _ _ hinv hallowed => KHeap.call_exact hinv hallowed) h hallowed

def oneBlock : KHeap := (emptyHeap.kmalloc 16 (zeroPages 0x1000 0x1000)).2

def twoBlocks : KHeap := (oneBlock.kmalloc 16 (zeroPages 0x2000 0x1000)).2

-- The first block is linked to the second one.
def linkedBlocks : KHeap := twoBlocks.klink 0x1028 0x2028

def linkedPast : List (KHeap × HeapCall) :=
  [(emptyHeap, .kmalloc 16 (zeroPages 0x1000 0x1000)), (oneBlock, .kmalloc 16 (zeroPages 0x2000 0x1000)),
    (twoBlocks, .klink 0x1028 0x2028)]

theorem linkedBlocks_run : Trace KHeap.Takes emptyHeap linkedPast linkedBlocks := by
  have hpage (base : Nat) (h : 0x1000 ≤ base) (h' : base ≤ 0x2000) (k : KHeap)
      (hapart : ∀ t ∈ k.live, Span.Apart ⟨base, 0x1000⟩ t) :
      k.Answers 16 (zeroPages base 0x1000) := by
    rintro s fresh heq
    obtain ⟨rfl, -⟩ := Prod.mk.inj (Option.some.inj heq)
    have hsize : align4k (KHeap.request 16) ≤ 0x1000 := by decide
    refine ⟨by decide, hsize, h, ?_, hapart⟩
    change base + 0x1000 ≤ 0x20000000
    omega
  have hfirst := hpage 0x1000 (by decide) (by decide) emptyHeap nofun
  have hsecond := hpage 0x2000 (by decide) (by decide) oneBlock (by decide)
  have hlink : twoBlocks.IsLive 0x1028 ∧ twoBlocks.IsLive 0x2028 :=
    ⟨⟨⟨0x1000, 0x1000⟩, by decide, rfl⟩, ⟨⟨0x2000, 0x1000⟩, by decide, rfl⟩⟩
  exact ((Trace.nil.snoc ⟨hfirst, rfl⟩).snoc ⟨hsecond, rfl⟩).snoc ⟨hlink, rfl⟩

theorem heap_run_iff_linked :
    Trace.Admits KHeap.Sound (linkedPast ++ [(linkedBlocks, .kfree 0x1028)]) ↔
      Trace.Admits KHeap.Unlinked (linkedPast ++ [(linkedBlocks, .kfree 0x1028)]) :=
  heap_run_iff linkedBlocks_run ⟨⟨0x1000, 0x1000⟩, by decide, rfl⟩

def secondFreed : KHeap := (linkedBlocks.kfree 0x2028).getD emptyHeap

-- Freeing the second block leaves the first one with a link to it.
theorem link_left_behind :
    Trace KHeap.Takes emptyHeap linkedPast linkedBlocks ∧ linkedBlocks.IsLive 0x2028 ∧
      linkedBlocks.kfree 0x2028 = some secondFreed ∧ secondFreed.live = [⟨0x1000, 0x1000⟩] ∧
      secondFreed.nxt 0x1000 = 0x2000 ∧ ¬ linkedBlocks.Sound (.kfree 0x2028) := by
  have hrun : linkedBlocks.kfree 0x2028 = some secondFreed := rfl
  have hleft : secondFreed.live = [⟨0x1000, 0x1000⟩] := by decide +kernel
  have hlink : secondFreed.nxt 0x1000 = 0x2000 := by decide +kernel
  refine ⟨linkedBlocks_run, ⟨⟨0x2000, 0x1000⟩, by decide, rfl⟩, hrun, hleft, hlink, ?_⟩
  rintro ⟨k, hcall, hfrees⟩
  obtain rfl := Option.some.inj (hrun.symm.trans hcall)
  have hnxt := hfrees.linked.nxt ⟨0x1000, 0x1000⟩ (by rw [hleft]; exact List.mem_singleton_self _)
  rw [hlink] at hnxt
  obtain hnull | ⟨s, hs, hbase⟩ := hnxt
  · exact absurd hnull (by decide)
  · rw [hleft, List.mem_singleton] at hs
    rw [hs] at hbase
    exact absurd hbase (by decide)

end AosKernel.Core
