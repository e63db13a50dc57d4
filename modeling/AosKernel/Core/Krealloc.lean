import AosKernel.Core.Kmalloc

namespace AosKernel.Core

open Verif AosKernel.Mm

namespace KHeap

-- A live block of `n` bytes, in the pages `s`.
structure Holds (k : KHeap) (s : Span) (n : Nat) : Prop where
  mem : s ∈ k.live
  base_pos : 0 < s.base
  fits : allocHdrSize + n ≤ s.size
  signed : k.signed s.base = true
  size_eq : k.size s.base = n

-- The block in `s` has become one of `newSize` bytes in `t`.
structure MovedTo (k k' : KHeap) (s : Span) (n : Nat) (t : Span) (newSize : Nat) : Prop where
  holds : k'.Holds t newSize
  bytes : ∀ i < min n newSize, k'.ram.bytes (t.base + allocHdrSize + i) =
    k.ram.bytes (s.base + allocHdrSize + i)
  writes : ∃ more, k'.ram.written = k.ram.written ++ more ∧
    ∀ w ∈ more, w.Inside ⟨t.base, allocHdrSize + newSize⟩
  live : ∀ u, u ∈ k'.live ↔ u = t ∨ u ∈ k.live ∧ u ≠ s

-- krealloc returns: NULL, with the old block as it was, or a new block with the contents
-- of the old one, and only the old one has been released.
def Preserves (k : KHeap) (s : Span) (n newSize : Nat) (answer : PagesAnswer) : Prop :=
  ∃ out k', k.krealloc (s.base + allocHdrSize) newSize answer = some (out, k') ∧
    (out = 0 ∧ k'.Holds s n ∧ (∀ x, Span.Mem x s → k'.ram.bytes x = k.ram.bytes x) ∨
      ∃ t, out = t.base + allocHdrSize ∧ k.MovedTo k' s n t newSize)

-- The block is linked to none, or to one that has no header any more.
def LastOfChain (k : KHeap) (s : Span) : Prop :=
  k.nxt s.base = 0 ∨ k.signed (k.nxt s.base) = false ∧
    ∃ u ∈ k.live, u ≠ s ∧ Span.Inside ⟨k.nxt s.base, allocHdrSize⟩ u

theorem mapped_iff {k : KHeap} {hdr : Nat} :
    k.mapped hdr = true ↔ ∃ s ∈ k.live, Span.Inside ⟨hdr, allocHdrSize⟩ s := by
  unfold KHeap.mapped
  rw [List.any_eq_true]
  refine exists_congr fun s => and_congr_right fun _ => ?_
  rw [Bool.and_eq_true, decide_eq_true_eq, decide_eq_true_eq]
  exact Iff.rfl

theorem header_inside {s : Span} {n : Nat} (h : allocHdrSize + n ≤ s.size) :
    Span.Inside ⟨s.base, allocHdrSize⟩ s :=
  ⟨Nat.le_refl _, Nat.add_le_add_left (Nat.le_trans (Nat.le_add_right _ n) h) _⟩

theorem mem_of_inside {hdr i : Nat} (hi : i < 40) {s : Span}
    (h : Span.Inside ⟨hdr, allocHdrSize⟩ s) : Span.Mem (hdr + i) s :=
  h.mem ⟨Nat.le_add_right _ _, Nat.add_lt_add_left hi _⟩

theorem kfreeLoop_live {fuel : Nat} {k k' : KHeap} {hdr : Nat}
    (h : kfreeLoop fuel k hdr = some k') {s : Span} (hs : s ∈ k'.live) : s ∈ k.live := by
  induction fuel generalizing k hdr with
  | zero => cases h
  | succ fuel ih =>
      unfold kfreeLoop at h
      split at h
      · rwa [Option.some.inj h]
      · split at h
        · cases h
        · dsimp only at h
          split at h
          · rw [← Option.some.inj h] at hs
            exact hs
          · have hleft := ih h
            exact List.mem_of_mem_filter hleft

section NewBlock

variable {k : KHeap} {s t : Span} {n newSize : Nat} {fresh : Bytes}

-- The heap after the new block has been made, and after it has been filled.
def made (k : KHeap) (t : Span) (newSize : Nat) (fresh : Bytes) : KHeap :=
  (k.mapPages t fresh).newHeader t.base newSize

def filled (k : KHeap) (s : Span) (n : Nat) (t : Span) (newSize : Nat) (fresh : Bytes) : KHeap :=
  { k.made t newSize fresh with
    ram := (k.made t newSize fresh).ram.memcpy (t.base + allocHdrSize) (s.base + allocHdrSize) n }

-- The pages of the new block are apart from the others, and long enough.
theorem Answers.new_pages (hans : k.Answers newSize (some (t, fresh)))
    (hnew : newSize + allocHdrSize < 2 ^ 64) :
    allocHdrSize + newSize ≤ t.size ∧ 0 < t.base ∧ ∀ u ∈ k.live, Span.Apart t u := by
  obtain ⟨hpos, hsize, hbase, -, hapart⟩ := hans t fresh rfl
  have hrequest : request newSize = newSize + allocHdrSize := Nat.mod_eq_of_lt hnew
  have hle := (align4k_cases hpos).1
  rw [hrequest] at hle hsize
  have hspace : 0 < userSpace.base := userSpace.base_pos
  exact ⟨by omega, by omega, hapart⟩

theorem hdr_ne (hdr : Nat) : hdr + allocHdrSize ≠ 0 := Nat.succ_ne_zero _

-- The copy does not run into its source.
theorem copy_apart (hs : k.Holds s n) (hfits : allocHdrSize + newSize ≤ t.size)
    (hapart : Span.Apart t s) :
    t.base + allocHdrSize ≤ s.base + allocHdrSize ∨
      s.base + allocHdrSize + n ≤ t.base + allocHdrSize := by
  have hsfits : 40 + n ≤ s.size := hs.fits
  have htfits : 40 + newSize ≤ t.size := hfits
  have hcases := (Span.apart_iff (by omega) (by omega)).mp hapart
  simp only [Span.limit] at hcases
  omega

theorem krealloc_some (hs : k.Holds s n) (hans : k.Answers newSize (some (t, fresh))) :
    k.krealloc (s.base + allocHdrSize) newSize (some (t, fresh)) =
      (kfree (k.filled s n t newSize fresh) (s.base + allocHdrSize)).map fun k' =>
        (t.base + allocHdrSize, k') := by
  have hmapped : k.mapped s.base = true := mapped_iff.mpr ⟨s, hs.mem, header_inside hs.fits⟩
  have hsize : (k.made t newSize fresh).size s.base = n := by
    refine Eq.trans ?_ hs.size_eq
    exact (header_congr k (k.made t newSize fresh) s.base fun i hi =>
      kmalloc_bytes hans hs.mem (mem_of_inside hi (header_inside hs.fits))).2.1
  have hmade : k.kmalloc newSize (some (t, fresh)) =
      (t.base + allocHdrSize, k.made t newSize fresh) := rfl
  unfold krealloc
  rw [if_neg (hdr_ne s.base), Nat.add_sub_cancel]
  dsimp only
  rw [hmapped, Bool.not_true, if_neg nofun, hs.signed, Bool.not_true, if_neg nofun, hmade]
  dsimp only
  rw [if_neg (hdr_ne t.base), hsize]
  rfl

-- In the other blocks the memory is what it was.
theorem filled_bytes (hs : k.Holds s n) (hans : k.Answers newSize (some (t, fresh)))
    (hnew : newSize + allocHdrSize < 2 ^ 64) (hn : n ≤ newSize) {u : Span} (hu : u ∈ k.live)
    {x : Nat} (hx : Span.Mem x u) :
    (k.filled s n t newSize fresh).ram.bytes x = k.ram.bytes x := by
  obtain ⟨hfits, -, hapart⟩ := hans.new_pages hnew
  have htfits : 40 + newSize ≤ t.size := hfits
  have hout : ¬ Span.Mem x ⟨t.base + allocHdrSize, n⟩ := by
    intro hmem
    have hlow : t.base + 40 ≤ x := hmem.1
    have hhigh : x < t.base + 40 + n := hmem.2
    exact hapart u hu x ⟨by omega, by omega⟩ hx
  have hcopy := copy_apart hs hfits (hapart s hs.mem)
  exact ((Ram.memcpy_writes _ hcopy).kept x hout).trans (kmalloc_bytes hans hu hx)

-- What the copy writes is logged after what the header has written.
theorem filled_written (hans : k.Answers newSize (some (t, fresh)))
    (hnew : newSize + allocHdrSize < 2 ^ 64) (hs : k.Holds s n) :
    ∃ more, (k.filled s n t newSize fresh).ram.written =
        k.ram.written ++ more ++ (if n = 0 then [] else [⟨t.base + allocHdrSize, n⟩]) ∧
      ∀ w ∈ more, w.Inside ⟨t.base, allocHdrSize⟩ := by
  obtain ⟨hfits, -, hapart⟩ := hans.new_pages hnew
  obtain ⟨more, hmore, hin⟩ := (newHeader_writes (k.mapPages t fresh) t.base newSize).log
  refine ⟨more, ?_, hin⟩
  have hne : t.base + allocHdrSize ≠ s.base + allocHdrSize := by
    intro heq
    have hbase : t.base = s.base := Nat.add_right_cancel heq
    have hsfits : 40 + n ≤ s.size := hs.fits
    have htfits : 40 + newSize ≤ t.size := hfits
    exact hapart s hs.mem t.base ⟨Nat.le_refl _, by omega⟩ ⟨by omega, by omega⟩
  change (Ram.memcpy _ _ _ _).written = _
  unfold Ram.memcpy
  rw [if_neg (not_or.mpr ⟨hdr_ne _, hdr_ne _⟩)]
  by_cases hzero : n = 0
  · rw [if_pos (.inl hzero), if_pos hzero, List.append_nil]
    exact hmore
  · rw [if_neg (not_or.mpr ⟨hzero, hne⟩), if_neg hzero]
    exact congrArg (· ++ [_]) hmore

-- The new block, and what it holds.
theorem filled_holds (hs : k.Holds s n) (hans : k.Answers newSize (some (t, fresh)))
    (hnew : newSize + allocHdrSize < 2 ^ 64) :
    (k.filled s n t newSize fresh).Holds t newSize := by
  obtain ⟨hfits, hpos, hapart⟩ := hans.new_pages hnew
  have hcopy := copy_apart hs hfits (hapart s hs.mem)
  have hheader := header_congr (k.made t newSize fresh) (k.filled s n t newSize fresh)
    t.base fun i hi => by
      refine (Ram.memcpy_writes _ hcopy).kept _ fun hmem => ?_
      have hlow : t.base + 40 ≤ t.base + i := hmem.1
      omega
  have hlt : newSize < 2 ^ 64 := Nat.lt_of_le_of_lt (Nat.le_add_right _ _) hnew
  exact ⟨List.mem_cons_self, hpos, hfits, hheader.1.trans (newHeader_signed _ _ _),
    hheader.2.1.trans (newHeader_size _ _ hlt)⟩

theorem filled_copied (hs : k.Holds s n) (hans : k.Answers newSize (some (t, fresh)))
    (hnew : newSize + allocHdrSize < 2 ^ 64) {i : Nat} (hi : i < n) :
    (k.filled s n t newSize fresh).ram.bytes (t.base + allocHdrSize + i) =
      k.ram.bytes (s.base + allocHdrSize + i) := by
  obtain ⟨hfits, -, hapart⟩ := hans.new_pages hnew
  have hcopy := copy_apart hs hfits (hapart s hs.mem)
  have hsfits : 40 + n ≤ s.size := hs.fits
  have hmem : Span.Mem (s.base + allocHdrSize + i) s := by
    change s.base ≤ s.base + 40 + i ∧ s.base + 40 + i < s.base + s.size
    omega
  refine (Ram.memcpy_bytes _ (hdr_ne _) (hdr_ne _) hcopy _).trans ?_
  rw [moved_in _ (Nat.le_add_right _ _) (Nat.add_lt_add_left hi _), Nat.add_sub_cancel_left,
    Nat.add_comm i]
  exact kmalloc_bytes hans hs.mem hmem

-- What is left when the old block has been released.
def left (k : KHeap) (s : Span) (n : Nat) (t : Span) (newSize : Nat) (fresh : Bytes) : KHeap :=
  { k.filled s n t newSize fresh with
    events := (k.filled s n t newSize fresh).events ++ [HeapEvent.read s.base] }.avmfFree s.base

theorem mem_left (hapart : k.live.Pairwise Span.Apart) (hs : k.Holds s n)
    (hans : k.Answers newSize (some (t, fresh))) (hnew : newSize + allocHdrSize < 2 ^ 64)
    {u : Span} : u ∈ (k.left s n t newSize fresh).live ↔ u = t ∨ u ∈ k.live ∧ u ≠ s := by
  obtain ⟨hfits, -, hout⟩ := hans.new_pages hnew
  have hsfits : 40 + n ≤ s.size := hs.fits
  have hbase : Span.Mem s.base s := ⟨Nat.le_refl _, by omega⟩
  change u ∈ (t :: k.live).filter (fun v => !decide (Span.Mem s.base v)) ↔ _
  rw [List.mem_filter, List.mem_cons, Bool.not_eq_true', decide_eq_false_iff_not]
  constructor
  · rintro ⟨rfl | hu, hmem⟩
    · exact .inl rfl
    · exact .inr ⟨hu, fun heq => hmem (heq ▸ hbase)⟩
  · rintro (rfl | ⟨hu, hne⟩)
    · exact ⟨.inl rfl, fun hmem => hout s hs.mem _ hmem hbase⟩
    · exact ⟨.inr hu, fun hmem => hne (eq_of_mem hapart hu hs.mem hmem hbase)⟩

-- Where the copy stays in the new block, kfree goes on with what the old block is linked to.
theorem kfree_filled (hs : k.Holds s n) (hans : k.Answers newSize (some (t, fresh)))
    (hnew : newSize + allocHdrSize < 2 ^ 64) (hn : n ≤ newSize) :
    (k.filled s n t newSize fresh).kfree (s.base + allocHdrSize) =
      kfreeLoop (k.live.length + 1) (k.left s n t newSize fresh) (k.nxt s.base) := by
  have hmapped : (k.filled s n t newSize fresh).mapped s.base = true :=
    mapped_iff.mpr ⟨s, List.mem_cons_of_mem t hs.mem, header_inside hs.fits⟩
  have hheader := header_congr k (k.filled s n t newSize fresh) s.base fun i hi =>
    filled_bytes hs hans hnew hn hs.mem (mem_of_inside hi (header_inside hs.fits))
  unfold kfree
  rw [Nat.add_sub_cancel, kfreeLoop_succ (Nat.ne_of_gt hs.base_pos) hmapped
    (hheader.1.trans hs.signed), hheader.2.2.1]
  rfl

theorem moved_left (hapart : k.live.Pairwise Span.Apart) (hs : k.Holds s n)
    (hans : k.Answers newSize (some (t, fresh))) (hnew : newSize + allocHdrSize < 2 ^ 64)
    (hn : n ≤ newSize) {k' : KHeap} (hram : k'.ram = (k.filled s n t newSize fresh).ram)
    (hlive : k'.live = (k.left s n t newSize fresh).live) : k.MovedTo k' s n t newSize := by
  have hmem (u : Span) : u ∈ k'.live ↔ u = t ∨ u ∈ k.live ∧ u ≠ s := by
    rw [hlive]
    exact mem_left hapart hs hans hnew
  have hholds := filled_holds hs hans hnew
  have hheader := header_congr (k.filled s n t newSize fresh) k' t.base fun i _ => by rw [hram]
  refine ⟨⟨(hmem t).mpr (.inl rfl), hholds.base_pos, hholds.fits,
    hheader.1.trans hholds.signed, hheader.2.1.trans hholds.size_eq⟩, fun i hi => ?_, ?_, hmem⟩
  · rw [hram]
    exact filled_copied hs hans hnew (Nat.lt_of_lt_of_le hi (Nat.min_le_left _ _))
  · obtain ⟨more, hmore, hin⟩ := filled_written hans hnew hs
    refine ⟨more ++ if n = 0 then [] else [⟨t.base + allocHdrSize, n⟩], ?_, ?_⟩
    · rw [hram, hmore, List.append_assoc]
    · intro w hw
      obtain hheader | hcopy := List.mem_append.mp hw
      · exact ⟨(hin w hheader).1, Nat.le_trans (hin w hheader).2
          (Nat.add_le_add_left (Nat.le_add_right _ _) _)⟩
      · split at hcopy
        · exact absurd hcopy List.not_mem_nil
        · rw [List.mem_singleton.mp hcopy]
          exact ⟨Nat.le_add_right _ _, by
            change t.base + allocHdrSize + n ≤ t.base + (allocHdrSize + newSize)
            omega⟩

-- What the last link has to be for kfree to stop there.
theorem kfreeLoop_left (hapart : k.live.Pairwise Span.Apart) (hs : k.Holds s n)
    (hans : k.Answers newSize (some (t, fresh))) (hnew : newSize + allocHdrSize < 2 ^ 64)
    (hn : n ≤ newSize) (hlast : k.LastOfChain s) :
    ∃ k', kfreeLoop (k.live.length + 1) (k.left s n t newSize fresh) (k.nxt s.base) = some k' ∧
      k'.live = (k.left s n t newSize fresh).live := by
  by_cases hzero : k.nxt s.base = 0
  · exact ⟨_, if_pos hzero, rfl⟩
  · obtain ⟨hunsigned, u, hu, hne, hin⟩ := hlast.resolve_left hzero
    have hmapped : (k.left s n t newSize fresh).mapped (k.nxt s.base) = true :=
      mapped_iff.mpr ⟨u, (mem_left hapart hs hans hnew).mpr (.inr ⟨hu, hne⟩), hin⟩
    have hheader := header_congr k (k.left s n t newSize fresh) (k.nxt s.base) fun i hi =>
      filled_bytes hs hans hnew hn hu (mem_of_inside hi hin)
    refine ⟨{ k.left s n t newSize fresh with
      events := (k.left s n t newSize fresh).events ++ [.read (k.nxt s.base)] }, ?_, rfl⟩
    rw [kfreeLoop, if_neg hzero, hmapped, Bool.not_true, if_neg Bool.false_ne_true]
    change (if !(k.left s n t newSize fresh).signed (k.nxt s.base) then _ else _) = _
    rw [hheader.1, hunsigned]
    rfl

theorem last_of_moved (hapart : k.live.Pairwise Span.Apart) (hs : k.Holds s n)
    (hans : k.Answers newSize (some (t, fresh))) (hnew : newSize + allocHdrSize < 2 ^ 64)
    (hn : n ≤ newSize) (hout : ¬ Span.Inside ⟨k.nxt s.base, allocHdrSize⟩ t) {k' : KHeap}
    (hrun : kfreeLoop (k.live.length + 1) (k.left s n t newSize fresh) (k.nxt s.base) = some k')
    (hlive : ∀ u, u ∈ k'.live ↔ u = t ∨ u ∈ k.live ∧ u ≠ s) : k.LastOfChain s := by
  by_cases hzero : k.nxt s.base = 0
  · exact .inl hzero
  · by_cases hmapped : (k.left s n t newSize fresh).mapped (k.nxt s.base) = true
    · obtain ⟨u, hu, hin⟩ := mapped_iff.mp hmapped
      have hu := ((mem_left hapart hs hans hnew).mp hu).resolve_left fun heq => hout (heq ▸ hin)
      have hheader := header_congr k (k.left s n t newSize fresh) (k.nxt s.base) fun i hi =>
        filled_bytes hs hans hnew hn hu.1 (mem_of_inside hi hin)
      refine .inr ⟨?_, u, hu.1, hu.2, hin⟩
      -- a signature would have had `u` released too
      by_contra hsigned
      have hsigned := hheader.1.trans (Bool.eq_true_of_not_eq_false hsigned)
      rw [kfreeLoop_succ hzero hmapped hsigned] at hrun
      have hkept := kfreeLoop_live hrun ((hlive u).mpr (.inr hu))
      have hgone := (List.mem_filter.mp hkept).2
      rw [Bool.not_eq_true', decide_eq_false_iff_not] at hgone
      exact hgone (mem_of_inside (i := 0) (by decide) hin)
    · rw [kfreeLoop, if_neg hzero, Bool.eq_false_of_not_eq_true hmapped, Bool.not_false,
        if_pos rfl] at hrun
      cases hrun

-- A copy that is longer than the new block writes behind it.
theorem le_of_writes (hs : k.Holds s n) (hans : k.Answers newSize (some (t, fresh)))
    (hnew : newSize + allocHdrSize < 2 ^ 64)
    (hwrites : ∃ more, (k.filled s n t newSize fresh).ram.written = k.ram.written ++ more ∧
      ∀ w ∈ more, w.Inside ⟨t.base, allocHdrSize + newSize⟩) : n ≤ newSize := by
  obtain ⟨more, hmore, -⟩ := filled_written hans hnew hs
  obtain ⟨all, hall, hin⟩ := hwrites
  by_contra hlt
  rw [if_neg (by omega), hall, List.append_assoc, List.append_cancel_left_eq] at hmore
  have hcopy := hin ⟨t.base + allocHdrSize, n⟩ (by
    rw [hmore]
    exact List.mem_append_right _ (List.mem_singleton_self _))
  have hlimit : t.base + allocHdrSize + n ≤ t.base + (allocHdrSize + newSize) := hcopy.2
  omega

-- With memory for a new block the result is that block.
theorem moved_of_preserves (hs : k.Holds s n) (hans : k.Answers newSize (some (t, fresh)))
    (hnew : newSize + allocHdrSize < 2 ^ 64)
    (hkept : k.Preserves s n newSize (some (t, fresh))) :
    ∃ k', (k.filled s n t newSize fresh).kfree (s.base + allocHdrSize) = some k' ∧
      k.MovedTo k' s n t newSize := by
  obtain ⟨out, k', hrun, hresult⟩ := hkept
  rw [krealloc_some hs hans] at hrun
  obtain ⟨k'', hfree, heq⟩ := Option.map_eq_some_iff.mp hrun
  obtain ⟨rfl, rfl⟩ := Prod.mk.inj heq
  obtain ⟨hnull, -⟩ | ⟨t', ht', hmoved⟩ := hresult
  · exact absurd hnull (hdr_ne t.base)
  · have hbase : t'.base = t.base := (Nat.add_right_cancel ht').symm
    obtain ⟨hfits, -, hapart⟩ := hans.new_pages hnew
    have hsame : t' = t := by
      obtain rfl | hold := List.mem_cons.mp (kfreeLoop_live hfree hmoved.holds.mem)
      · rfl
      · have htfits : 40 + newSize ≤ t.size := hfits
        have htfits' : 40 + newSize ≤ t'.size := hmoved.holds.fits
        exact absurd (show Span.Mem t.base t' from ⟨by omega, by omega⟩)
          (hapart t' hold t.base ⟨Nat.le_refl _, by omega⟩)
    exact ⟨k'', hfree, hsame ▸ hmoved⟩

theorem le_of_preserves (hs : k.Holds s n) (hans : k.Answers newSize (some (t, fresh)))
    (hnew : newSize + allocHdrSize < 2 ^ 64)
    (hkept : k.Preserves s n newSize (some (t, fresh))) : n ≤ newSize := by
  obtain ⟨k', hfree, hmoved⟩ := moved_of_preserves hs hans hnew hkept
  have hram : k'.ram = (k.filled s n t newSize fresh).ram := kfreeLoop_ram hfree
  have hwrites := hmoved.writes
  rw [hram] at hwrites
  exact le_of_writes hs hans hnew hwrites

end NewBlock

-- krealloc does what it should when there is no memory, or when the block does not shrink
-- and is the last one of its chain. Otherwise it does not, as long as no link leads into
-- the pages that avmf_alloc hands out.
theorem krealloc_iff {k : KHeap} {s : Span} {n newSize : Nat} {answer : PagesAnswer}
    (hapart : k.live.Pairwise Span.Apart) (hs : k.Holds s n)
    (hnew : newSize + allocHdrSize < 2 ^ 64) (hans : k.Answers newSize answer) :
    ((answer = none ∨ n ≤ newSize ∧ k.LastOfChain s) → k.Preserves s n newSize answer) ∧
      ((∀ t fresh, answer = some (t, fresh) →
          ¬ Span.Inside ⟨k.nxt s.base, allocHdrSize⟩ t) →
        k.Preserves s n newSize answer → answer = none ∨ n ≤ newSize ∧ k.LastOfChain s) := by
  cases answer with
  | none =>
      have hmapped : k.mapped s.base = true := mapped_iff.mpr ⟨s, hs.mem, header_inside hs.fits⟩
      have hrun : k.krealloc (s.base + allocHdrSize) newSize none = some (0, k) := by
        unfold krealloc
        rw [if_neg (hdr_ne s.base), Nat.add_sub_cancel]
        dsimp only
        rw [hmapped, Bool.not_true, if_neg nofun, hs.signed, Bool.not_true, if_neg nofun]
        rfl
      exact ⟨fun _ => ⟨0, k, hrun, .inl ⟨rfl, hs, fun _ _ => rfl⟩⟩, fun _ _ => .inl rfl⟩
  | some new =>
      obtain ⟨t, fresh⟩ := new
      constructor
      · rintro (hnone | ⟨hn, hlast⟩)
        · cases hnone
        · obtain ⟨k', hrun, hlive⟩ := kfreeLoop_left hapart hs hans hnew hn hlast
          have hram : k'.ram = (k.filled s n t newSize fresh).ram :=
            (kfreeLoop_ram hrun).trans rfl
          refine ⟨_, k', ?_, .inr ⟨t, rfl, moved_left hapart hs hans hnew hn hram hlive⟩⟩
          rw [krealloc_some hs hans, kfree_filled hs hans hnew hn, hrun]
          rfl
      · intro hout hkept
        obtain ⟨k', hfree, hmoved⟩ := moved_of_preserves hs hans hnew hkept
        have hn := le_of_preserves hs hans hnew hkept
        rw [kfree_filled hs hans hnew hn] at hfree
        exact .inr ⟨hn, last_of_moved hapart hs hans hnew hn (hout t fresh rfl) hfree
          hmoved.live⟩

end KHeap

-- A block of 5000 bytes, which needs two pages.
def twoPages : Span := ⟨0x1000, 0x2000⟩

def largeBlock : KHeap := (emptyHeap.kmalloc 5000 (zeroPages 0x1000 0x2000)).2

theorem largeBlock_holds : largeBlock.Holds twoPages 5000 :=
  ⟨List.mem_cons_self, by decide, by decide, KHeap.newHeader_signed _ _ _,
    KHeap.newHeader_size _ _ (by decide)⟩

theorem largeBlock_answers {newSize pages : Nat}
    (hsize : 0 < align4k (KHeap.request newSize) ∧ align4k (KHeap.request newSize) ≤ pages)
    (hpages : pages ≤ 0x10000) : largeBlock.Answers newSize (zeroPages 0x3000 pages) := by
  intro s fresh heq
  obtain ⟨rfl, -⟩ := Prod.mk.inj (Option.some.inj heq)
  have hbase : userSpace.base ≤ 0x3000 := by decide
  refine ⟨hsize.1, hsize.2, hbase, ?_, List.forall_mem_singleton.mpr fun x hx hx' => ?_⟩
  · change 0x3000 + pages ≤ 0x20000000
    omega
  · have hlow : 0x3000 ≤ x := hx.1
    have hhigh : x < 0x1000 + 0x2000 := hx'.2
    omega

theorem krealloc_iff_grown :
    ((zeroPages 0x3000 0x2000 = none ∨ 5000 ≤ 6000 ∧ largeBlock.LastOfChain twoPages) →
        largeBlock.Preserves twoPages 5000 6000 (zeroPages 0x3000 0x2000)) ∧
      ((∀ t fresh, zeroPages 0x3000 0x2000 = some (t, fresh) →
          ¬ Span.Inside ⟨largeBlock.nxt twoPages.base, allocHdrSize⟩ t) →
        largeBlock.Preserves twoPages 5000 6000 (zeroPages 0x3000 0x2000) →
        zeroPages 0x3000 0x2000 = none ∨ 5000 ≤ 6000 ∧ largeBlock.LastOfChain twoPages) :=
  KHeap.krealloc_iff (List.pairwise_singleton _ _) largeBlock_holds (by decide)
    (largeBlock_answers (by decide) (by decide))

-- Shrinking to 16 bytes copies the old 5000 into a block of one page.
theorem shrink_overruns :
    largeBlock.Holds twoPages 5000 ∧ largeBlock.Answers 16 (zeroPages 0x3000 0x1000) ∧
      ⟨0x3028, 5000⟩ ∈ (largeBlock.filled twoPages 5000 ⟨0x3000, 0x1000⟩ 16 fun _ => 0).ram.written ∧
      ¬ largeBlock.Preserves twoPages 5000 16 (zeroPages 0x3000 0x1000) := by
  have hans : largeBlock.Answers 16 (zeroPages 0x3000 0x1000) :=
    largeBlock_answers (by decide) (by decide)
  refine ⟨largeBlock_holds, hans, ?_, fun hkept => ?_⟩
  · obtain ⟨more, hmore, -⟩ := KHeap.filled_written hans (by decide) largeBlock_holds
    rw [hmore]
    exact List.mem_append_right _ (List.mem_singleton_self _)
  · exact absurd (KHeap.le_of_preserves largeBlock_holds hans (by decide) hkept) (by decide)

end AosKernel.Core
