import AosKernel.Core.Ram
import AosKernel.Mm.Region

namespace AosKernel.Core

open Verif AosKernel.Mm

-- "AOS_ALLOC" and its terminator
def ALLOC_HDR_SIG : List (BitVec 8) := [65, 79, 83, 95, 65, 76, 76, 79, 67, 0]

-- sizeof(struct alloc_hdr), with `size` at 16, `nxt` at 24 and `prev` at 32
def allocHdrSize : Nat := 40

inductive HeapEvent
  | read (hdr : Nat)
  | release (hdr : Nat)
  deriving DecidableEq

-- Memory, the pages that avmf_alloc has given out for user space, and the headers that
-- kfree has read and released, oldest first.
structure KHeap where
  ram : Ram
  live : List Span
  events : List HeapEvent

-- What avmf_alloc answers: NULL, or new pages and what they hold.
abbrev PagesAnswer := Option (Span × Bytes)

namespace KHeap

def size (k : KHeap) (hdr : Nat) : Nat := (k.ram.bytes.readWord (hdr + 16)).toNat

def nxt (k : KHeap) (hdr : Nat) : Nat := (k.ram.bytes.readWord (hdr + 24)).toNat

def prev (k : KHeap) (hdr : Nat) : Nat := (k.ram.bytes.readWord (hdr + 32)).toNat

def signed (k : KHeap) (hdr : Nat) : Bool :=
  (List.range 10).all fun i => k.ram.bytes (hdr + i) == ALLOC_HDR_SIG.getD i 0

-- avmf_free unmaps what it takes back, so only the headers in live pages can be read.
def mapped (k : KHeap) (hdr : Nat) : Bool :=
  k.live.any fun s => decide (s.base ≤ hdr) && decide (hdr + allocHdrSize ≤ s.limit)

def avmfFree (k : KHeap) (virt : Nat) : KHeap :=
  { k with
    live := k.live.filter fun s => !decide (Span.Mem virt s)
    events := k.events ++ [.release virt] }

def mapPages (k : KHeap) (s : Span) (fresh : Bytes) : KHeap :=
  { k with
    ram := { k.ram with bytes := fun x => if Span.Mem x s then fresh x else k.ram.bytes x }
    live := s :: k.live }

-- The request, whose sum may wrap, and what comes back for it.
def request (size : Nat) : Nat := (size + allocHdrSize) % 2 ^ 64

def newHeader (k : KHeap) (hdr size : Nat) : KHeap :=
  { k with
    ram := (((k.ram.store hdr 10 fun i => ALLOC_HDR_SIG.getD i 0).writeWord (hdr + 16)
      (BitVec.ofNat 64 size)).writeWord (hdr + 24) 0).writeWord (hdr + 32) 0 }

def kmalloc (k : KHeap) (size : Nat) (answer : PagesAnswer) : Nat × KHeap :=
  match answer with
  | none => (0, k)
  | some (s, fresh) => (s.base + allocHdrSize, (k.mapPages s fresh).newHeader s.base size)

def klink (k : KHeap) (ptr1 ptr2 : Nat) : KHeap :=
  let hdr1 := ptr1 - allocHdrSize
  let hdr2 := ptr2 - allocHdrSize
  { k with
    ram := (k.ram.writeWord (hdr1 + 24) (BitVec.ofNat 64 hdr2)).writeWord (hdr2 + 32)
      (BitVec.ofNat 64 hdr1) }

-- The loop of kfree. There is no result after a page fault.
def kfreeLoop : Nat → KHeap → Nat → Option KHeap
  | 0, _, _ => none
  | fuel + 1, k, hdr =>
      if hdr = 0 then some k
      else if !k.mapped hdr then none
      else
        let k := { k with events := k.events ++ [.read hdr] }
        if !k.signed hdr then some k
        else kfreeLoop fuel (k.avmfFree hdr) (k.nxt hdr)

-- A round takes back the pages of the header that it reads.
def kfree (k : KHeap) (ptr : Nat) : Option KHeap :=
  kfreeLoop (k.live.length + 1) k (ptr - allocHdrSize)

def krealloc (k : KHeap) (ptr newSize : Nat) (answer : PagesAnswer) : Option (Nat × KHeap) :=
  if ptr = 0 then some (k.kmalloc newSize answer)
  else
    let hdr := ptr - allocHdrSize
    if !k.mapped hdr then none
    else if !k.signed hdr then some (0, k)
    else
      let (out, k) := k.kmalloc newSize answer
      if out = 0 then some (0, k)
      else
        let k := { k with ram := k.ram.memcpy out ptr (k.size hdr) }
        (k.kfree ptr).map fun k => (out, k)

-- avmf_alloc gives at least the pages that are asked for, which nobody has.
def Answers (k : KHeap) (size : Nat) (answer : PagesAnswer) : Prop :=
  ∀ s fresh, answer = some (s, fresh) → 0 < align4k (request size) ∧
    align4k (request size) ≤ s.size ∧ userSpace.base ≤ s.base ∧ s.limit ≤ userSpace.limit ∧
    ∀ t ∈ k.live, Span.Apart s t

def IsBlock (k : KHeap) (hdr : Nat) : Prop := ∃ s ∈ k.live, s.base = hdr

-- What holds as long as headers are written by kmalloc and klink only.
structure Inv (k : KHeap) : Prop where
  base_le : ∀ s ∈ k.live, userSpace.base ≤ s.base
  size_le : ∀ s ∈ k.live, allocHdrSize ≤ s.size
  limit_le : ∀ s ∈ k.live, s.limit ≤ userSpace.limit
  apart : k.live.Pairwise Span.Apart
  signed : ∀ s ∈ k.live, k.signed s.base = true

theorem align4k_cases {v : Nat} (h : 0 < align4k v) : v ≤ align4k v ∧ allocHdrSize ≤ align4k v := by
  unfold align4k at h ⊢
  split at h
  · exact absurd h (Nat.lt_irrefl 0)
  · rename_i hle
    rw [if_neg hle]
    unfold alignUpPage at h ⊢
    change 0 < (v + 4095) / 4096 * 4096 at h
    change v ≤ (v + 4095) / 4096 * 4096 ∧ 40 ≤ (v + 4095) / 4096 * 4096
    omega

theorem Answers.hdr_le {k : KHeap} {size : Nat} {s : Span} {fresh : Bytes}
    (h : k.Answers size (some (s, fresh))) : allocHdrSize ≤ s.size := by
  obtain ⟨hpos, hsize, -⟩ := h s fresh rfl
  exact Nat.le_trans (align4k_cases hpos).2 hsize

-- Of two blocks that are not the same one none begins in the other.
theorem eq_of_mem {k : KHeap} (hapart : k.live.Pairwise Span.Apart) {s t : Span}
    (hs : s ∈ k.live) (ht : t ∈ k.live) {x : Nat} (hxs : Span.Mem x s) (hxt : Span.Mem x t) :
    s = t := by
  have hsymm : Std.Symm Span.Apart := ⟨fun _ _ => Span.Apart.symm⟩
  by_contra hne
  exact hapart.forall hs ht hne x hxs hxt

theorem Inv.base_mem {k : KHeap} (h : Inv k) {s : Span} (hs : s ∈ k.live) :
    Span.Mem s.base s := by
  have hsize : 40 ≤ s.size := h.size_le s hs
  exact ⟨Nat.le_refl _, by omega⟩

theorem Inv.mapped {k : KHeap} (h : Inv k) {s : Span} (hs : s ∈ k.live) :
    k.mapped s.base = true := by
  have hsize : 40 ≤ s.size := h.size_le s hs
  refine List.any_eq_true.mpr ⟨s, hs, ?_⟩
  rw [Bool.and_eq_true, decide_eq_true_eq, decide_eq_true_eq, Span.limit]
  exact ⟨Nat.le_refl _, Nat.add_le_add_left hsize _⟩

theorem Inv.base_pos {k : KHeap} (h : Inv k) {s : Span} (hs : s ∈ k.live) : 0 < s.base :=
  Nat.lt_of_lt_of_le (by decide) (h.base_le s hs)

theorem Inv.base_lt {k : KHeap} (h : Inv k) {s : Span} (hs : s ∈ k.live) :
    s.base < 2 ^ 64 := by
  have hlimit := h.limit_le s hs
  rw [Span.limit] at hlimit
  have hspace : userSpace.limit < 2 ^ 64 := userSpace.limit_lt
  omega

-- Releasing a block takes no other one off.
theorem Inv.mem_avmfFree {k : KHeap} (h : Inv k) {b : Span} (hb : b ∈ k.live) {s : Span} :
    s ∈ (k.avmfFree b.base).live ↔ s ∈ k.live ∧ s ≠ b := by
  change s ∈ k.live.filter _ ↔ _
  rw [List.mem_filter, Bool.not_eq_true', decide_eq_false_iff_not]
  refine and_congr_right fun hs => not_congr ⟨fun hmem => ?_, fun heq => ?_⟩
  · exact eq_of_mem h.apart hs hb hmem (h.base_mem hb)
  · rw [heq]
    exact h.base_mem hb

theorem Inv.avmfFree {k : KHeap} (h : Inv k) (virt : Nat) : Inv (k.avmfFree virt) where
  base_le := fun s hs => h.base_le s (List.mem_of_mem_filter hs)
  size_le := fun s hs => h.size_le s (List.mem_of_mem_filter hs)
  limit_le := fun s hs => h.limit_le s (List.mem_of_mem_filter hs)
  apart := h.apart.filter _
  signed := fun s hs => h.signed s (List.mem_of_mem_filter hs)

-- The log of events is not part of what the calls read.
theorem Inv.events {k : KHeap} (h : Inv k) (events : List HeapEvent) :
    Inv { k with events := events } :=
  ⟨h.base_le, h.size_le, h.limit_le, h.apart, h.signed⟩

-- A header is read from its 40 bytes.
theorem header_congr (k k' : KHeap) (hdr : Nat)
    (h : ∀ i < 40, k'.ram.bytes (hdr + i) = k.ram.bytes (hdr + i)) :
    k'.signed hdr = k.signed hdr ∧ k'.size hdr = k.size hdr ∧ k'.nxt hdr = k.nxt hdr ∧
      k'.prev hdr = k.prev hdr := by
  have hword (a : Nat) (ha : a + 8 ≤ 40) :
      k'.ram.bytes.readWord (hdr + a) = k.ram.bytes.readWord (hdr + a) := by
    apply Bytes.readWord_congr
    intro i hi
    rw [Nat.add_assoc]
    exact h (a + i) (by omega)
  refine ⟨?_, congrArg BitVec.toNat (hword 16 (by decide)),
    congrArg BitVec.toNat (hword 24 (by decide)), congrArg BitVec.toNat (hword 32 (by decide))⟩
  unfold KHeap.signed
  rw [Bool.eq_iff_iff, List.all_eq_true, List.all_eq_true]
  refine forall₂_congr fun i hi => ?_
  rw [h i (Nat.lt_trans (List.mem_range.mp hi) (by decide))]

theorem newHeader_writes (k : KHeap) (hdr size : Nat) :
    Ram.WritesIn k.ram (k.newHeader hdr size).ram ⟨hdr, allocHdrSize⟩ := by
  have hin (a n : Nat) (h : a + n ≤ 40) : Span.Inside ⟨hdr + a, n⟩ ⟨hdr, allocHdrSize⟩ :=
    ⟨Nat.le_add_right hdr a, by change hdr + a + n ≤ hdr + 40; omega⟩
  have hsig := (Ram.store_writes k.ram hdr 10 fun i => ALLOC_HDR_SIG.getD i 0).mono
    (hin 0 10 (by decide))
  have hsize := hsig.trans ((Ram.writeWord_writes _ (hdr + 16) (BitVec.ofNat 64 size)).mono
    (hin 16 8 (by decide)))
  have hnxt := hsize.trans ((Ram.writeWord_writes _ (hdr + 24) 0).mono (hin 24 8 (by decide)))
  exact hnxt.trans ((Ram.writeWord_writes _ (hdr + 32) 0).mono (hin 32 8 (by decide)))

theorem newHeader_signed (k : KHeap) (hdr size : Nat) :
    (k.newHeader hdr size).signed hdr = true := by
  unfold KHeap.signed
  rw [List.all_eq_true]
  intro i hi
  have hi := List.mem_range.mp hi
  rw [beq_iff_eq]
  unfold newHeader
  dsimp only
  rw [Ram.writeWord_bytes, Bytes.writeWord_other _ _ _ (by omega), Ram.writeWord_bytes,
    Bytes.writeWord_other _ _ _ (by omega), Ram.writeWord_bytes,
    Bytes.writeWord_other _ _ _ (by omega)]
  change (if hdr ≤ hdr + i ∧ hdr + i < hdr + 10 then ALLOC_HDR_SIG.getD (hdr + i - hdr) 0
    else _) = _
  rw [if_pos (by omega), Nat.add_sub_cancel_left]

theorem newHeader_size (k : KHeap) (hdr : Nat) {size : Nat} (h : size < 2 ^ 64) :
    (k.newHeader hdr size).size hdr = size := by
  unfold KHeap.size newHeader
  dsimp only
  rw [Ram.writeWord_bytes, Bytes.readWord_writeWord_apart _ _ (by omega), Ram.writeWord_bytes,
    Bytes.readWord_writeWord_apart _ _ (by omega), Ram.writeWord_bytes, Bytes.readWord_writeWord,
    BitVec.toNat_ofNat, Nat.mod_eq_of_lt h]

theorem newHeader_nxt (k : KHeap) (hdr size : Nat) : (k.newHeader hdr size).nxt hdr = 0 := by
  unfold KHeap.nxt newHeader
  dsimp only
  rw [Ram.writeWord_bytes, Bytes.readWord_writeWord_apart _ _ (by omega), Ram.writeWord_bytes,
    Bytes.readWord_writeWord]
  rfl

theorem newHeader_prev (k : KHeap) (hdr size : Nat) : (k.newHeader hdr size).prev hdr = 0 := by
  unfold KHeap.prev newHeader
  dsimp only
  rw [Ram.writeWord_bytes, Bytes.readWord_writeWord]
  rfl

-- A new block takes nothing from the blocks that there are.
theorem kmalloc_bytes {k : KHeap} {size : Nat} {s : Span} {fresh : Bytes}
    (hans : k.Answers size (some (s, fresh))) {t : Span} (ht : t ∈ k.live) {x : Nat}
    (hx : Span.Mem x t) :
    (k.kmalloc size (some (s, fresh))).2.ram.bytes x = k.ram.bytes x := by
  obtain ⟨-, -, -, -, hapart⟩ := hans s fresh rfl
  have hsize : 40 ≤ s.size := hans.hdr_le
  have hout : ¬ Span.Mem x s := fun hmem => hapart t ht x hmem hx
  have hkept := (newHeader_writes (k.mapPages s fresh) s.base size).kept x fun hmem =>
    hout ⟨hmem.1, Nat.lt_of_lt_of_le hmem.2 (Nat.add_le_add_left hsize _)⟩
  exact hkept.trans (if_neg hout)

-- A round at a header that can be read and has a signature.
theorem kfreeLoop_succ {fuel : Nat} {k : KHeap} {hdr : Nat} (hpos : hdr ≠ 0)
    (hmapped : k.mapped hdr = true) (hsigned : k.signed hdr = true) :
    kfreeLoop (fuel + 1) k hdr =
      kfreeLoop fuel ({ k with events := k.events ++ [HeapEvent.read hdr] }.avmfFree hdr) (k.nxt hdr) := by
  rw [kfreeLoop, if_neg hpos, hmapped, Bool.not_true, if_neg nofun]
  change (if !k.signed hdr then _ else _) = _
  rw [hsigned, Bool.not_true, if_neg nofun]
  rfl

theorem kfreeLoop_ram {fuel : Nat} {k k' : KHeap} {hdr : Nat}
    (h : kfreeLoop fuel k hdr = some k') : k'.ram = k.ram := by
  induction fuel generalizing k hdr with
  | zero => cases h
  | succ fuel ih =>
      unfold kfreeLoop at h
      split at h
      · rw [← Option.some.inj h]
      · split at h
        · cases h
        · dsimp only at h
          split at h
          · rw [← Option.some.inj h]
          · exact (ih h).trans rfl

theorem kfreeLoop_inv {fuel : Nat} {k k' : KHeap} {hdr : Nat} (h : Inv k)
    (hrun : kfreeLoop fuel k hdr = some k') : Inv k' := by
  induction fuel generalizing k hdr with
  | zero => cases hrun
  | succ fuel ih =>
      unfold kfreeLoop at hrun
      split at hrun
      · exact Option.some.inj hrun ▸ h
      · split at hrun
        · cases hrun
        · have hread := h.events (k.events ++ [.read hdr])
          dsimp only at hrun
          split at hrun
          · exact Option.some.inj hrun ▸ hread
          · exact ih (hread.avmfFree hdr) hrun

end KHeap

-- Before the first kmalloc.
def emptyHeap : KHeap := ⟨⟨fun _ => 0, []⟩, [], []⟩

-- An answer of pages that hold zeros.
def zeroPages (base size : Nat) : PagesAnswer := some (⟨base, size⟩, fun _ => 0)

end AosKernel.Core
