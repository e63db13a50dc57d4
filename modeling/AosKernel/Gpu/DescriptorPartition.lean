import Mathlib.Data.Nat.ModEq
import Mathlib.Data.List.Forall2
import Mathlib.Data.List.Perm.Basic
import AosKernel.Lib.Links
import AosKernel.Lib.Trace
import AosKernel.Gpu.Virtqueue

namespace AosKernel.Gpu

open Verif

namespace Virtqueue

-- The queue virtio_setup_queues makes. Its memory is zeroed, and every
-- descriptor is on the free list, in order.
def setupQueues (size : Nat) : Virtqueue where
  desc i := ⟨0, 0, 0, if i + 1 = size then noDesc else i + 1⟩
  availRing _ := 0
  availIdx := 0
  usedRing _ := 0
  usedIdx := 0
  queueSize := size
  freeHead := 0
  lastUsedIdx := 0

-- A `next` field as a link: 0xFFFF ends the free list.
def linkOf (next : Nat) : Option Nat := if next = noDesc then none else some next

def freeNext (vq : Virtqueue) (d : Nat) : Option Nat := linkOf (vq.desc d).next

-- A chain goes on after a descriptor that has the flag, and only there.
def chainNext (vq : Virtqueue) (d : Nat) : Option Nat :=
  if (vq.desc d).flags &&& VIRTQ_DESC_F_NEXT ≠ 0 then some (vq.desc d).next else none

-- The list `free_head` leads to ends with 0xFFFF after the elements given.
def FreeList (vq : Virtqueue) (l : List Nat) : Prop :=
  Links vq.freeNext (linkOf vq.freeHead) l none

def ChainFrom (vq : Virtqueue) (head : Nat) (l : List Nat) : Prop :=
  Links vq.chainNext (some head) l none

-- At most `turns` elements of the free list from descriptor `d` on.
def freeFrom (vq : Virtqueue) : Nat → Nat → List Nat
  | 0, _ => []
  | turns + 1, d => if d = noDesc then [] else d :: vq.freeFrom turns (vq.desc d).next

def freeList (vq : Virtqueue) : List Nat := vq.freeFrom vq.queueSize vq.freeHead

def pendingCount (vq : Virtqueue) : Nat := (vq.usedIdx + 2 ^ 16 - vq.lastUsedIdx) % 2 ^ 16

-- Where the used ring has the element that was put there at index `idx`.
def usedSlot (vq : Virtqueue) (idx : Nat) : Nat := idx % 2 ^ 16 % vq.queueSize

-- The heads of the chains that are completed and not processed, oldest first.
def pendingHeads (vq : Virtqueue) : List Nat :=
  (List.range vq.pendingCount).map fun j => vq.usedRing (vq.usedSlot (vq.lastUsedIdx + j))

section Lists

variable {vq vq' : Virtqueue} {c d head : Nat} {l free chain : List Nat}

theorem linkOf_of_ne (h : d ≠ noDesc) : linkOf d = some d := if_neg h

theorem linkOf_eq_some : linkOf d = some c ↔ d = c ∧ d ≠ noDesc := by
  unfold linkOf
  split <;> rename_i h
  · simp [h]
  · simp [h]

theorem freeList_nil_iff : FreeList vq [] ↔ vq.freeHead = noDesc := by
  simp [FreeList, linkOf]

theorem FreeList.cons_inv (h : FreeList vq (d :: free)) :
    vq.freeHead = d ∧ d ≠ noDesc ∧ Links vq.freeNext (vq.freeNext d) free none := by
  obtain ⟨hhead, hrest⟩ := h
  obtain ⟨rfl, hne⟩ := linkOf_eq_some.mp hhead
  exact ⟨rfl, hne, hrest⟩

-- Where only other descriptors are written, the list is still there.
theorem FreeList.congr (h : FreeList vq free) (hhead : vq'.freeHead = vq.freeHead)
    (hdesc : ∀ d ∈ free, vq'.desc d = vq.desc d) : FreeList vq' free := by
  unfold FreeList
  rw [hhead]
  exact Links.congr (fun d hd => by rw [freeNext, freeNext, hdesc d hd]) h

theorem ChainFrom.congr (h : ChainFrom vq head chain)
    (hdesc : ∀ d ∈ chain, vq'.desc d = vq.desc d) : ChainFrom vq' head chain :=
  Links.congr (fun d hd => by rw [chainNext, chainNext, hdesc d hd]) h

theorem ChainFrom.head_mem (h : ChainFrom vq head chain) : head ∈ chain := by
  cases chain with
  | nil => cases h
  | cons d chain =>
      obtain ⟨hd, -⟩ := h
      cases hd
      exact List.mem_cons_self

-- A chain goes on from its head where the flag is.
theorem ChainFrom.cons_inv (h : ChainFrom vq head (d :: l)) (hl : l ≠ []) :
    d = head ∧ (vq.desc head).flags &&& VIRTQ_DESC_F_NEXT ≠ 0 ∧
      ChainFrom vq (vq.desc head).next l := by
  obtain ⟨hhead, hrest⟩ := h
  cases hhead
  by_cases hflag : (vq.desc d).flags &&& VIRTQ_DESC_F_NEXT ≠ 0
  · rw [chainNext, if_pos hflag] at hrest
    exact ⟨rfl, hflag, hrest⟩
  · rw [chainNext, if_neg hflag] at hrest
    cases l with
    | nil => exact absurd rfl hl
    | cons c l => cases hrest.1

theorem chainFrom_unique : Relator.RightUnique vq.ChainFrom :=
  fun _ _ _ => Links.unique

theorem chains_congr {heads : List Nat} {chains : List (List Nat)}
    (h : List.Forall₂ vq.ChainFrom heads chains)
    (hdesc : ∀ d ∈ chains.flatten, vq'.desc d = vq.desc d) :
    List.Forall₂ vq'.ChainFrom heads chains := by
  induction h with
  | nil => exact .nil
  | cons hchain _ ih =>
      rw [List.flatten_cons, List.forall_mem_append] at hdesc
      exact .cons (hchain.congr hdesc.1) (ih hdesc.2)

-- Chains that share no descriptor have different heads.
theorem heads_nodup {heads : List Nat} {chains : List (List Nat)}
    (h : List.Forall₂ vq.ChainFrom heads chains) (hnodup : chains.flatten.Nodup) :
    heads.Sublist chains.flatten ∧ heads.Nodup := by
  have hsub : heads.Sublist chains.flatten := by
    clear hnodup
    induction h with
    | nil => exact .slnil
    | cons hchain _ ih =>
        rw [List.flatten_cons]
        exact (List.singleton_sublist.mpr hchain.head_mem).append ih
  exact ⟨hsub, hnodup.sublist hsub⟩

theorem freeFrom_of_links {turns : Nat} (h : Links vq.freeNext (linkOf d) l none)
    (hlen : l.length ≤ turns) : vq.freeFrom turns d = l := by
  induction l generalizing d turns with
  | nil =>
      have hd : d = noDesc := by simpa [linkOf] using h
      cases turns with
      | zero => rfl
      | succ turns => exact if_pos hd
  | cons a l ih =>
      obtain ⟨hd, hrest⟩ := h
      obtain ⟨rfl, hne⟩ := linkOf_eq_some.mp hd
      cases turns with
      | zero => simp at hlen
      | succ turns =>
          rw [freeFrom, if_neg hne, ih hrest (Nat.le_of_succ_le_succ hlen)]

theorem FreeList.eq_freeList (h : FreeList vq free) (hlen : free.length ≤ vq.queueSize) :
    vq.freeList = free :=
  freeFrom_of_links h hlen

-- The last of a chain is found by following its links.
theorem chainTail_of_chain {turns tail : Nat} {front : List Nat}
    (h : ChainFrom vq head (front ++ [tail])) (hlen : front.length ≤ turns) :
    vq.chainTail turns head = tail := by
  induction front generalizing head turns with
  | nil =>
      obtain ⟨hhead, hend⟩ := h
      cases hhead
      cases turns with
      | zero => rfl
      | succ turns =>
          rw [chainTail, if_neg]
          intro hflag
          simp [chainNext, hflag] at hend
  | cons a front ih =>
      obtain ⟨rfl, hflag, hrest⟩ := h.cons_inv (by simp)
      cases turns with
      | zero => simp at hlen
      | succ turns =>
          rw [chainTail, if_pos hflag]
          exact ih hrest (Nat.le_of_succ_le_succ hlen)

-- The links of a chain before its last are those of a free list.
theorem ChainFrom.free_links {tail : Nat} {stop : Option Nat} {front : List Nat}
    (h : ChainFrom vq head (front ++ [tail])) (hne : ∀ d ∈ front ++ [tail], d ≠ noDesc)
    (hdesc : ∀ d ∈ front, vq'.desc d = vq.desc d) (htail : vq'.freeNext tail = stop) :
    Links vq'.freeNext (some head) (front ++ [tail]) stop := by
  induction front generalizing head with
  | nil =>
      obtain ⟨hhead, -⟩ := h
      exact ⟨hhead, htail⟩
  | cons a front ih =>
      obtain ⟨rfl, -, hrest⟩ := h.cons_inv (by simp)
      refine ⟨rfl, ?_⟩
      have hnext : (vq.desc a).next ≠ noDesc := hne _ (List.mem_cons_of_mem _ hrest.head_mem)
      rw [freeNext, hdesc a List.mem_cons_self, linkOf_of_ne hnext]
      exact ih hrest (fun d hd => hne d (List.mem_cons_of_mem _ hd))
        (fun d hd => hdesc d (List.mem_cons_of_mem _ hd))

end Lists

section Send

variable {vq : Virtqueue} {c : Nat} {free : List Nat} {descs : List VirtqDesc}

theorem clearNext_flag (flags : Nat) :
    (if flags &&& VIRTQ_DESC_F_NEXT ≠ 0 then flags ^^^ VIRTQ_DESC_F_NEXT else flags) &&&
      VIRTQ_DESC_F_NEXT = 0 := by
  split
  · rename_i h
    have hbit : flags &&& VIRTQ_DESC_F_NEXT = VIRTQ_DESC_F_NEXT := by
      rw [VIRTQ_DESC_F_NEXT, Nat.and_one_is_mod] at h ⊢
      omega
    rw [Nat.and_xor_distrib_right, hbit, Nat.and_self, Nat.xor_self]
  · rename_i h
    exact not_not.mp h

theorem setNext_flag (flags : Nat) :
    (flags ||| VIRTQ_DESC_F_NEXT) &&& VIRTQ_DESC_F_NEXT ≠ 0 := by
  rw [Nat.and_or_distrib_right, Nat.and_self]
  intro h
  have hor := Nat.or_eq_zero_iff.mp h
  exact absurd hor.2 (by decide)

-- A turn of the loop of virtio_send_ex that takes the next descriptor.
def linkTurn (vq : Virtqueue) (c : Nat) (d : VirtqDesc) : Virtqueue :=
  { vq.setDesc c d with freeHead := ((vq.setDesc c d).desc vq.freeHead).next }.setDesc c
    { d with flags := d.flags ||| VIRTQ_DESC_F_NEXT, next := vq.freeHead }

theorem fillChain_cons {d d' : VirtqDesc} {rest : List VirtqDesc} (h : vq.freeHead ≠ noDesc) :
    vq.fillChain c (d :: d' :: rest) = (vq.linkTurn c d).fillChain vq.freeHead (d' :: rest) := by
  simp only [fillChain]
  exact if_neg h

theorem fillChain_cons_empty {d d' : VirtqDesc} {rest : List VirtqDesc}
    (h : vq.freeHead = noDesc) :
    vq.fillChain c (d :: d' :: rest) = (vq.setDesc c d, false) := by
  simp only [fillChain]
  exact if_pos h

theorem linkTurn_desc_of_ne (d : VirtqDesc) {i : Nat} (hi : i ≠ c) :
    (vq.linkTurn c d).desc i = vq.desc i := by
  simp only [linkTurn, setDesc, Function.update_of_ne hi]

theorem linkTurn_chainNext (d : VirtqDesc) :
    (vq.linkTurn c d).chainNext c = some vq.freeHead := by
  simp only [chainNext, linkTurn, setDesc, Function.update_self]
  exact if_pos (setNext_flag _)

theorem linkTurn_freeList {f : Nat} (d : VirtqDesc) (hfree : FreeList vq (f :: free))
    (hc : c ∉ f :: free) : FreeList (vq.linkTurn c d) free := by
  obtain ⟨rfl, -, hlinks⟩ := hfree.cons_inv
  obtain ⟨hf, hrest⟩ := not_or.mp (List.mem_cons.not.mp hc)
  have hhead : (vq.linkTurn c d).freeHead = (vq.desc vq.freeHead).next := by
    simp only [linkTurn, setDesc, Function.update_of_ne (Ne.symm hf)]
  unfold FreeList
  rw [hhead]
  refine Links.congr (fun i hi => ?_) hlinks
  rw [freeNext, freeNext, linkTurn_desc_of_ne d (ne_of_mem_of_not_mem hi hrest)]

-- With enough descriptors on the free list the chain is made of the first.
theorem fillChain_fits (hfree : FreeList vq free) (hnodup : (c :: free).Nodup)
    (hne : descs ≠ []) (hlen : descs.length ≤ free.length + 1) :
    (vq.fillChain c descs).2 = true ∧
      FreeList (vq.fillChain c descs).1 (free.drop (descs.length - 1)) ∧
      ChainFrom (vq.fillChain c descs).1 c (c :: free.take (descs.length - 1)) ∧
      ∀ d, d ∉ c :: free.take (descs.length - 1) →
        (vq.fillChain c descs).1.desc d = vq.desc d := by
  induction descs generalizing vq c free with
  | nil => exact absurd rfl hne
  | cons d rest ih =>
      obtain ⟨hc, hrest⟩ := List.nodup_cons.mp hnodup
      cases rest with
      | nil =>
          have hothers : ∀ i, i ≠ c → (vq.fillChain c [d]).1.desc i = vq.desc i :=
            fun i hi => Function.update_of_ne hi ..
          refine ⟨rfl, ?_, ⟨rfl, ?_⟩, ?_⟩
          · exact hfree.congr rfl fun i hi => hothers i (ne_of_mem_of_not_mem hi hc)
          · simp only [chainNext, fillChain, setDesc, Function.update_self, List.length_singleton,
              Nat.sub_self, List.take_zero, Links.nil_iff]
            exact if_neg (not_not.mpr (clearNext_flag _))
          · intro i hi
            exact hothers i (by simpa using hi)
      | cons d' rest =>
          cases free with
          | nil => simp at hlen
          | cons f free =>
              obtain ⟨rfl, hf, -⟩ := hfree.cons_inv
              rw [fillChain_cons hf]
              obtain ⟨hsent, hleft, hchain, hkeep⟩ :=
                ih (linkTurn_freeList d hfree hc) hrest (by simp) (Nat.le_of_succ_le_succ hlen)
              simp only [List.length_cons, Nat.add_sub_cancel] at hleft hchain hkeep ⊢
              rw [List.take_succ_cons]
              have hself : c ∉ vq.freeHead :: free.take rest.length :=
                fun h => hc (List.take_subset _ (vq.freeHead :: free) (by
                  rwa [← List.take_succ_cons] at h))
              refine ⟨hsent, hleft, ⟨rfl, ?_⟩, ?_⟩
              · rw [chainNext, hkeep c hself]
                change Links _ ((vq.linkTurn c d).chainNext c) _ none
                rw [linkTurn_chainNext]
                exact hchain
              · intro i hi
                obtain ⟨hic, hi⟩ := not_or.mp (List.mem_cons.not.mp hi)
                rw [hkeep i hi, linkTurn_desc_of_ne d hic]

-- With too few the list is used up, and the chain is not sent.
theorem fillChain_short (hfree : FreeList vq free) (hnodup : (c :: free).Nodup)
    (hlen : free.length + 1 < descs.length) :
    (vq.fillChain c descs).2 = false ∧ (vq.fillChain c descs).1.freeHead = noDesc ∧
      ∀ d, d ∉ c :: free → (vq.fillChain c descs).1.desc d = vq.desc d := by
  induction descs generalizing vq c free with
  | nil => simp at hlen
  | cons d rest ih =>
      obtain ⟨hc, hrest⟩ := List.nodup_cons.mp hnodup
      cases rest with
      | nil => simp at hlen
      | cons d' rest =>
          cases free with
          | nil =>
              have hhead := freeList_nil_iff.mp hfree
              rw [fillChain_cons_empty hhead]
              refine ⟨rfl, hhead, fun i hi => ?_⟩
              exact Function.update_of_ne (by simpa using hi) ..
          | cons f free =>
              obtain ⟨rfl, hf, -⟩ := hfree.cons_inv
              rw [fillChain_cons hf]
              obtain ⟨hsent, hhead, hkeep⟩ :=
                ih (linkTurn_freeList d hfree hc) hrest (Nat.lt_of_succ_lt_succ hlen)
              refine ⟨hsent, hhead, fun i hi => ?_⟩
              obtain ⟨hic, hi⟩ := not_or.mp (List.mem_cons.not.mp hi)
              rw [hkeep i hi, linkTurn_desc_of_ne d hic]

theorem fillChain_usedRing (vq : Virtqueue) (c : Nat) (descs : List VirtqDesc) :
    (vq.fillChain c descs).1.usedRing = vq.usedRing := by
  induction descs generalizing vq c with
  | nil => rfl
  | cons d rest ih =>
      cases rest with
      | nil => rfl
      | cons d' rest =>
          by_cases hhead : vq.freeHead = noDesc
          · rw [fillChain_cons_empty hhead]
            rfl
          · rw [fillChain_cons hhead, ih]
            rfl

-- virtio_send_ex once a head is taken off the free list.
theorem sendEx_eq (descs : List VirtqDesc) (h : vq.freeHead ≠ noDesc) :
    ((vq.sendEx descs).2 = none ∨ (vq.sendEx descs).2 = some vq.freeHead) ∧
      ((vq.sendEx descs).2 = none ↔
        ({ vq with freeHead := (vq.desc vq.freeHead).next }.fillChain vq.freeHead descs).2 =
          false) ∧
      (vq.sendEx descs).1.desc =
        ({ vq with freeHead := (vq.desc vq.freeHead).next }.fillChain vq.freeHead descs).1.desc ∧
      (vq.sendEx descs).1.freeHead =
        ({ vq with freeHead := (vq.desc vq.freeHead).next }.fillChain vq.freeHead descs).1.freeHead := by
  cases hsent : ({ vq with freeHead := (vq.desc vq.freeHead).next }.fillChain
      vq.freeHead descs).2 with
  | false => simp [sendEx, h, hsent]
  | true => simp [sendEx, h, hsent]

-- The driver's side of the used ring is left alone.
theorem sendEx_pending (vq : Virtqueue) (descs : List VirtqDesc) :
    (vq.sendEx descs).1.queueSize = vq.queueSize ∧
      (vq.sendEx descs).1.pendingHeads = vq.pendingHeads := by
  have hframe := fillChain_frame { vq with freeHead := (vq.desc vq.freeHead).next } vq.freeHead descs
  have hring := fillChain_usedRing { vq with freeHead := (vq.desc vq.freeHead).next }
    vq.freeHead descs
  have hsame : (vq.sendEx descs).1.queueSize = vq.queueSize ∧
      (vq.sendEx descs).1.usedRing = vq.usedRing := by
    simp only [sendEx]
    split
    · exact ⟨rfl, rfl⟩
    · split
      · exact ⟨hframe.2.2.2.2, hring⟩
      · exact ⟨hframe.2.2.2.2, hring⟩
  obtain ⟨hsize, hring⟩ := hsame
  obtain ⟨hused, hlast⟩ := sendEx_used vq descs
  refine ⟨hsize, ?_⟩
  simp only [pendingHeads, pendingCount, usedSlot, hsize, hring, hused, hlast]

theorem sendEx_fits {head : Nat} (hfree : FreeList vq (head :: free))
    (hnodup : (head :: free).Nodup) (hne : descs ≠ []) (hlen : descs.length ≤ free.length + 1) :
    (vq.sendEx descs).2 = some head ∧
      FreeList (vq.sendEx descs).1 (free.drop (descs.length - 1)) ∧
      ChainFrom (vq.sendEx descs).1 head (head :: free.take (descs.length - 1)) ∧
      ∀ d, d ∉ head :: free.take (descs.length - 1) →
        (vq.sendEx descs).1.desc d = vq.desc d := by
  obtain ⟨rfl, hhead, hlinks⟩ := hfree.cons_inv
  have htaken : FreeList { vq with freeHead := (vq.desc vq.freeHead).next } free := hlinks
  obtain ⟨hsent, hleft, hchain, hkeep⟩ := fillChain_fits htaken hnodup hne hlen
  obtain ⟨hresult, hnone, hdesc, hfreeHead⟩ := sendEx_eq descs hhead
  have hdesc' : ∀ d, (vq.sendEx descs).1.desc d =
      ({ vq with freeHead := (vq.desc vq.freeHead).next }.fillChain vq.freeHead descs).1.desc d :=
    congrFun hdesc
  refine ⟨hresult.resolve_left ?_, hleft.congr hfreeHead fun d _ => hdesc' d,
    hchain.congr fun d _ => hdesc' d, fun d hd => (hdesc' d).trans (hkeep d hd)⟩
  rw [hnone, hsent]
  exact Bool.noConfusion

-- A list too short for the chain is lost.
theorem sendEx_short (hfree : FreeList vq free) (hnodup : free.Nodup)
    (hlen : free.length < descs.length) :
    (vq.sendEx descs).2 = none ∧ FreeList (vq.sendEx descs).1 [] ∧
      ∀ d, d ∉ free → (vq.sendEx descs).1.desc d = vq.desc d := by
  cases free with
  | nil =>
      have hhead := freeList_nil_iff.mp hfree
      rw [sendEx, if_pos hhead]
      exact ⟨rfl, hfree, fun _ _ => rfl⟩
  | cons head free =>
      obtain ⟨rfl, hhead, hlinks⟩ := hfree.cons_inv
      have htaken : FreeList { vq with freeHead := (vq.desc vq.freeHead).next } free := hlinks
      obtain ⟨hsent, hempty, hkeep⟩ := fillChain_short htaken hnodup hlen
      obtain ⟨-, hnone, hdesc, hfreeHead⟩ := sendEx_eq descs hhead
      exact ⟨hnone.mpr hsent, freeList_nil_iff.mpr (hfreeHead.trans hempty),
        fun d hd => (congrFun hdesc d).trans (hkeep d hd)⟩

end Send

section UsedRing

variable {vq : Virtqueue} {head : Nat}

-- The element at the device's index is none that the driver has still to take.
def HasRoom (vq : Virtqueue) : Prop :=
  ∀ j < vq.pendingCount, vq.usedSlot (vq.lastUsedIdx + j) ≠ vq.usedSlot vq.usedIdx

theorem usedSlot_pendingCount (hused : vq.usedIdx < 2 ^ 16) (hlast : vq.lastUsedIdx < 2 ^ 16) :
    vq.usedSlot (vq.lastUsedIdx + vq.pendingCount) = vq.usedSlot vq.usedIdx := by
  have h : (vq.lastUsedIdx + vq.pendingCount) % 2 ^ 16 = vq.usedIdx % 2 ^ 16 := by
    unfold pendingCount
    omega
  rw [usedSlot, h, usedSlot]

theorem complete_pendingCount (hused : vq.usedIdx < 2 ^ 16) (hlast : vq.lastUsedIdx < 2 ^ 16)
    (hcount : vq.pendingCount + 1 < 2 ^ 16) :
    (vq.complete head).pendingCount = vq.pendingCount + 1 := by
  simp only [pendingCount, complete, nextIdx] at hcount ⊢
  omega

theorem complete_pendingHeads (hused : vq.usedIdx < 2 ^ 16) (hlast : vq.lastUsedIdx < 2 ^ 16)
    (hcount : vq.pendingCount + 1 < 2 ^ 16) :
    (vq.complete head).pendingHeads =
      (List.range vq.pendingCount).map (fun j =>
        if vq.usedSlot (vq.lastUsedIdx + j) = vq.usedSlot vq.usedIdx then head
        else vq.usedRing (vq.usedSlot (vq.lastUsedIdx + j))) ++ [head] := by
  have hring : ∀ j, (vq.complete head).usedRing ((vq.complete head).usedSlot
      ((vq.complete head).lastUsedIdx + j)) =
      if vq.usedSlot (vq.lastUsedIdx + j) = vq.usedSlot vq.usedIdx then head
      else vq.usedRing (vq.usedSlot (vq.lastUsedIdx + j)) := by
    intro j
    have hslot : vq.usedIdx % vq.queueSize = vq.usedSlot vq.usedIdx := by
      rw [usedSlot, Nat.mod_eq_of_lt hused]
    simp only [complete, hslot, Function.update_apply]
    rfl
  simp only [pendingHeads, complete_pendingCount hused hlast hcount, List.range_succ, List.map_append,
    List.map_singleton, hring, usedSlot_pendingCount hused hlast, if_true]

theorem complete_of_room (hused : vq.usedIdx < 2 ^ 16) (hlast : vq.lastUsedIdx < 2 ^ 16)
    (hcount : vq.pendingCount + 1 < 2 ^ 16) (hroom : vq.HasRoom) :
    (vq.complete head).pendingHeads = vq.pendingHeads ++ [head] := by
  rw [complete_pendingHeads hused hlast hcount]
  refine congrArg (· ++ [head]) (List.map_congr_left fun j hj => ?_)
  exact if_neg (hroom j (List.mem_range.mp hj))

-- Otherwise an element is lost, and the new one is there twice.
theorem complete_of_no_room (hused : vq.usedIdx < 2 ^ 16) (hlast : vq.lastUsedIdx < 2 ^ 16)
    (hcount : vq.pendingCount + 1 < 2 ^ 16) (hroom : ¬ vq.HasRoom) :
    ¬ (vq.complete head).pendingHeads.Nodup := by
  simp only [HasRoom, not_forall, not_not, exists_prop] at hroom
  obtain ⟨j, hj, hslot⟩ := hroom
  rw [complete_pendingHeads hused hlast hcount]
  intro hnodup
  have hdisjoint := (List.nodup_append.mp hnodup).2.2
  refine hdisjoint head (List.mem_map.mpr ⟨j, List.mem_range.mpr hj, ?_⟩) head (by simp) rfl
  exact if_pos hslot

-- The indices are 16 bits wide: if the size of the queue is a power of two, the
-- ring has room for as many elements.
theorem hasRoom_of_dvd (hsize : vq.queueSize ∣ 2 ^ 16) (hused : vq.usedIdx < 2 ^ 16)
    (hlast : vq.lastUsedIdx < 2 ^ 16) (hcount : vq.pendingCount < vq.queueSize) : vq.HasRoom := by
  intro j hj hslot
  rw [← usedSlot_pendingCount hused hlast] at hslot
  simp only [usedSlot, Nat.mod_mod_of_dvd _ hsize] at hslot
  have heq : Nat.ModEq vq.queueSize j vq.pendingCount := Nat.ModEq.add_left_cancel' _ hslot
  rw [Nat.ModEq, Nat.mod_eq_of_lt (by omega), Nat.mod_eq_of_lt hcount] at heq
  omega

theorem retireOne_pendingHeads (hused : vq.usedIdx < 2 ^ 16) (hlast : vq.lastUsedIdx < 2 ^ 16)
    (hne : vq.lastUsedIdx ≠ vq.usedIdx) :
    vq.pendingHeads = vq.usedRing (vq.lastUsedIdx % vq.queueSize) :: vq.retireOne.pendingHeads := by
  have hcount : vq.pendingCount = vq.retireOne.pendingCount + 1 := by
    simp only [pendingCount, retireOne, setDesc, nextIdx]
    omega
  have hslot : ∀ j, vq.usedSlot (vq.lastUsedIdx + (j + 1)) =
      vq.retireOne.usedSlot (vq.retireOne.lastUsedIdx + j) := by
    intro j
    have h : (vq.lastUsedIdx + (j + 1)) % 2 ^ 16 = (nextIdx vq.lastUsedIdx + j) % 2 ^ 16 := by
      unfold nextIdx
      omega
    rw [usedSlot, h]
    rfl
  rw [pendingHeads, hcount, List.range_succ_eq_map, List.map_cons, List.map_map]
  refine congrArg₂ _ ?_ (List.map_congr_left fun j _ => ?_)
  · rw [usedSlot, Nat.add_zero, Nat.mod_eq_of_lt hlast]
  · exact congrArg vq.usedRing (hslot j)

end UsedRing

end Virtqueue

-- The queue between the driver and the device, with the heads of the chains
-- that the device has not yet returned.
structure DescUse where
  virtq : Virtqueue
  inFlight : List Nat

namespace DescUse

def setupQueues (size : Nat) : DescUse := ⟨Virtqueue.setupQueues size, []⟩

inductive Action where
  | send (descs : List VirtqDesc)
  | complete (head : Nat)
  | retire

-- The driver sends a chain, the device returns one it has not returned before,
-- or the driver takes a turn of the loop over the used ring.
inductive Step (s : DescUse) : Action → DescUse → Prop
  | send {descs} : descs ≠ [] → Step s (.send descs)
      ⟨(s.virtq.sendEx descs).1, s.inFlight ++ (s.virtq.sendEx descs).2.toList⟩
  | complete {head} : head ∈ s.inFlight → Step s (.complete head)
      ⟨s.virtq.complete head, s.inFlight.erase head⟩
  | retire : s.virtq.lastUsedIdx ≠ s.virtq.usedIdx → Step s .retire
      ⟨s.virtq.retireOne, s.inFlight⟩

-- Every descriptor is on the free list or in one of the chains, and only once.
def Partition (s : DescUse) : Prop :=
  ∃ free flying returned, s.virtq.FreeList free ∧
    List.Forall₂ s.virtq.ChainFrom s.inFlight flying ∧
    List.Forall₂ s.virtq.ChainFrom s.virtq.pendingHeads returned ∧
    (free ++ flying.flatten ++ returned.flatten).Perm (List.range s.virtq.queueSize)

-- A send that fails has not touched the free list.
def FailKeeps (s : DescUse) : Action → Prop
  | .send descs => (s.virtq.sendEx descs).2 = none →
      (s.virtq.sendEx descs).1.freeList = s.virtq.freeList
  | _ => True

-- A send finds no descriptor or all it needs; what the device returns finds
-- room in the used ring.
def Fits (s : DescUse) : Action → Prop
  | .send descs => s.virtq.freeHead = noDesc ∨ descs.length ≤ s.virtq.freeList.length
  | .complete _ => s.virtq.HasRoom
  | .retire => True

-- The indices fit their fields, and no descriptor has the number 0xFFFF.
structure Sized (s : DescUse) : Prop where
  queueSize : s.virtq.queueSize < 2 ^ 16
  usedIdx : s.virtq.usedIdx < 2 ^ 16
  lastUsedIdx : s.virtq.lastUsedIdx < 2 ^ 16

section Steps

variable {s t : DescUse} {i : Action} {descs : List VirtqDesc} {head : Nat}

theorem Sized.step (h : Sized s) (hs : Step s i t) : Sized t := by
  cases hs with
  | @send descs hne =>
      obtain ⟨hused, hlast⟩ := s.virtq.sendEx_used descs
      exact ⟨by rw [(s.virtq.sendEx_pending descs).1]; exact h.queueSize,
        by rw [hused]; exact h.usedIdx, by rw [hlast]; exact h.lastUsedIdx⟩
  | complete hhead => exact ⟨h.queueSize, Virtqueue.nextIdx_lt _, h.lastUsedIdx⟩
  | retire hne => exact ⟨h.queueSize, h.usedIdx, Virtqueue.nextIdx_lt _⟩

-- The descriptors on the free list are those the executable walk finds.
theorem Partition.freeList_eq {free : List Nat} (h : Partition s)
    (hfree : s.virtq.FreeList free) : s.virtq.freeList = free := by
  obtain ⟨free', flying, returned, hfree', -, -, hperm⟩ := h
  obtain rfl := Links.unique hfree hfree'
  refine hfree.eq_freeList ?_
  have hlen := hperm.length_eq
  simp only [List.length_append, List.length_range] at hlen
  omega

theorem Partition.send_fits (h : Partition s) (hne : descs ≠ [])
    (hfits : Fits s (.send descs)) :
    Partition ⟨(s.virtq.sendEx descs).1, s.inFlight ++ (s.virtq.sendEx descs).2.toList⟩ ∧
      FailKeeps s (.send descs) := by
  obtain ⟨free, flying, returned, hfree, hflying, hreturned, hperm⟩ := id h
  obtain ⟨hsize, hpending⟩ := s.virtq.sendEx_pending descs
  by_cases hhead : s.virtq.freeHead = noDesc
  · have hsame : s.virtq.sendEx descs = (s.virtq, none) := if_pos hhead
    simp only [FailKeeps, hsame, Option.toList_none, List.append_nil]
    exact ⟨h, fun _ => trivial⟩
  · have hlen : descs.length ≤ free.length := by
      rw [← h.freeList_eq hfree]
      exact hfits.resolve_left hhead
    cases free with
    | nil => exact absurd (List.length_eq_zero_iff.mp (Nat.le_zero.mp hlen)) hne
    | cons head free =>
        have hnodup := hperm.nodup_iff.mpr List.nodup_range
        rw [List.nodup_append, List.nodup_append] at hnodup
        obtain ⟨⟨hfreeNodup, -, hfreeFlying⟩, -, hapart⟩ := hnodup
        obtain ⟨hsent, hleft, hchain, hkeep⟩ := Virtqueue.sendEx_fits hfree hfreeNodup hne hlen
        have htaken : head :: free.take (descs.length - 1) ⊆ head :: free :=
          List.cons_subset_cons _ (List.take_subset _ _)
        refine ⟨⟨free.drop (descs.length - 1),
          flying ++ [head :: free.take (descs.length - 1)], returned, hleft, ?_, ?_, ?_⟩, ?_⟩
        · dsimp only
          rw [hsent]
          refine List.rel_append (Virtqueue.chains_congr hflying fun d hd => hkeep d ?_)
            (.cons hchain .nil)
          exact fun hmem => hfreeFlying d (htaken hmem) d hd rfl
        · dsimp only
          rw [hpending]
          refine Virtqueue.chains_congr hreturned fun d hd => hkeep d ?_
          exact fun hmem => hapart d (List.mem_append_left _ (htaken hmem)) d hd rfl
        · dsimp only
          rw [hsize]
          refine List.Perm.trans ?_ hperm
          rw [List.perm_iff_count]
          intro d
          have hcount := congrArg (List.count d) (List.take_append_drop (descs.length - 1) free)
          simp only [List.count_append, List.count_cons, List.flatten_append, List.flatten_cons,
            List.flatten_nil, List.append_nil] at hcount ⊢
          omega
        · intro hnone
          rw [hsent] at hnone
          cases hnone

-- A send that runs out in the middle loses what it has taken.
theorem Partition.send_short (h : Partition s) (hfits : ¬ Fits s (.send descs)) :
    ¬ Partition ⟨(s.virtq.sendEx descs).1, s.inFlight ++ (s.virtq.sendEx descs).2.toList⟩ := by
  obtain ⟨free, flying, returned, hfree, hflying, hreturned, hperm⟩ := id h
  obtain ⟨hsize, hpending⟩ := s.virtq.sendEx_pending descs
  obtain ⟨hhead, hlen⟩ := not_or.mp hfits
  rw [h.freeList_eq hfree, Nat.not_le] at hlen
  have hnodup := hperm.nodup_iff.mpr List.nodup_range
  rw [List.nodup_append, List.nodup_append] at hnodup
  obtain ⟨⟨hfreeNodup, -, hfreeFlying⟩, -, hapart⟩ := hnodup
  obtain ⟨hnone, hempty, hkeep⟩ := Virtqueue.sendEx_short hfree hfreeNodup hlen
  rintro ⟨free', flying', returned', hfree', hflying', hreturned', hperm'⟩
  dsimp only at hfree' hflying' hreturned' hperm'
  rw [hnone, Option.toList_none, List.append_nil] at hflying'
  rw [hpending] at hreturned'
  obtain rfl := Links.unique hempty hfree'
  obtain rfl := Virtqueue.chainFrom_unique.forall₂ hflying'
    (Virtqueue.chains_congr hflying fun d hd => hkeep d fun hmem => hfreeFlying d hmem d hd rfl)
  obtain rfl := Virtqueue.chainFrom_unique.forall₂ hreturned'
    (Virtqueue.chains_congr hreturned fun d hd =>
      hkeep d fun hmem => hapart d (List.mem_append_left _ hmem) d hd rfl)
  have hlost := hperm'.length_eq.trans (congrArg _ (congrArg List.range hsize))
  rw [← hperm.length_eq] at hlost
  simp only [List.length_append, List.length_nil] at hlost
  have hnil : free = [] := List.length_eq_zero_iff.mp (by omega)
  subst hnil
  exact hhead (Virtqueue.freeList_nil_iff.mp hfree)

-- The chains in flight and the completed ones are no more than the descriptors.
theorem Partition.heads_le (h : Partition s) :
    s.inFlight.length + s.virtq.pendingHeads.length ≤ s.virtq.queueSize := by
  obtain ⟨free, flying, returned, -, hflying, hreturned, hperm⟩ := h
  have hnodup := hperm.nodup_iff.mpr List.nodup_range
  rw [List.nodup_append, List.nodup_append] at hnodup
  have hinFlight := (Virtqueue.heads_nodup hflying hnodup.1.2.1).1.length_le
  have hpending := (Virtqueue.heads_nodup hreturned hnodup.2.1).1.length_le
  have hlen := hperm.length_eq
  simp only [List.length_append, List.length_range] at hlen
  omega

theorem Partition.complete_room (h : Partition s) (hhead : head ∈ s.inFlight) :
    s.virtq.pendingCount < s.virtq.queueSize := by
  have hle := h.heads_le
  have hpos := List.length_pos_of_mem hhead
  have hlen : s.virtq.pendingHeads.length = s.virtq.pendingCount := by
    simp only [Virtqueue.pendingHeads, List.length_map, List.length_range]
  omega

theorem Partition.complete_iff (h : Partition s) (hsized : Sized s) (hhead : head ∈ s.inFlight) :
    Partition ⟨s.virtq.complete head, s.inFlight.erase head⟩ ↔ Fits s (.complete head) := by
  have hroom := h.complete_room hhead
  have hcount : s.virtq.pendingCount + 1 < 2 ^ 16 := Nat.lt_of_le_of_lt hroom hsized.queueSize
  constructor
  · rintro ⟨free, flying, returned, -, -, hreturned, hperm⟩
    by_contra hno
    have hnodup := hperm.nodup_iff.mpr List.nodup_range
    rw [List.nodup_append] at hnodup
    exact Virtqueue.complete_of_no_room hsized.usedIdx hsized.lastUsedIdx hcount hno
      (Virtqueue.heads_nodup hreturned hnodup.2.1).2
  · intro hfits
    obtain ⟨free, flying, returned, hfree, hflying, hreturned, hperm⟩ := h
    obtain ⟨flying', hflying', hsame⟩ :=
      List.perm_comp_forall₂ (List.perm_cons_erase hhead).symm hflying
    cases hflying' with
    | @cons _ chain _ rest hchain hrest =>
        refine ⟨free, rest, returned ++ [chain], hfree, hrest, ?_, ?_⟩
        · dsimp only
          rw [Virtqueue.complete_of_room hsized.usedIdx hsized.lastUsedIdx hcount hfits]
          exact List.rel_append hreturned (.cons hchain .nil)
        · refine List.Perm.trans ?_ hperm
          have hflat : (chain ++ rest.flatten).Perm flying.flatten := hsame.flatten
          rw [List.perm_iff_count] at hflat ⊢
          intro d
          have hcount := hflat d
          simp only [List.count_append, List.flatten_append, List.flatten_cons, List.flatten_nil,
            List.append_nil] at hcount ⊢
          omega

theorem Partition.retire (h : Partition s) (hsized : Sized s)
    (hne : s.virtq.lastUsedIdx ≠ s.virtq.usedIdx) : Partition ⟨s.virtq.retireOne, s.inFlight⟩ := by
  obtain ⟨free, flying, returned, hfree, hflying, hreturned, hperm⟩ := h
  rw [Virtqueue.retireOne_pendingHeads hsized.usedIdx hsized.lastUsedIdx hne] at hreturned
  cases hreturned with
  | @cons _ chain _ rest hchain hrest =>
      obtain ⟨front, tail, rfl⟩ : ∃ front tail, chain = front ++ [tail] :=
        ⟨_, _, (List.dropLast_append_getLast (List.ne_nil_of_mem hchain.head_mem)).symm⟩
      have hnodup := hperm.nodup_iff.mpr List.nodup_range
      have hlen := hperm.length_eq
      simp only [List.length_append, List.length_range, List.flatten_cons,
        List.length_singleton] at hlen
      have htail := Virtqueue.chainTail_of_chain hchain
        (Nat.le_trans (Nat.le_add_right _ _) (by omega : front.length + 1 ≤ s.virtq.queueSize))
      rw [List.flatten_cons, List.nodup_append, List.nodup_append, List.nodup_append,
        List.nodup_append] at hnodup
      obtain ⟨⟨-, -, hfreeFlying⟩, ⟨⟨-, -, hfront⟩, -, hchainRest⟩, hapart⟩ := hnodup
      have hmem : tail ∈ front ++ [tail] := List.mem_append_right _ (List.mem_singleton_self _)
      have hbound : ∀ d ∈ front ++ [tail], d ≠ noDesc := by
        intro d hd
        have hrange := hperm.subset (List.mem_append_right _ (List.mem_append_left _ hd))
        have hlt := List.mem_range.mp hrange
        have hqueue := hsized.queueSize
        unfold noDesc
        omega
      have hkeep : ∀ d, d ≠ tail → s.virtq.retireOne.desc d = s.virtq.desc d := by
        intro d hd
        simp only [Virtqueue.retireOne, htail, Virtqueue.setDesc, Function.update_of_ne hd]
      have hnext : s.virtq.retireOne.freeNext tail = Virtqueue.linkOf s.virtq.freeHead := by
        simp only [Virtqueue.freeNext, Virtqueue.retireOne, htail, Virtqueue.setDesc,
          Function.update_self]
      refine ⟨(front ++ [tail]) ++ free, flying, rest, ?_, ?_, ?_, ?_⟩
      · have hhead : s.virtq.usedRing (s.virtq.lastUsedIdx % s.virtq.queueSize) ≠ noDesc :=
          hbound _ hchain.head_mem
        change Links _ (Virtqueue.linkOf (s.virtq.usedRing _)) _ none
        rw [Virtqueue.linkOf_of_ne hhead]
        refine Links.append (hchain.free_links hbound (fun d hd => hkeep d ?_) hnext) ?_
        · exact fun hd' => hfront d hd tail (List.mem_singleton_self _) hd'
        · refine Links.congr (fun d hd => ?_) hfree
          rw [Virtqueue.freeNext, Virtqueue.freeNext, hkeep d]
          rintro rfl
          exact hapart d (List.mem_append_left _ hd) d (List.mem_append_left _ hmem) rfl
      · refine Virtqueue.chains_congr hflying fun d hd => hkeep d ?_
        rintro rfl
        exact hapart d (List.mem_append_right _ hd) d (List.mem_append_left _ hmem) rfl
      · refine Virtqueue.chains_congr hrest fun d hd => hkeep d ?_
        rintro rfl
        exact hchainRest d hmem d hd rfl
      · refine List.Perm.trans ?_ hperm
        rw [List.perm_iff_count]
        intro d
        simp only [List.count_append, List.flatten_cons]
        omega

-- With a size that is a power of two the device always finds room.
theorem Partition.complete_fits (h : Partition s) (hsized : Sized s) (hhead : head ∈ s.inFlight)
    (hsize : s.virtq.queueSize ∣ 2 ^ 16) : Fits s (.complete head) :=
  Virtqueue.hasRoom_of_dvd hsize hsized.usedIdx hsized.lastUsedIdx (h.complete_room hhead)

theorem Partition.step_iff (h : Partition s) (hsized : Sized s) (hs : Step s i t) :
    Partition t ↔ Fits s i := by
  cases hs with
  | @send descs hne =>
      refine ⟨fun ht => ?_, fun hfits => (h.send_fits hne hfits).1⟩
      by_contra hno
      exact h.send_short hno ht
  | complete hhead => exact h.complete_iff hsized hhead
  | retire hne => exact ⟨fun _ => trivial, fun _ => h.retire hsized hne⟩

theorem Partition.failKeeps (h : Partition s) (hs : Step s i t) (hfits : Fits s i) :
    FailKeeps s i := by
  cases hs with
  | @send descs hne => exact (h.send_fits hne hfits).2
  | complete hhead => trivial
  | retire hne => trivial

end Steps

-- The list of virtio_setup_queues, from descriptor `i` on.
theorem setupQueues_links {size : Nat} (hsize : size < 2 ^ 16) {i : Nat} (n : Nat)
    (hi : i + n = size) :
    Links (Virtqueue.setupQueues size).freeNext
      (if n = 0 then none else some i) (List.range' i n) none := by
  induction n generalizing i with
  | zero => rfl
  | succ n ih =>
      rw [List.range'_succ]
      refine ⟨rfl, ?_⟩
      have hnext : (Virtqueue.setupQueues size).freeNext i = if n = 0 then none else some (i + 1) := by
        change Virtqueue.linkOf (if i + 1 = size then noDesc else i + 1) = _
        by_cases hn : n = 0
        · rw [if_pos hn, if_pos (by omega)]
          rfl
        · rw [if_neg hn, if_neg (by omega)]
          exact Virtqueue.linkOf_of_ne (by unfold noDesc; omega)
      rw [hnext]
      exact ih (by omega)

theorem setupQueues_partition {size : Nat} (hpos : 0 < size) (hsize : size < 2 ^ 16) :
    Partition (setupQueues size) := by
  have hlinks := setupQueues_links hsize size (Nat.zero_add size)
  rw [if_neg (Nat.pos_iff_ne_zero.mp hpos), ← List.range_eq_range',
    ← Virtqueue.linkOf_of_ne (show 0 ≠ noDesc by decide)] at hlinks
  have hpending : (Virtqueue.setupQueues size).pendingHeads = [] := by
    simp [Virtqueue.pendingHeads, Virtqueue.pendingCount, Virtqueue.setupQueues]
  refine ⟨List.range size, [], [], hlinks, .nil, ?_, ?_⟩
  · change List.Forall₂ _ (Virtqueue.setupQueues size).pendingHeads []
    rw [hpending]
    exact .nil
  · simp only [List.flatten_nil, List.append_nil]
    exact .rfl

-- Throughout a run each descriptor is free or in one chain, and no send that
-- fails changes the free list, exactly when every step of the run fits.
theorem descriptors_partitioned_iff {size : Nat} (hpos : 0 < size) (hsize : size < 2 ^ 16)
    {past : List (DescUse × Action)} {s : DescUse} (h : Trace Step (setupQueues size) past s) :
    (Trace.Always Partition past s ∧ Trace.Admits FailKeeps past) ↔ Trace.Admits Fits past := by
  have hiff : Trace.Always Partition past s ↔ Trace.Admits Fits past :=
    Trace.always_iff_admits (I := Sized) ⟨hsize, Nat.two_pow_pos 16, Nat.two_pow_pos 16⟩
      (setupQueues_partition hpos hsize) (fun _ _ _ hsized _ hs _ => hsized.step hs)
      (fun _ _ _ hsized hpart hs => hpart.step_iff hsized hs) h
  refine ⟨fun hboth => hiff.mp hboth.1, fun hfits => ⟨hiff.mpr hfits, ?_⟩⟩
  have hall := hiff.mpr hfits
  clear hiff
  induction h with
  | nil => exact Trace.admits_nil
  | snoc h hs ih =>
      obtain ⟨hpast, hlast⟩ := Trace.always_snoc.mp hall
      obtain ⟨hadmits, hfit⟩ := Trace.admits_snoc.mp hfits
      exact Trace.admits_snoc.mpr ⟨ih hadmits hpast, hpast.2.failKeeps hs hfit⟩

def twoDescs : List VirtqDesc := [⟨0x1000, 24, 1, 0⟩, ⟨0x2000, 24, 2, noDesc⟩]

-- A request on a queue of four, its completion and its processing.
theorem descriptors_partitioned_iff_request :
    ∃ past s, Trace Step (setupQueues 4) past s ∧
      past.map Prod.snd = [.send twoDescs, .complete 0, .retire] ∧
      Trace.Always Partition past s ∧ Trace.Admits FailKeeps past := by
  have hsent := Trace.nil.snoc (show Step (setupQueues 4) (.send twoDescs) _ from .send (by decide))
  have hcompleted := hsent.snoc (show Step _ (.complete 0) _ from .complete (by decide))
  have hretired := hcompleted.snoc (show Step _ .retire _ from .retire (by decide))
  refine ⟨_, _, hretired, rfl, (descriptors_partitioned_iff (by decide) (by decide) hretired).mpr ?_⟩
  simp only [Trace.admits_snoc]
  exact ⟨⟨⟨Trace.admits_nil, .inr (by decide)⟩, fun j hj => absurd hj (by decide +revert)⟩, trivial⟩

-- On a queue of four, three descriptors are sent; the request after that takes
-- the fourth and fails.
theorem descriptors_partitioned_fails :
    ¬ ∀ (size : Nat) (past : List (DescUse × Action)) (s : DescUse), 0 < size → size < 2 ^ 16 →
      Trace Step (setupQueues size) past s →
        Trace.Always Partition past s ∧ Trace.Admits FailKeeps past := by
  intro hall
  have hsent := Trace.nil.snoc (show Step (setupQueues 4)
    (.send (⟨0x3000, 64, 0, 0⟩ :: twoDescs)) _ from .send (by decide))
  have hfailed := hsent.snoc (show Step _ (.send twoDescs) _ from .send (by decide))
  have hkeeps := (Trace.admits_snoc.mp (hall 4 _ _ (by decide) (by decide) hfailed).2).2
  exact absurd (hkeeps (by decide)) (by decide)

end DescUse

end AosKernel.Gpu
