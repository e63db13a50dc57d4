import AosKernel.Elf.LoadOutcome

namespace AosKernel.Elf

open Verif

-- A firmware that grants what it may, from `start` on where it has the choice.
def grant (start : Nat) (fixed : Option Nat) (pages : Nat) (taken : List Span) : Option Nat :=
  if fixed.getD start % 0x1000 = 0 ∧ fixed.getD start + pages * 0x1000 ≤ 2 ^ 64 ∧
      ∀ s ∈ taken, Span.Apart ⟨fixed.getD start, pages * 0x1000⟩ s then
    some (fixed.getD start)
  else none

theorem grant_eq_some {start : Nat} {fixed : Option Nat} {pages base : Nat} {taken : List Span} :
    grant start fixed pages taken = some base ↔ base = fixed.getD start ∧ base % 0x1000 = 0 ∧
      base + pages * 0x1000 ≤ 2 ^ 64 ∧ ∀ s ∈ taken, Span.Apart ⟨base, pages * 0x1000⟩ s := by
  rw [grant, Option.ite_none_right_eq_some, Option.some_inj, and_comm, eq_comm]
  refine and_congr_right fun heq => ?_
  rw [heq]

def greedy (start : Nat) : Firmware where
  initialized := true
  allocatePages := grant start
  aligned h := (grant_eq_some.mp h).2.1
  fixed h := (grant_eq_some.mp h).1
  fits h := (grant_eq_some.mp h).2.2.1
  own h := (grant_eq_some.mp h).2.2.2

section Greedy

variable {data : List UInt8} {ctx : ElfCtx} {phs : List ElfPhdr} {m : Nat → UInt8}
  {start : Nat}

theorem greedy_any {start pages : Nat} (halign : start % 0x1000 = 0)
    (h : start + pages * 0x1000 ≤ 2 ^ 64) :
    (greedy start).allocatePages none pages [] = some start :=
  grant_eq_some.mpr ⟨rfl, halign, h, fun _ hs => nomatch hs⟩

-- It refuses no segment whose own place is free.
theorem greedy_fixed (start : Nat) {ph : ElfPhdr} {pages : List Span} (hs : ph.Sound data.length)
    (hu : ph.Usable) (hpages : ∀ p ∈ pages, Span.Apart ph.fixedPages p) :
    (greedy start).allocatePages (some ph.vaddr) (ALIGN_UP ph.memsz / 0x1000) pages = some ph.vaddr := by
  have hspace := hs.end_lt
  have haligned := hu.aligned
  refine grant_eq_some.mpr ⟨rfl, haligned, ?_, hpages⟩
  simp only [ALIGN_UP]
  omega

-- The first loop stops at nothing.
theorem greedy_scan (start : Nat) (hc : Checked 64 data.length phs)
    (hu : ctx.reloc = false → ∀ ph ∈ loads phs, ph.Usable)
    (hapart : ctx.reloc = false → ((loads phs).map ElfPhdr.fixedPages).Pairwise Span.Apart)
    (m : Nat → UInt8) :
    ∃ t acc, scanSegments (greedy start) 64 data ctx phs phs.zipIdx ⟨false, UINT64_MAX, 0⟩ ⟨m, [], []⟩ =
      .ok (some acc, t) ∧ Scanned (greedy start) data ctx phs m (some acc) t phs.zipIdx acc := by
  obtain ⟨r, t, done, acc, hscan, h⟩ := scan_all (greedy start) data ctx phs m
  cases r with
  | some a =>
      obtain ⟨hdone, rfl⟩ := h.ended a rfl
      exact ⟨t, acc, hscan, hdone ▸ h⟩
  | none =>
      obtain ⟨ph, i, rest, hsplit, hload, hrefuse⟩ := h.refused rfl
      have hmem : (ph, i) ∈ phs.zipIdx := hsplit ▸ List.mem_append_right _ List.mem_cons_self
      have hph : ph ∈ loads phs :=
        mem_loads.mpr ⟨List.mem_of_getElem? (zipIdx_getElem? hmem), hload⟩
      obtain hno | ⟨hreloc, hno⟩ := hrefuse
      · exact absurd (hc _ hmem hload) hno
      · have hphu := hu hreloc ph hph
        have hfail := hno.resolve_left hphu.kind
        have hloads : loads phs = loads (done.map Prod.fst) ++ ph :: loads (rest.map Prod.fst) := by
          rw [← List.zipIdx_map_fst 0 phs, hsplit, List.map_append, List.map_cons]
          simp [loads, hload]
        have hpairs := hapart hreloc
        rw [hloads, List.map_append, List.map_cons] at hpairs
        have hfree : ∀ p ∈ t.pages, Span.Apart ph.fixedPages p := fun p hp => by
          rw [(h.inv.fixed hreloc).pages] at hp
          exact ((List.pairwise_append.mp hpairs).2.2 p hp _ List.mem_cons_self).symm
        rw [greedy_fixed start (hc.sound hph) hphu hfree] at hfail
        cases hfail

theorem loadSegments_state {fw : Firmware} {r : Option Scan} {t : LoadState}
    (hscan : scanSegments fw 64 data ctx phs phs.zipIdx ⟨false, UINT64_MAX, 0⟩ ⟨m, [], []⟩ =
      .ok (r, t)) (hreloc : ctx.reloc = false) :
    ∃ out, loadSegments fw 64 data ctx phs ⟨m, [], []⟩ = .ok (out, t) := by
  rw [loadSegments, hscan]
  cases r with
  | none => exact ⟨none, rfl⟩
  | some acc =>
      simp only [hreloc, Bool.false_eq_true, if_false]
      split
      · exact ⟨none, rfl⟩
      split
      · exact ⟨none, rfl⟩
      · exact ⟨_, rfl⟩

-- Where the greedy firmware has an image.
def greedyBase (start : Nat) (ctx : ElfCtx) (phs : List ElfPhdr) : Nat :=
  if ctx.reloc then start else lowest phs

theorem greedy_placed (halign : start % 0x1000 = 0) (hstart : start ≤ 0x1000)
    (hc : Checked 64 data.length phs) (hreaches : Reaches phs)
    (hreloc : ctx.reloc = true) (hentry : ctx.entry < 2 ^ 64) (m : Nat → UInt8) :
    ∃ v size u, loadSegments (greedy start) 64 data ctx phs ⟨m, [], []⟩ =
        .ok (if v then some ⟨start, size, cell start (lowest phs) ctx.entry⟩ else none, u) ∧
      u.mem = placed data start (lowest phs) m (loads phs) ∧
      (u.Contained ↔ ∀ ph ∈ loads phs, ph.vaddr + ph.memsz ≤ lastPage) ∧
      (v = true ↔ ∃ ph ∈ loads phs, ph.Enters ctx.entry) := by
  have hno : ∀ p : Prop, ctx.reloc = false → p := fun _ hyes => by
    rw [hreloc] at hyes
    cases hyes
  obtain ⟨t, acc, hscan, h⟩ := greedy_scan start hc (hno _) (hno _) m
  have hend := (h.extent rfl).end_le
  have halloc : (greedy start).allocatePages none
      (ALIGN_UP (acc.endSpace - lowest phs) / 0x1000) [] = some start := greedy_any halign (by
    simp only [ALIGN_UP]
    simp only [lastPage] at hend
    omega)
  obtain ⟨v, u, hload⟩ := loadSegments_placed hscan (h.inv.reloc hreloc) (h.extent rfl)
    (h.checked rfl) hreaches hreloc hentry halloc
  exact ⟨v, _, u, hload⟩

-- The greedy firmware has memory for every image that can be loaded.
theorem greedy_accepts (halign : start % 0x1000 = 0) (hstart : start ≤ 0x1000)
    (hacc : Acceptable data ctx phs) (hentry : ctx.entry < 2 ^ 64)
    (m : Nat → UInt8) :
    ∃ image u, loadSegments (greedy start) 64 data ctx phs ⟨m, [], []⟩ = .ok (some image, u) ∧
      image.imageBase = greedyBase start ctx phs ∧
      u.mem = placed data (greedyBase start ctx phs) (lowest phs) m (loads phs) := by
  cases hreloc : ctx.reloc with
  | true =>
      obtain ⟨v, size, u, hload, hmem, -, hvalid⟩ :=
        greedy_placed halign hstart hacc.checked hacc.reaches hreloc hentry m
      rw [if_pos (hvalid.mpr hacc.enters)] at hload
      rw [greedyBase, if_pos hreloc]
      exact ⟨_, u, hload, rfl, hmem⟩
  | false =>
      obtain ⟨t, acc, hscan, h⟩ := greedy_scan start hacc.checked hacc.usable hacc.apart m
      have hload := loadSegments_reaches hscan (h.extent rfl) (h.checked rfl) hacc.reaches
      have hfix := h.inv.fixed hreloc
      rw [List.zipIdx_map_fst] at hfix
      rw [if_neg (by simp [hreloc]), if_pos ((h.extent rfl).entry_iff.mpr hacc.enters)] at hload
      have hlow := lowest_lt_of_reaches hacc.reaches hacc.checked
      simp only [UINT64_MAX] at hlow
      rw [greedyBase, if_neg (by simp [hreloc])]
      exact ⟨_, t, hload, rfl, hfix.mem.trans (placed_own (by omega))⟩

-- The first segment to load is loaded if it has its place.
theorem greedy_first (hreloc : ctx.reloc = false) {p : ElfPhdr × Nat}
    (hfirst : phs.zipIdx.find? (fun p => p.1.loadable) = some p)
    (hs : p.1.sound data.length = true)
    (hapart : p.1.apartFrom 64 data.length phs p.2 = true) (hu : p.1.Usable)
    {r : Option Scan} {t : LoadState} {done : List (ElfPhdr × Nat)} {acc : Scan}
    (h : Scanned (greedy start) data ctx phs m r t done acc) : p ∈ done := by
  have hload : p.1.loadable = true := by simpa using List.find?_some hfirst
  obtain ⟨-, pre, post, hpre, hskip⟩ := List.find?_eq_some_iff_append.mp hfirst
  cases r with
  | some a =>
      rw [← (h.ended a rfl).1, hpre]
      exact List.mem_append_right _ List.mem_cons_self
  | none =>
      by_contra hno
      obtain ⟨ph, i, rest, hsplit, hphload, hrefuse⟩ := h.refused rfl
      -- What is refused is loadable, so it is the first one, and there is nothing before it.
      have hsame : done = pre ∧ (ph, i) = p := by
        rw [hpre] at hsplit
        obtain ⟨a, hdone, hrest⟩ | ⟨c, hpre', hrest⟩ := List.append_eq_append_iff.mp hsplit
        · cases a with
          | nil =>
              rw [List.nil_append, List.cons.injEq] at hrest
              exact ⟨by rw [hdone, List.append_nil], hrest.1.symm⟩
          | cons x a =>
              rw [List.cons_append, List.cons.injEq] at hrest
              rw [hdone, ← hrest.1] at hno
              exact absurd (List.mem_append_right _ List.mem_cons_self) hno
        · cases c with
          | nil =>
              rw [List.nil_append, List.cons.injEq] at hrest
              exact ⟨by rw [hpre', List.append_nil], hrest.1⟩
          | cons x c =>
              rw [List.cons_append, List.cons.injEq] at hrest
              have hx := hskip x (hpre' ▸ List.mem_append_right _ List.mem_cons_self)
              rw [← hrest.1] at hx
              simp [hphload] at hx
      obtain ⟨rfl, rfl⟩ := hsame
      obtain hbad | ⟨-, hbad⟩ := hrefuse
      · exact hbad ⟨hs, hapart⟩
      · have hnone : loads (done.map Prod.fst) = [] := by
          refine List.filter_eq_nil_iff.mpr fun q hq => ?_
          obtain ⟨x, hx, rfl⟩ := List.mem_map.mp hq
          simpa using hskip x hx
        have hpages : t.pages = [] := by
          rw [(h.inv.fixed hreloc).pages, hnone, List.map_nil]
        have hfail := hbad.resolve_left hu.kind
        rw [hpages, greedy_fixed start (ElfPhdr.sound_of_check hs hload) hu (List.forall_mem_nil _)]
          at hfail
        cases hfail

end Greedy

end AosKernel.Elf
