import Mathlib.Logic.Function.Basic
import AosKernel.Lib.Trace
import AosKernel.Mm.UnmapSlot
import AosKernel.Smp.CoreResources

namespace AosKernel.Smp

open Verif Exec Mm

def SMP_TLB_CMD_INVLPAGE : Nat := 1 <<< 0
def SMP_TLB_CMD_REFRESH_PAGES : Nat := 1 <<< 1
def SMP_TLB_RESP_ACK_INVPAGE : Nat := 1 <<< 9
def SMP_TLB_RESP_ACK_REFRESH_PAGES : Nat := 1 <<< 10

-- A translation in the TLB of a core, with the entry it was filled from and
-- the version of that entry.
structure Translation where
  virt : BitVec 64
  large : Bool
  phys : PhysAddr
  slot : Slot
  version : Nat
  deriving DecidableEq

-- The translation is one for the page of `virt`.
def Translation.covers (t : Translation) (virt : BitVec 64) : Bool :=
  if t.large then t.virt >>> 21 == virt >>> 21 else t.virt >>> 12 == virt >>> 12

-- What one call of pager_unmap cleared.
structure Cleared where
  virt : BitVec 64
  slot : Slot
  version : Nat

def Cleared.Stale (c : Cleared) (t : Translation) : Prop :=
  t.covers c.virt = true ∧ t.slot = c.slot ∧ t.version = c.version

-- Where a core is in pager_unmap: before invlpg, at an index of the loop of
-- smp_tlb, or in smp_tlb_core waiting for the core at that index.
inductive UnmapPhase
  | idle
  | cleared (c : Cleared)
  | turn (c : Cleared) (i : Nat)
  | wait (c : Cleared) (i : Nat)

-- tlb_cmd, tlb_resp and tlb_addr of a core_state.
structure TlbMail where
  tlbCmd : Nat
  tlbResp : Nat
  tlbAddr : BitVec 64
  deriving DecidableEq

-- The running cores: the boot processor and those in `cores`.
structure Processors where
  registered : Nat → Bool
  bspCoreIdx : Nat
  fits : ∀ i, registered i = true → i < SMP_MAX_CORES

def Processors.Running (procs : Processors) (i : Nat) : Prop :=
  i = procs.bspCoreIdx ∨ procs.registered i = true

-- smp_tlb sends an IPI to the core.
def Processors.target (procs : Processors) (i : Nat) : Bool :=
  procs.registered i && i != procs.bspCoreIdx

-- `ipi` is the IPI that is on its way to a core. `unmapped` is a history:
-- what the calls of pager_unmap that have returned had cleared.
structure Shootdown where
  kernel : KernelState
  tlbs : Nat → List Translation
  mail : Nat → TlbMail
  commandLock : Nat → Option Nat
  ipi : Nat → Bool
  phase : Nat → UnmapPhase
  unmapped : List Cleared

inductive TlbAction
  | unmap (k : Nat) (virt : BitVec 64)
  | invlpg (k : Nat)
  | turn (k : Nat)
  | resume (k : Nat)
  | handler (i : Nat)
  | fill (i : Nat) (virt : BitVec 64)
  | evict (i : Nat) (kept : List Translation)
  | map (virt phys flags : BitVec 64)

-- The instruction, which drops every translation for the page.
def invlpgTlb (virt : BitVec 64) (tlb : List Translation) : List Translation :=
  tlb.filter fun t => !t.covers virt

-- smp_tlb_ipi_handler. Loading CR3 drops all translations.
def smpTlbIpiHandler (m : TlbMail) (tlb : List Translation) : TlbMail × List Translation :=
  if m.tlbCmd &&& SMP_TLB_CMD_INVLPAGE ≠ 0 then
    (⟨0, 0 ||| SMP_TLB_RESP_ACK_INVPAGE, m.tlbAddr⟩, invlpgTlb m.tlbAddr tlb)
  else if m.tlbCmd = SMP_TLB_CMD_REFRESH_PAGES then
    (⟨0, 0 ||| SMP_TLB_RESP_ACK_REFRESH_PAGES, m.tlbAddr⟩, [])
  else (⟨0, 0, m.tlbAddr⟩, tlb)

def Pager.cleared (p : Pager) (virt : BitVec 64) (slot : Slot) : Cleared :=
  ⟨virt, slot, p.version slot⟩

def Shootdown.setPhase (s : Shootdown) (k : Nat) (ph : UnmapPhase) : Shootdown :=
  { s with phase := Function.update s.phase k ph }

def Shootdown.setTlb (s : Shootdown) (k : Nat) (tlb : List Translation) : Shootdown :=
  { s with tlbs := Function.update s.tlbs k tlb }

def Shootdown.finish (s : Shootdown) (k : Nat) (c : Cleared) : Shootdown :=
  { s.setPhase k .idle with unmapped := c :: s.unmapped }

-- The first part of smp_tlb_core. While it holds command_lock no other core
-- writes the mailbox, and its own core reads it when the IPI comes.
def Shootdown.post (s : Shootdown) (k i : Nat) (c : Cleared) : Shootdown :=
  { s.setPhase k (.wait c i) with
    commandLock := Function.update s.commandLock i (some k)
    mail := Function.update s.mail i ⟨SMP_TLB_CMD_INVLPAGE, 0, c.virt⟩
    ipi := Function.update s.ipi i true }

def Shootdown.release (s : Shootdown) (k i : Nat) (c : Cleared) : Shootdown :=
  { s.setPhase k (.turn c (i + 1)) with commandLock := Function.update s.commandLock i none }

def Shootdown.handled (s : Shootdown) (i : Nat) : Shootdown :=
  let (m, tlb) := smpTlbIpiHandler (s.mail i) (s.tlbs i)
  { s.setTlb i tlb with
    mail := Function.update s.mail i m
    ipi := Function.update s.ipi i false }

-- What a core does next. The wait of smp_tlb_core ends at any time, and other
-- calls of the pager and fills and evictions of the TLBs come in between.
inductive TlbStep (procs : Processors) (s : Shootdown) : TlbAction → Shootdown → Prop
  | unmapNothing {k virt kernel} (hrun : procs.Running k) (hidle : s.phase k = .idle)
      (hcall : Returns (pagerUnmap virt) s.kernel () kernel)
      (hslot : s.kernel.rest.unmapSlot virt = none) :
      TlbStep procs s (.unmap k virt) { s with kernel }
  | unmapEarly {k virt kernel slot} (hrun : procs.Running k) (hidle : s.phase k = .idle)
      (hcall : Returns (pagerUnmap virt) s.kernel () kernel)
      (hslot : s.kernel.rest.unmapSlot virt = some slot) (hready : s.kernel.rest.ready = false) :
      TlbStep procs s (.unmap k virt)
        ({ s with kernel }.finish k (Pager.cleared s.kernel.rest virt slot))
  | unmap {k virt kernel slot} (hrun : procs.Running k) (hidle : s.phase k = .idle)
      (hcall : Returns (pagerUnmap virt) s.kernel () kernel)
      (hslot : s.kernel.rest.unmapSlot virt = some slot) (hready : s.kernel.rest.ready = true) :
      TlbStep procs s (.unmap k virt)
        ({ s with kernel }.setPhase k (.cleared (Pager.cleared s.kernel.rest virt slot)))
  | invlpg {k c} (hphase : s.phase k = .cleared c) :
      TlbStep procs s (.invlpg k) ((s.setTlb k (invlpgTlb c.virt (s.tlbs k))).setPhase k (.turn c 0))
  | done {k c i} (hphase : s.phase k = .turn c i) (hend : SMP_MAX_CORES ≤ i) :
      TlbStep procs s (.turn k) (s.finish k c)
  | skip {k c i} (hphase : s.phase k = .turn c i) (hi : i < SMP_MAX_CORES)
      (hskip : procs.target i = false) :
      TlbStep procs s (.turn k) (s.setPhase k (.turn c (i + 1)))
  | post {k c i} (hphase : s.phase k = .turn c i) (hi : i < SMP_MAX_CORES)
      (htarget : procs.target i = true) (hlock : s.commandLock i = none) :
      TlbStep procs s (.turn k) (s.post k i c)
  | resume {k c i} (hphase : s.phase k = .wait c i) :
      TlbStep procs s (.resume k) (s.release k i c)
  | handler {i} (hrun : procs.Running i) (hipi : s.ipi i = true) :
      TlbStep procs s (.handler i) (s.handled i)
  | fill {i virt slot large phys} (hrun : procs.Running i)
      (hwalk : s.kernel.rest.walkEnd virt = some (slot, large))
      (hphys : s.kernel.rest.translate virt = some phys) :
      TlbStep procs s (.fill i virt)
        (s.setTlb i (⟨virt, large, phys, slot, s.kernel.rest.version slot⟩ :: s.tlbs i))
  | evict {i kept} (hkept : kept ⊆ s.tlbs i) : TlbStep procs s (.evict i kept) (s.setTlb i kept)
  | map {virt phys flags depth r kernel}
      (hcall : Returns ((pagerServices depth).pagerMap virt phys flags) s.kernel r kernel) :
      TlbStep procs s (.map virt phys flags) { s with kernel }

-- The IPI is handled before its sender stops waiting.
def Handled (s : Shootdown) : TlbAction → Prop
  | .resume k => ∀ c i, s.phase k = .wait c i → s.ipi i = false
  | _ => True

def Shootdown.Clean (s : Shootdown) (c : Cleared) (i : Nat) : Prop := ∀ t ∈ s.tlbs i, ¬ c.Stale t

-- The core drops its translations in a call of pager_unmap by core `k`.
def Reached (procs : Processors) (k i : Nat) : Prop := i = k ∨ procs.target i = true

-- A core that the call does not reach has no translation filled from the entry
-- it clears: the caller is the boot processor or that one has none.
def FlushReaches (procs : Processors) (s : Shootdown) : TlbAction → Prop
  | .unmap k virt => ∀ slot ∈ s.kernel.rest.unmapSlot virt, ∀ i, procs.Running i →
      ¬ (s.kernel.rest.ready = true ∧ Reached procs k i) →
        s.Clean (Pager.cleared s.kernel.rest virt slot) i
  | _ => True

-- The entry has been written since, so what is filled now is not stale.
def Shootdown.Past (s : Shootdown) (c : Cleared) : Prop := c.version < s.kernel.rest.version c.slot

-- The cores that a call has dealt with before index `i` of its loop.
def Shootdown.CleanTo (procs : Processors) (s : Shootdown) (k i : Nat) (c : Cleared) : Prop :=
  ∀ j, procs.Running j → ¬ Reached procs k j ∨ j = k ∨ j < i → s.Clean c j

def PhaseInv (procs : Processors) (s : Shootdown) (k : Nat) : UnmapPhase → Prop
  | .idle => True
  | .cleared c => s.Past c ∧ ∀ j, procs.Running j → ¬ Reached procs k j → s.Clean c j
  | .turn c i => s.Past c ∧ s.CleanTo procs k i c
  | .wait c i => s.Past c ∧ s.CleanTo procs k i c ∧ s.commandLock i = some k ∧
      (s.ipi i = true → s.mail i = ⟨SMP_TLB_CMD_INVLPAGE, 0, c.virt⟩) ∧
      (s.ipi i = false → s.Clean c i)

structure ShootdownInv (procs : Processors) (s : Shootdown) : Prop where
  versions : ∀ i, ∀ t ∈ s.tlbs i, t.version ≤ s.kernel.rest.version t.slot
  phases : ∀ k, PhaseInv procs s k (s.phase k)
  unmapped : ∀ c ∈ s.unmapped, s.Past c ∧ ∀ i, procs.Running i → s.Clean c i

-- A machine on which no core is in pager_unmap.
structure Quiet (s : Shootdown) : Prop where
  idle : ∀ k, s.phase k = .idle
  unmapped : s.unmapped = []
  versions : ∀ i, ∀ t ∈ s.tlbs i, t.version ≤ s.kernel.rest.version t.slot

theorem Quiet.inv {procs : Processors} {s : Shootdown} (h : Quiet s) : ShootdownInv procs s := by
  refine ⟨h.versions, fun k => ?_, ?_⟩
  · rw [h.idle]
    trivial
  · rw [h.unmapped]
    nofun

section Moves

variable {procs : Processors} {s t : Shootdown} {c : Cleared} {i j k : Nat}

-- From `s` to `t` the TLBs lose translations and gain only current ones.
structure Moves (s t : Shootdown) : Prop where
  kernel : ∀ slot, s.kernel.rest.version slot ≤ t.kernel.rest.version slot
  tlbs : ∀ i, ∀ e ∈ t.tlbs i, e ∈ s.tlbs i ∨ e.version = s.kernel.rest.version e.slot

theorem Moves.of_kernel (h : ∀ slot, s.kernel.rest.version slot ≤ t.kernel.rest.version slot)
    (htlbs : t.tlbs = s.tlbs) : Moves s t :=
  ⟨h, fun _ _ he => .inl (htlbs ▸ he)⟩

theorem Moves.of_tlb {tlb : List Translation} (hkernel : t.kernel = s.kernel)
    (htlbs : t.tlbs = Function.update s.tlbs i tlb)
    (h : ∀ e ∈ tlb, e ∈ s.tlbs i ∨ e.version = s.kernel.rest.version e.slot) : Moves s t := by
  refine ⟨fun slot => by rw [hkernel], fun j e he => ?_⟩
  rw [htlbs] at he
  by_cases hji : j = i
  · subst hji
    rw [Function.update_self] at he
    exact h e he
  · rw [Function.update_of_ne hji] at he
    exact .inl he

theorem Moves.past (h : Moves s t) (hc : s.Past c) : t.Past c :=
  Nat.lt_of_lt_of_le hc (h.kernel c.slot)

theorem Moves.clean (h : Moves s t) (hc : s.Past c) (hi : s.Clean c i) : t.Clean c i := by
  rintro e he ⟨hcovers, hslot, hversion⟩
  obtain he | hnew := h.tlbs i e he
  · exact hi e he ⟨hcovers, hslot, hversion⟩
  · rw [hversion, hslot] at hnew
    exact (Nat.ne_of_lt hc) hnew

theorem Moves.cleanTo (h : Moves s t) (hc : s.Past c) (hto : s.CleanTo procs k i c) :
    t.CleanTo procs k i c :=
  fun j hrun hj => h.clean hc (hto j hrun hj)

theorem Moves.versions (h : Moves s t)
    (hv : ∀ i, ∀ e ∈ s.tlbs i, e.version ≤ s.kernel.rest.version e.slot) :
    ∀ i, ∀ e ∈ t.tlbs i, e.version ≤ t.kernel.rest.version e.slot := by
  intro i e he
  refine Nat.le_trans ?_ (h.kernel e.slot)
  obtain he | hnew := h.tlbs i e he
  · exact hv i e he
  · exact hnew.le

-- What other cores wait for is as it was.
theorem Moves.phase (h : Moves s t) {ph : UnmapPhase} (hph : PhaseInv procs s k ph)
    (hwait : ∀ c i, ph = .wait c i → s.commandLock i = some k → t.commandLock i = some k ∧
      t.ipi i = s.ipi i ∧ t.mail i = s.mail i) : PhaseInv procs t k ph := by
  cases ph with
  | idle => trivial
  | cleared c => exact ⟨h.past hph.1, fun j hrun hj => h.clean hph.1 (hph.2 j hrun hj)⟩
  | turn c i => exact ⟨h.past hph.1, h.cleanTo hph.1 hph.2⟩
  | wait c i =>
      obtain ⟨hpast, hto, hlock, hmail, hclean⟩ := hph
      obtain ⟨hlock', hipi, hmail'⟩ := hwait c i rfl hlock
      refine ⟨h.past hpast, h.cleanTo hpast hto, hlock', ?_, ?_⟩
      · rw [hipi, hmail']
        exact hmail
      · rw [hipi]
        exact fun hi => h.clean hpast (hclean hi)

-- A step of core `k`, which leaves what other cores wait for.
theorem ShootdownInv.move (hinv : ShootdownInv procs s) (h : Moves s t) {ph : UnmapPhase}
    (hphase : t.phase = Function.update s.phase k ph)
    (hwait : ∀ k' i, k' ≠ k → s.commandLock i = some k' → t.commandLock i = some k' ∧
      t.ipi i = s.ipi i ∧ t.mail i = s.mail i)
    (hph : PhaseInv procs t k ph)
    (hunmapped : ∀ c ∈ t.unmapped, c ∈ s.unmapped ∨
      t.Past c ∧ ∀ i, procs.Running i → t.Clean c i) : ShootdownInv procs t := by
  refine ⟨h.versions hinv.versions, fun k' => ?_, fun c hc => ?_⟩
  · by_cases hk : k' = k
    · subst hk
      rw [hphase, Function.update_self]
      exact hph
    · rw [hphase, Function.update_of_ne hk]
      exact h.phase (hinv.phases k') fun c i _ hlock => hwait k' i hk hlock
  · obtain hc | hnew := hunmapped c hc
    · obtain ⟨hpast, hclean⟩ := hinv.unmapped c hc
      exact ⟨h.past hpast, fun i hrun => h.clean hpast (hclean i hrun)⟩
    · exact hnew

-- A step that leaves the phases of all cores.
theorem ShootdownInv.stay (hinv : ShootdownInv procs s) (h : Moves s t)
    (hphase : t.phase = s.phase) (hlock : t.commandLock = s.commandLock) (hipi : t.ipi = s.ipi)
    (hmail : t.mail = s.mail) (hunmapped : t.unmapped = s.unmapped) : ShootdownInv procs t := by
  refine ⟨h.versions hinv.versions, fun k => ?_, fun c hc => ?_⟩
  · rw [hphase]
    refine h.phase (hinv.phases k) fun c i _ hk => ?_
    rw [hlock, hipi, hmail]
    exact ⟨hk, rfl, rfl⟩
  · rw [hunmapped] at hc
    obtain ⟨hpast, hclean⟩ := hinv.unmapped c hc
    exact ⟨h.past hpast, fun i hrun => h.clean hpast (hclean i hrun)⟩

theorem invlpgTlb_subset (virt : BitVec 64) (tlb : List Translation) :
    invlpgTlb virt tlb ⊆ tlb :=
  List.filter_subset_self _

theorem not_stale_of_mem_invlpgTlb {e : Translation} {tlb : List Translation}
    (he : e ∈ invlpgTlb c.virt tlb) : ¬ c.Stale e := by
  rintro ⟨hcovers, -⟩
  simp [invlpgTlb, hcovers] at he

theorem smpTlbIpiHandler_subset (m : TlbMail) (tlb : List Translation) :
    (smpTlbIpiHandler m tlb).2 ⊆ tlb := by
  unfold smpTlbIpiHandler
  split
  · exact invlpgTlb_subset _ _
  · split
    · exact List.nil_subset _
    · exact List.Subset.refl _

theorem smpTlbIpiHandler_invlpage (virt : BitVec 64) (tlb : List Translation) :
    (smpTlbIpiHandler ⟨SMP_TLB_CMD_INVLPAGE, 0, virt⟩ tlb).2 = invlpgTlb virt tlb := by
  simp [smpTlbIpiHandler, SMP_TLB_CMD_INVLPAGE]

theorem Moves.setTlb {tlb : List Translation} (h : tlb ⊆ s.tlbs i) : Moves s (s.setTlb i tlb) :=
  .of_tlb rfl rfl fun _ he => .inl (h he)

theorem Moves.clear {virt : BitVec 64} {kernel : KernelState} {slot : Slot}
    (hcall : Returns (pagerUnmap virt) s.kernel () kernel)
    (hslot : s.kernel.rest.unmapSlot virt = some slot) :
    Moves s { s with kernel } ∧ Shootdown.Past { s with kernel } (Pager.cleared s.kernel.rest virt slot) := by
  have hrest := pagerUnmap_unmapSlot hcall
  rw [hslot, Option.elim_some] at hrest
  refine ⟨.of_kernel (fun slot' => ?_) rfl, ?_⟩
  · rw [show kernel.rest = _ from hrest, Pager.version_clear]
    omega
  · simp [Shootdown.Past, Pager.cleared, hrest, Pager.version_clear]

-- After the last turn every running core has been dealt with.
theorem Shootdown.CleanTo.done (h : s.CleanTo procs k i c) (hi : SMP_MAX_CORES ≤ i)
    (hrun : procs.Running j) : s.Clean c j := by
  refine h j hrun ?_
  by_cases hreached : Reached procs k j
  · obtain rfl | htarget := hreached
    · exact .inr (.inl rfl)
    · have hj := procs.fits j (Bool.and_eq_true_iff.mp htarget).1
      exact .inr (.inr (Nat.lt_of_lt_of_le hj hi))
  · exact .inl hreached

theorem Shootdown.CleanTo.next (h : s.CleanTo procs k i c)
    (hi : procs.target i = true → s.Clean c i) : s.CleanTo procs k (i + 1) c := by
  rintro j hrun (hj | hj | hj)
  · exact h j hrun (.inl hj)
  · exact h j hrun (.inr (.inl hj))
  · by_cases hji : j = i
    · subst hji
      by_cases htarget : procs.target j = true
      · exact hi htarget
      · by_cases hjk : j = k
        · exact h j hrun (.inr (.inl hjk))
        · exact h j hrun (.inl fun hr => hr.elim hjk htarget)
    · exact h j hrun (.inr (.inr (by omega)))

theorem ShootdownInv.handled (hinv : ShootdownInv procs s) (i : Nat) (hipi : s.ipi i = true) :
    ShootdownInv procs (s.handled i) := by
  have hmoves : Moves s (s.handled i) :=
    .of_tlb rfl rfl fun _ he => .inl (smpTlbIpiHandler_subset _ _ he)
  refine ⟨hmoves.versions hinv.versions, fun k => ?_, fun c hc => ?_⟩
  · have hph := hinv.phases k
    change PhaseInv procs (s.handled i) k (s.phase k)
    by_cases hwaits : ∃ c, s.phase k = .wait c i
    · obtain ⟨c, hwait⟩ := hwaits
      rw [hwait] at hph ⊢
      obtain ⟨hpast, hto, hlock, hmail, -⟩ := hph
      refine ⟨hmoves.past hpast, hmoves.cleanTo hpast hto, hlock, ?_, fun _ e he => ?_⟩
      · simp [Shootdown.handled]
      · simp only [Shootdown.handled, Shootdown.setTlb, Function.update_self, hmail hipi,
          smpTlbIpiHandler_invlpage] at he
        exact not_stale_of_mem_invlpgTlb he
    · refine hmoves.phase hph fun c j hwait hlock => ?_
      have hji : j ≠ i := by
        rintro rfl
        exact hwaits ⟨c, hwait⟩
      simp [Shootdown.handled, Shootdown.setTlb, hlock, hji]
  · obtain ⟨hpast, hclean⟩ := hinv.unmapped c hc
    exact ⟨hmoves.past hpast, fun j hrun => hmoves.clean hpast (hclean j hrun)⟩

end Moves

theorem ShootdownInv.step {procs : Processors} {s t : Shootdown} {a : TlbAction}
    (hinv : ShootdownInv procs s) (hs : TlbStep procs s a t) (hhandled : Handled s a)
    (hreaches : FlushReaches procs s a) : ShootdownInv procs t := by
  cases hs with
  | unmapNothing hrun hidle hcall hslot =>
      refine hinv.stay (.of_kernel (fun slot => ?_) rfl) rfl rfl rfl rfl rfl
      have hrest := pagerUnmap_unmapSlot hcall
      rw [hslot] at hrest
      exact (congrArg (Pager.version · slot) hrest).ge
  | @unmapEarly k virt kernel slot hrun hidle hcall hslot hready =>
      obtain ⟨hmoves, hpast⟩ := Moves.clear hcall hslot
      refine hinv.move (k := k) ⟨hmoves.kernel, hmoves.tlbs⟩ rfl
        (fun _ _ _ hlock => ⟨hlock, rfl, rfl⟩) trivial fun c hc => ?_
      obtain rfl | hc := List.mem_cons.mp hc
      · refine .inr ⟨hpast, fun i hi => ?_⟩
        exact hreaches slot hslot i hi fun h => by simp [hready] at h
      · exact .inl hc
  | @unmap k virt kernel slot hrun hidle hcall hslot hready =>
      obtain ⟨hmoves, hpast⟩ := Moves.clear hcall hslot
      refine hinv.move (k := k) ⟨hmoves.kernel, hmoves.tlbs⟩ rfl
        (fun _ _ _ hlock => ⟨hlock, rfl, rfl⟩) ⟨hpast, fun i hi hnot => ?_⟩ fun c hc => .inl hc
      exact hreaches slot hslot i hi fun h => hnot h.2
  | @invlpg k c hphase =>
      have hph := hinv.phases k
      rw [hphase] at hph
      obtain ⟨hpast, hclean⟩ := hph
      have hmoves := Moves.setTlb (invlpgTlb_subset c.virt (s.tlbs k))
      refine hinv.move (k := k) ⟨hmoves.kernel, hmoves.tlbs⟩ rfl
        (fun _ _ _ hlock => ⟨hlock, rfl, rfl⟩) ⟨hpast, ?_⟩ fun c hc => .inl hc
      rintro j hrun (hj | rfl | hj)
      · exact hmoves.clean hpast (hclean j hrun hj)
      · intro e he
        simp only [Shootdown.setPhase, Shootdown.setTlb, Function.update_self] at he
        exact not_stale_of_mem_invlpgTlb he
      · omega
  | @done k c i hphase hend =>
      have hph := hinv.phases k
      rw [hphase] at hph
      refine hinv.move (k := k) (.of_kernel (fun _ => le_refl _) rfl) rfl
        (fun _ _ _ hlock => ⟨hlock, rfl, rfl⟩) trivial fun c' hc' => ?_
      obtain rfl | hc' := List.mem_cons.mp hc'
      · exact .inr ⟨hph.1, fun j hrun => hph.2.done hend hrun⟩
      · exact .inl hc'
  | @skip k c i hphase hi hskip =>
      have hph := hinv.phases k
      rw [hphase] at hph
      refine hinv.move (k := k) (.of_kernel (fun _ => le_refl _) rfl) rfl
        (fun _ _ _ hlock => ⟨hlock, rfl, rfl⟩) ⟨hph.1, ?_⟩ fun c hc => .inl hc
      exact hph.2.next fun htarget => by simp [hskip] at htarget
  | @post k c i hphase hi htarget hlock =>
      have hph := hinv.phases k
      rw [hphase] at hph
      refine hinv.move (k := k) (.of_kernel (fun _ => le_refl _) rfl) rfl
        (fun k' j _ hk' => ?_) ⟨hph.1, hph.2, ?_, ?_, ?_⟩ fun c hc => .inl hc
      · have hji : j ≠ i := by
          rintro rfl
          simp [hlock] at hk'
        simp [Shootdown.post, hji, hk', Shootdown.setPhase]
      all_goals simp [Shootdown.post]
  | @resume k c i hphase =>
      have hph := hinv.phases k
      rw [hphase] at hph
      obtain ⟨hpast, hto, hlock, -, hclean⟩ := hph
      refine hinv.move (k := k) (.of_kernel (fun _ => le_refl _) rfl) rfl
        (fun k' j hk hk' => ?_) ⟨hpast, ?_⟩ fun c hc => .inl hc
      · have hji : j ≠ i := by
          rintro rfl
          rw [hlock, Option.some_inj] at hk'
          exact hk hk'.symm
        simp [Shootdown.release, hji, hk', Shootdown.setPhase]
      · exact hto.next fun _ => hclean (hhandled c i hphase)
  | handler hrun hipi => exact hinv.handled _ hipi
  | fill hrun hwalk hphys =>
      refine hinv.stay (.of_tlb rfl rfl fun e he => ?_) rfl rfl rfl rfl rfl
      obtain rfl | he := List.mem_cons.mp he
      · exact .inr rfl
      · exact .inl he
  | evict hkept => exact hinv.stay (.setTlb hkept) rfl rfl rfl rfl rfl
  | map hcall =>
      exact hinv.stay (.of_kernel (History.version_le
        (((pagerServices_history _).pagerMap _ _ _).returns hcall)) rfl) rfl rfl rfl rfl rfl

end AosKernel.Smp
