import Mathlib.Data.List.Basic
import Mathlib.Data.List.Nodup
import Mathlib.Data.List.Perm.Basic
import AosKernel.Core.Module
import AosKernel.Lib.Trace

namespace AosKernel.Core

open Verif

-- The modules of a table, in the order of their slots.
def present (slots : List (Option ModuleRef)) : List ModuleRef := slots.filterMap id

-- The registry, and the modules that are registered.
structure RegistryUse where
  registry : Registry
  registered : List ModuleRef

inductive RegistryCall
  | register (fresh : Option (Nat → Option ModuleRef)) (module : ModuleRef)
  | unregister (module : ModuleRef)
  | unregisterDealloc (module : ModuleRef)
  | lookup (loopIdx : Nat) (f : DriverFilter)
  | alreadyInitialized (module : ModuleRef)

-- A module is registered again only after it was unregistered.
inductive RegistryStep : RegistryUse → RegistryCall → RegistryUse → Prop
  | register {w fresh module} : module ∉ w.registered →
      RegistryStep w (.register fresh module)
        ⟨(moduleRegister fresh module w.registry).2,
          if (moduleRegister fresh module w.registry).1 then module :: w.registered
          else w.registered⟩
  | unregister {w module} :
      RegistryStep w (.unregister module)
        ⟨moduleUnregister module w.registry, w.registered.filter (· ≠ module)⟩
  | unregisterDealloc {w module} :
      RegistryStep w (.unregisterDealloc module)
        ⟨moduleUnregisterDealloc module w.registry, w.registered.filter (· ≠ module)⟩
  | lookup {w loopIdx f} : RegistryStep w (.lookup loopIdx f) w
  | alreadyInitialized {w module} : RegistryStep w (.alreadyInitialized module) w

def RegistryUse.start (modules : ModuleRef → AosModule) : RegistryUse :=
  ⟨⟨modules, none, 0, 0, []⟩, []⟩

-- The table has every registered module once, and nothing else.
def Faithful (w : RegistryUse) : Prop :=
  (present w.registry.slots).Nodup ∧ (present w.registry.slots).Perm w.registered

-- What a call is to answer. A lookup looks into registered modules only.
def Right (w : RegistryUse) : RegistryCall → Prop
  | .lookup loopIdx f => ∃ reads,
      moduleGetApplicableRegisteredDriver loopIdx f w.registry = .ok (reads,
        ((present w.registry.slots).filter fun m => (w.registry.modules m).applicable f)[loopIdx]?) ∧
      ∀ m ∈ reads, m ∈ w.registered
  | .alreadyInitialized module =>
      moduleAlreadyInitialized module w.registry = true ↔ module ∈ w.registered
  | _ => True

-- More than `loopIdx` of the modules before each hole are what the lookup wants.
def ClearTo (modules : ModuleRef → AosModule) (f : DriverFilter) (loopIdx : Nat)
    (slots : List (Option ModuleRef)) : Prop :=
  ∀ i, slots[i]? = some none →
    loopIdx < (present (slots.take i)).countP fun m => (modules m).applicable f

def LookupClear (w : RegistryUse) : RegistryCall → Prop
  | .lookup loopIdx f => ClearTo w.registry.modules f loopIdx w.registry.slots
  | _ => True

section Loop

variable {modules : ModuleRef → AosModule} {f : DriverFilter} {loopIdx found : Nat}
  {slots : List (Option ModuleRef)} {reads : List ModuleRef} {r : Option ModuleRef}

@[simp] theorem present_nil : present [] = [] := rfl

@[simp] theorem present_none (slots : List (Option ModuleRef)) :
    present (none :: slots) = present slots := rfl

@[simp] theorem present_some (m : ModuleRef) (slots : List (Option ModuleRef)) :
    present (some m :: slots) = m :: present slots := rfl

theorem present_append (l r : List (Option ModuleRef)) :
    present (l ++ r) = present l ++ present r := List.filterMap_append

theorem mem_present {m : ModuleRef} : m ∈ present slots ↔ some m ∈ slots := by
  simp [present]

-- The condition on the slots from some slot on, with `found` matches before it.
def ClearFrom (modules : ModuleRef → AosModule) (f : DriverFilter) (loopIdx found : Nat)
    (slots : List (Option ModuleRef)) : Prop :=
  ∀ i, slots[i]? = some none →
    loopIdx < found + (present (slots.take i)).countP fun m => (modules m).applicable f

theorem clearFrom_none (hle : found ≤ loopIdx) :
    ¬ ClearFrom modules f loopIdx found (none :: slots) := fun h => by
  have hlt := h 0 rfl
  rw [List.take_zero, present_nil, List.countP_nil] at hlt
  omega

theorem clearFrom_some {m : ModuleRef} :
    ClearFrom modules f loopIdx found (some m :: slots) ↔
      ClearFrom modules f loopIdx
        (found + if (modules m).applicable f then 1 else 0) slots := by
  have hcount : ∀ i, (present ((some m :: slots).take (i + 1))).countP
        (fun m => (modules m).applicable f) =
      (present (slots.take i)).countP (fun m => (modules m).applicable f) +
        if (modules m).applicable f then 1 else 0 := fun i => by
    rw [List.take_succ_cons, present_some, List.countP_cons]
  constructor
  · intro h i hi
    have hlt := h (i + 1) hi
    rw [hcount] at hlt
    omega
  · rintro h (_ | i) hi
    · cases hi
    · have hlt := h i hi
      rw [hcount]
      omega

-- What is still to be found, where `found` matches came before.
def wanted (modules : ModuleRef → AosModule) (f : DriverFilter) (loopIdx found : Nat)
    (slots : List (Option ModuleRef)) : Option ModuleRef :=
  ((present slots).filter fun m => (modules m).applicable f)[loopIdx - found]?

-- The loop follows no hole exactly if the condition holds, and then it finds its module.
theorem driverLoop_spec (modules : ModuleRef → AosModule) (f : DriverFilter)
    (slots : List (Option ModuleRef)) (hle : found ≤ loopIdx) :
    (ClearFrom modules f loopIdx found slots ∧ ∃ reads,
        driverLoop modules f loopIdx slots found =
          .ok (reads, wanted modules f loopIdx found slots) ∧
        ∀ m ∈ reads, m ∈ present slots) ∨
      ¬ ClearFrom modules f loopIdx found slots ∧
        driverLoop modules f loopIdx slots found = .error .null := by
  induction slots generalizing found with
  | nil => exact .inl ⟨fun _ hi => (by cases hi), [], rfl, List.forall_mem_nil _⟩
  | cons slot slots ih =>
      cases slot with
      | none => exact .inr ⟨clearFrom_none hle, rfl⟩
      | some m =>
          rw [clearFrom_some, driverLoop]
          by_cases happ : (modules m).applicable f = true
          · rw [if_pos happ, if_neg (by simp [happ])]
            have hfilter : wanted modules f loopIdx found (some m :: slots) =
                (m :: (present slots).filter fun m => (modules m).applicable f)[loopIdx - found]? := by
              rw [wanted, present_some, List.filter_cons, if_pos happ]
            by_cases hhere : loopIdx = found
            · rw [if_neg (by simp [hhere]), hfilter, hhere, Nat.sub_self]
              exact .inl ⟨fun i _ => by omega, [m], rfl, by simp⟩
            · rw [if_pos hhere, hfilter,
                show loopIdx - found = (loopIdx - (found + 1)) + 1 by omega, List.getElem?_cons_succ]
              obtain ⟨hclear, reads, hrun, hreads⟩ | ⟨hclear, hrun⟩ :=
                ih (show found + 1 ≤ loopIdx by omega)
              · refine .inl ⟨hclear, m :: reads, by rw [hrun]; rfl, ?_⟩
                exact List.forall_mem_cons.mpr ⟨by simp, fun m' hm' => by simp [hreads m' hm']⟩
              · exact .inr ⟨hclear, by rw [hrun]; rfl⟩
          · rw [if_neg happ, Nat.add_zero, if_pos (by simp [happ])]
            have hfilter : wanted modules f loopIdx found (some m :: slots) =
                wanted modules f loopIdx found slots := by
              rw [wanted, present_some, List.filter_cons, if_neg happ, wanted]
            rw [hfilter]
            obtain ⟨hclear, reads, hrun, hreads⟩ | ⟨hclear, hrun⟩ := ih hle
            · refine .inl ⟨hclear, m :: reads, by rw [hrun]; rfl, ?_⟩
              exact List.forall_mem_cons.mpr ⟨by simp, fun m' hm' => by simp [hreads m' hm']⟩
            · exact .inr ⟨hclear, by rw [hrun]; rfl⟩

end Loop

section Table

variable {s : Registry} {slots : List (Option ModuleRef)} {i : Nat} {m : ModuleRef}

-- Filling a hole adds the module.
theorem present_set (h : slots[i]? = some none) :
    (present (slots.set i (some m))).Perm (m :: present slots) := by
  obtain ⟨hi, hnone⟩ := List.getElem?_eq_some_iff.mp h
  have hslots : slots = slots.take i ++ none :: slots.drop (i + 1) := by
    rw [← hnone, List.getElem_cons_drop, List.take_append_drop]
  have hpresent : present slots = present (slots.take i) ++ present (slots.drop (i + 1)) := by
    rw [hslots, present_append, present_none, ← hslots]
  rw [List.set_eq_take_append_cons_drop, if_pos hi, present_append, present_some, hpresent]
  exact List.perm_middle

theorem present_clear (slots : List (Option ModuleRef)) (m : ModuleRef) :
    present (slots.map fun slot => if slot = some m then none else slot) =
      (present slots).filter (· ≠ m) := by
  induction slots with
  | nil => rfl
  | cons slot slots ih =>
      rw [List.map_cons]
      cases slot with
      | none => simpa using ih
      | some x =>
          by_cases hx : x = m
          · rw [if_pos (congrArg some hx), present_none, ih, present_some,
              List.filter_cons_of_neg (by simp [hx])]
          · rw [if_neg (by simpa using hx), present_some, ih, present_some,
              List.filter_cons_of_pos (by simp [hx])]

-- The table is as long as it says, and there is room for what is in it.
structure TableInv (s : Registry) : Prop where
  room : s.registeredModuleCount ≤ s.registeredModuleCap
  size : (s.registeredModules.getD []).length = s.registeredModuleCap

theorem slots_setSlot (s : Registry) (i : Nat) (m : Option ModuleRef) :
    (s.setSlot i m).slots = s.slots.set i m := by
  unfold Registry.slots Registry.setSlot
  cases s.registeredModules with
  | none => simp
  | some table => exact List.take_set ..

theorem TableInv.setSlot (h : TableInv s) (i : Nat) (m : Option ModuleRef) :
    TableInv (s.setSlot i m) := by
  refine ⟨h.room, Eq.trans ?_ h.size⟩
  unfold Registry.setSlot
  cases s.registeredModules with
  | none => rfl
  | some table => exact List.length_set

theorem slots_markRegistered (s : Registry) (m : ModuleRef) :
    (s.markRegistered m).slots = s.slots := rfl

theorem TableInv.markRegistered (h : TableInv s) (m : ModuleRef) :
    TableInv (s.markRegistered m) := ⟨h.room, h.size⟩

theorem TableInv.push (h : TableInv s) (hroom : s.registeredModuleCount < s.registeredModuleCap)
    (m : ModuleRef) :
    TableInv (s.push m) ∧ (s.push m).slots = s.slots ++ [some m] := by
  have hsize := h.size
  have hopened : TableInv { s with registeredModuleCount := s.registeredModuleCount + 1 } :=
    ⟨hroom, hsize⟩
  refine ⟨(hopened.setSlot _ _).markRegistered m, ?_⟩
  rw [Registry.push, slots_markRegistered, slots_setSlot]
  simp only [Registry.slots]
  rw [List.take_add_one, List.getElem?_eq_getElem (by omega), Option.toList_some,
    List.set_append_right _ _ (by rw [List.length_take]; omega), List.length_take, Nat.min_eq_left (by omega), Nat.sub_self]
  rfl

theorem TableInv.grow (h : TableInv s) (fresh : Nat → Option ModuleRef) :
    TableInv (s.grow fresh) ∧ (s.grow fresh).slots = s.slots := by
  have hroom := h.room
  have hsize := h.size
  refine ⟨⟨Nat.le_add_right_of_le hroom, ?_⟩, List.ext_getElem? fun i => ?_⟩
  · rw [Registry.grow, Option.getD_some, List.length_map, List.length_range]
  · rw [Registry.slots, Registry.slots, Registry.grow, Option.getD_some, List.getElem?_take,
      List.getElem?_take]
    by_cases hi : i < s.registeredModuleCount
    · rw [if_pos hi, if_pos hi, List.getElem?_map, List.getElem?_range (by omega)]
      cases htable : s.registeredModules with
      | none =>
          rw [htable] at hsize
          simp only [Option.getD_none, List.length_nil] at hsize
          omega
      | some table =>
          rw [htable, Option.getD_some] at hsize
          simp only [Option.map_some, Option.getD_some]
          rw [if_pos hi, List.getD_eq_getElem?_getD, List.getElem?_eq_getElem (by omega),
            Option.getD_some]
    · rw [if_neg hi, if_neg hi]

-- What module_register does to the table.
theorem register_spec (h : TableInv s) (fresh : Option (Nat → Option ModuleRef)) (m : ModuleRef) :
    TableInv (moduleRegister fresh m s).2 ∧
      ((moduleRegister fresh m s).1 = true ∧
          (present (moduleRegister fresh m s).2.slots).Perm (m :: present s.slots) ∨
        (moduleRegister fresh m s).1 = false ∧ (moduleRegister fresh m s).2 = s) := by
  have happend : ∀ {t : Registry}, t.slots = s.slots ++ [some m] →
      (present t.slots).Perm (m :: present s.slots) := fun ht => by
    rw [ht, present_append]
    exact List.perm_append_comm
  unfold moduleRegister
  split
  · rename_i i hfind
    obtain ⟨hi, hnone, -⟩ := List.findIdx?_eq_some_iff_getElem.mp hfind
    refine ⟨(h.setSlot i _).markRegistered m, .inl ⟨rfl, ?_⟩⟩
    dsimp only
    rw [slots_markRegistered, slots_setSlot]
    exact present_set (by rw [List.getElem?_eq_getElem hi, Option.isNone_iff_eq_none.mp hnone])
  · split
    · cases fresh with
      | none => exact ⟨h, .inr ⟨rfl, rfl⟩⟩
      | some fresh =>
          obtain ⟨hgrown, hslots⟩ := h.grow fresh
          have hroom := h.room
          obtain ⟨hpushed, hslots'⟩ := hgrown.push
            (show s.registeredModuleCount < s.registeredModuleCap + 16 by omega) m
          exact ⟨hpushed, .inl ⟨rfl, happend (by rw [hslots', hslots])⟩⟩
    · rename_i hfull
      simp only [Bool.or_eq_true, decide_eq_true_eq, not_or, Nat.not_le] at hfull
      obtain ⟨hpushed, hslots⟩ := h.push hfull.2 m
      exact ⟨hpushed, .inl ⟨rfl, happend hslots⟩⟩

theorem slots_clearSlots (h : TableInv s) (m : ModuleRef) :
    (clearSlots m s).slots = s.slots.map fun slot => if slot = some m then none else slot := by
  have hroom := h.room
  have hsize := h.size
  unfold clearSlots Registry.slots
  cases htable : s.registeredModules with
  | none => simp
  | some table =>
      rw [htable, Option.getD_some] at hsize
      simp only [Option.map_some, Option.getD_some]
      rw [List.take_append_of_le_length (by
        rw [List.length_map, List.length_take]
        omega), List.take_of_length_le (by
        rw [List.length_map, List.length_take]
        omega)]

theorem TableInv.clearSlots (h : TableInv s) (m : ModuleRef) : TableInv (clearSlots m s) := by
  refine ⟨h.room, Eq.trans ?_ h.size⟩
  unfold Core.clearSlots
  cases s.registeredModules with
  | none => rfl
  | some table =>
      simp only [Option.map_some, Option.getD_some, List.length_append, List.length_map,
        List.length_take, List.length_drop]
      omega

theorem present_clearSlots (h : TableInv s) (m : ModuleRef) :
    present (clearSlots m s).slots = (present s.slots).filter (· ≠ m) := by
  rw [slots_clearSlots h, present_clear]

end Table

section Runs

variable {w t : RegistryUse} {c : RegistryCall}

structure RegistryInv (w : RegistryUse) : Prop where
  table : TableInv w.registry
  faithful : Faithful w

theorem RegistryInv.mem_iff (h : RegistryInv w) {m : ModuleRef} :
    m ∈ present w.registry.slots ↔ m ∈ w.registered := h.faithful.2.mem_iff

theorem start_inv (modules : ModuleRef → AosModule) : RegistryInv (RegistryUse.start modules) :=
  ⟨⟨Nat.le_refl _, rfl⟩, List.nodup_nil, .nil⟩

theorem registryStep_inv (h : RegistryInv w) (hs : RegistryStep w c t) : RegistryInv t := by
  have hclear : ∀ m, Faithful ⟨clearSlots m w.registry, w.registered.filter (· ≠ m)⟩ := fun m => by
    have hpresent := present_clearSlots h.table m
    refine ⟨?_, ?_⟩
    · rw [hpresent]
      exact h.faithful.1.filter _
    · rw [hpresent]
      exact h.faithful.2.filter _
  cases hs with
  | @register fresh m hnew =>
      obtain ⟨htable, ⟨hdone, hperm⟩ | ⟨hfail, hsame⟩⟩ := register_spec h.table fresh m
      · rw [if_pos hdone]
        refine ⟨htable, ?_, hperm.trans (h.faithful.2.cons m)⟩
        rw [hperm.nodup_iff, List.nodup_cons, h.mem_iff]
        exact ⟨hnew, h.faithful.1⟩
      · rw [if_neg (by simp [hfail]), hsame]
        exact h
  | @unregister m => exact ⟨h.table.clearSlots m, hclear m⟩
  | @unregisterDealloc m =>
      have htable := h.table.clearSlots m
      exact ⟨⟨htable.room, htable.size⟩, hclear m⟩
  | lookup => exact h
  | alreadyInitialized => exact h

theorem right_iff (h : RegistryInv w) (c : RegistryCall) : Right w c ↔ LookupClear w c := by
  cases c with
  | register fresh m => exact Iff.rfl
  | unregister m => exact Iff.rfl
  | unregisterDealloc m => exact Iff.rfl
  | lookup loopIdx f =>
      have hclear : ClearFrom w.registry.modules f loopIdx 0 w.registry.slots ↔
          ClearTo w.registry.modules f loopIdx w.registry.slots := by
        simp only [ClearFrom, ClearTo, Nat.zero_add]
      obtain ⟨hok, reads, hrun, hreads⟩ | ⟨hno, hrun⟩ :=
        driverLoop_spec w.registry.modules f w.registry.slots (Nat.zero_le loopIdx)
      · exact ⟨fun _ => hclear.mp hok,
          fun _ => ⟨reads, hrun, fun m hm => h.mem_iff.mp (hreads m hm)⟩⟩
      · refine ⟨?_, fun hyes => absurd (hclear.mpr hyes) hno⟩
        rintro ⟨reads, hrun', -⟩
        rw [moduleGetApplicableRegisteredDriver, hrun] at hrun'
        cases hrun'
  | alreadyInitialized m =>
      refine ⟨fun _ => trivial, fun _ => ?_⟩
      rw [Right, ← h.mem_iff, mem_present, moduleAlreadyInitialized, List.any_eq_true]
      simp

end Runs

-- Exactly then every call of a run is answered right: no lookup comes to a hole. The table
-- is faithful all the same.
theorem registry_right_iff {modules : ModuleRef → AosModule}
    {past : List (RegistryUse × RegistryCall)} {w : RegistryUse}
    (h : Trace RegistryStep (RegistryUse.start modules) past w) :
    (Trace.Always Faithful past w ∧ Trace.Admits Right past) ↔ Trace.Admits LookupClear past := by
  have hinv : Trace.Always RegistryInv past w :=
    Trace.always_of_admits (start_inv modules) (fun _ _ _ hI _ hs => registryStep_inv hI hs)
      (fun _ hI => hI) h (show Trace.Admits (fun _ _ => True) past from fun _ _ => trivial)
  rw [and_iff_right ⟨fun x hx => (hinv.1 x hx).faithful, hinv.2.faithful⟩]
  exact forall₂_congr fun x hx => right_iff (hinv.1 x hx) x.2

-- A driver for SATA controllers, and what it is looked for by.
def sataDriver : AosModule := ⟨.driver, false, 1, 6, 1, 1, 0, 0, 0, 0⟩

def sataFilter : DriverFilter := ⟨1, 6, 1, 1, 1, 0, 0, 0, 0⟩

-- One driver is registered.
theorem trace_register : ∃ w, Trace RegistryStep (RegistryUse.start fun _ => sataDriver)
    [(RegistryUse.start fun _ => sataDriver, .register (some fun _ => none) 1)] w ∧
    w.registry.slots = [some 1] :=
  ⟨_, Trace.nil.snoc (show RegistryStep _ (.register (some fun _ => none) 1) _ from
    .register List.not_mem_nil), rfl⟩

theorem registry_right_iff_one :
    ∃ past w, Trace RegistryStep (RegistryUse.start fun _ => sataDriver) past w ∧
      past.map Prod.snd = [.register (some fun _ => none) 1, .lookup 0 sataFilter] ∧
      ((Trace.Always Faithful past w ∧ Trace.Admits Right past) ↔
        Trace.Admits LookupClear past) := by
  obtain ⟨w, hrun, -⟩ := trace_register
  have hrun' := hrun.snoc (show RegistryStep w (.lookup 0 sataFilter) w from .lookup)
  exact ⟨_, w, hrun', rfl, registry_right_iff hrun'⟩

-- The hole that an unregistered module leaves is followed.
theorem lookup_follows_hole :
    ∃ past w, Trace RegistryStep (RegistryUse.start fun _ => sataDriver) past w ∧
      past.map Prod.snd =
        [.register (some fun _ => none) 1, .unregister 1, .lookup 0 sataFilter] ∧
      ¬ Trace.Admits Right past := by
  obtain ⟨w, hrun, hslots⟩ := trace_register
  have hinv : RegistryInv w :=
    hrun.invariant (start_inv _) fun _ _ _ hI hs => registryStep_inv hI hs
  obtain ⟨u, hu, hhole⟩ : ∃ u, RegistryStep w (.unregister 1) u ∧ u.registry.slots = [none] := by
    refine ⟨_, .unregister, ?_⟩
    rw [moduleUnregister, slots_clearSlots hinv.table, hslots]
    rfl
  refine ⟨_, u, (hrun.snoc hu).snoc (show RegistryStep u (.lookup 0 sataFilter) u from .lookup), rfl,
    fun hall => ?_⟩
  obtain ⟨reads, hfind, -⟩ := (Trace.admits_snoc.mp hall).2
  rw [moduleGetApplicableRegisteredDriver, hhole] at hfind
  cases hfind

end AosKernel.Core
