import AosKernel.Io.Pcie
import AosKernel.Lib.Orbit

namespace AosKernel.Gpu

open Verif Io

-- struct virtio_cap
structure VirtioCap where
  capPtr : UInt8
  bar : UInt8
  offset : UInt32
  length : UInt32
  deriving DecidableEq

-- struct virtio_cap cap = {0}
def VirtioCap.zero : VirtioCap := ⟨0, 0, 0, 0⟩

section Search

-- The function whose configuration space is searched.
variable (mcfgTable : Option (List AcpiMcfgEntry)) (b s f : Nat)

def readCap (offset : UInt8) (m : PcieSpace) : UInt32 × PcieSpace :=
  pcieRead mcfgTable b s f offset.toNat m

-- The loop of get_cap, unless it takes `fuel` iterations or more: whether there is a
-- capability, the capability, and the space after the accesses.
def getCapLoop (targetType : UInt8) : Nat → UInt8 → PcieSpace →
    Option (Bool × VirtioCap × PcieSpace)
  | 0, _, _ => none
  | fuel + 1, capPtr, m =>
      if capPtr = 0 then some (false, VirtioCap.zero, m)
      else
        let (hdr, m) := readCap mcfgTable b s f capPtr m
        let capId := hdr.toUInt8
        let capNext := (hdr >>> 8).toUInt8
        let cfgType := (hdr >>> 24).toUInt8
        if capId = 0x09 then
          let (barinfo, m) := readCap mcfgTable b s f (capPtr + 4) m
          let bar := barinfo.toUInt8
          if cfgType = targetType ∧ bar < 6 then
            let (offset, m) := readCap mcfgTable b s f (capPtr + 8) m
            let (length, m) := readCap mcfgTable b s f (capPtr + 12) m
            some (true, ⟨capPtr, bar, offset, length⟩, m)
          else getCapLoop targetType fuel capNext m
        else getCapLoop targetType fuel capNext m

def getCap (targetType : UInt8) (fuel : Nat) (m : PcieSpace) :
    Option (Bool × VirtioCap × PcieSpace) :=
  let (capPtr, m) := readCap mcfgTable b s f 0x34 m
  getCapLoop mcfgTable b s f targetType fuel capPtr.toUInt8 m

end Search

-- The configuration space of a device, by dwords.
structure ConfigSpace where
  dword : UInt8 → UInt32

namespace ConfigSpace

variable (c : ConfigSpace)

-- The pointer at an offset, and the ones that follow it.
def first : UInt8 := (c.dword 0x34).toUInt8

def next (p : UInt8) : UInt8 := (c.dword p >>> 8).toUInt8

def link (k : Nat) : UInt8 := c.next^[k] c.first

def barAt (p : UInt8) : UInt8 := (c.dword (p + 4)).toUInt8

-- A vendor capability of the type, with a BAR that there is.
def Wanted (targetType : UInt8) (p : UInt8) : Prop :=
  (c.dword p).toUInt8 = 0x09 ∧ (c.dword p >>> 24).toUInt8 = targetType ∧ c.barAt p < 6

def capAt (p : UInt8) : VirtioCap := ⟨p, c.barAt p, c.dword (p + 8), c.dword (p + 12)⟩

-- The chain has not ended before its `k`-th pointer, nor there.
def OnChain (k : Nat) : Prop := ∀ j ≤ k, c.link j ≠ 0

-- Nothing follows on the pointer, for a search of the type.
def Last (targetType : UInt8) (p : UInt8) : Prop := p = 0 ∨ c.Wanted targetType p

-- What get_cap is to return.
structure Finds (targetType : UInt8) (valid : Bool) (cap : VirtioCap) : Prop where
  valid_iff : valid = true ↔ ∃ k, c.OnChain k ∧ c.Wanted targetType (c.link k)
  first : valid = true → ∃ k, c.OnChain k ∧ c.Wanted targetType (c.link k) ∧
    (∀ j < k, ¬ c.Wanted targetType (c.link j)) ∧ cap = c.capAt (c.link k)

end ConfigSpace

-- What the function shows of its configuration space.
def configSpace (mcfgTable : Option (List AcpiMcfgEntry)) (b s f : Nat) (m : PcieSpace) :
    ConfigSpace where
  dword p := m.dword (pcieReadAt mcfgTable b s f p.toNat)

section Proofs

variable {mcfgTable : Option (List AcpiMcfgEntry)} {b s f : Nat} {targetType capPtr : UInt8}
  {m : PcieSpace} {fuel : Nat} {valid : Bool} {cap : VirtioCap} {m' : PcieSpace}

-- A read gives the dword, and leaves what there is to see.
theorem load_eq (m : PcieSpace) (read : PcieDword) :
    (m.load read).1 = m.dword read ∧ ∀ other, (m.load read).2.dword other = m.dword other := by
  cases read with
  | mmio virtAddr => exact ⟨rfl, fun _ => rfl⟩
  | port addr => exact ⟨rfl, fun other => by cases other <;> rfl⟩

theorem readCap_fst (mcfgTable : Option (List AcpiMcfgEntry)) (b s f : Nat) (p : UInt8)
    (m : PcieSpace) :
    (readCap mcfgTable b s f p m).1 = (configSpace mcfgTable b s f m).dword p :=
  (load_eq m _).1

theorem readCap_snd (mcfgTable : Option (List AcpiMcfgEntry)) (b s f : Nat) (p : UInt8)
    (m : PcieSpace) : configSpace mcfgTable b s f (readCap mcfgTable b s f p m).2 =
      configSpace mcfgTable b s f m := by
  unfold configSpace
  congr 1
  funext q
  exact (load_eq m _).2 _

-- What an iteration does, and that it leaves what there is to see.
theorem getCapLoop_null (m : PcieSpace) :
    getCapLoop mcfgTable b s f targetType (fuel + 1) 0 m = some (false, VirtioCap.zero, m) := rfl

theorem getCapLoop_wanted (fuel : Nat) (hp : capPtr ≠ 0)
    (hwanted : (configSpace mcfgTable b s f m).Wanted targetType capPtr) :
    ∃ m', getCapLoop mcfgTable b s f targetType (fuel + 1) capPtr m =
      some (true, (configSpace mcfgTable b s f m).capAt capPtr, m') := by
  obtain ⟨hid, htype, hbar⟩ := hwanted
  unfold ConfigSpace.barAt at hbar
  simp only [getCapLoop, if_neg hp, readCap_fst, readCap_snd, hid, htype, hbar, and_self, if_true]
  exact ⟨_, rfl⟩

theorem getCapLoop_other (fuel : Nat) (hp : capPtr ≠ 0)
    (hother : ¬ (configSpace mcfgTable b s f m).Wanted targetType capPtr) :
    ∃ m', configSpace mcfgTable b s f m' = configSpace mcfgTable b s f m ∧
      getCapLoop mcfgTable b s f targetType (fuel + 1) capPtr m =
        getCapLoop mcfgTable b s f targetType fuel
          ((configSpace mcfgTable b s f m).next capPtr) m' := by
  simp only [getCapLoop, if_neg hp, readCap_fst, readCap_snd]
  by_cases hid : ((configSpace mcfgTable b s f m).dword capPtr).toUInt8 = 0x09
  · have hrest : ¬ (((configSpace mcfgTable b s f m).dword capPtr >>> 24).toUInt8 = targetType ∧
        ((configSpace mcfgTable b s f m).dword (capPtr + 4)).toUInt8 < 6) :=
      fun h => hother ⟨hid, h⟩
    rw [if_pos hid, if_neg hrest]
    exact ⟨_, by rw [readCap_snd, readCap_snd], rfl⟩
  · rw [if_neg hid]
    exact ⟨_, readCap_snd mcfgTable b s f capPtr m, rfl⟩

-- The loop comes to the first pointer on which nothing follows, and answers for it.
theorem getCapLoop_some (h : getCapLoop mcfgTable b s f targetType fuel capPtr m =
    some (valid, cap, m')) :
    ∃ k, (∀ j < k, ¬ (configSpace mcfgTable b s f m).Last targetType
        ((configSpace mcfgTable b s f m).next^[j] capPtr)) ∧
      ((configSpace mcfgTable b s f m).next^[k] capPtr = 0 ∧ valid = false ∨
        (configSpace mcfgTable b s f m).next^[k] capPtr ≠ 0 ∧
          (configSpace mcfgTable b s f m).Wanted targetType
            ((configSpace mcfgTable b s f m).next^[k] capPtr) ∧ valid = true ∧
          cap = (configSpace mcfgTable b s f m).capAt
            ((configSpace mcfgTable b s f m).next^[k] capPtr)) := by
  induction fuel generalizing capPtr m with
  | zero => cases h
  | succ fuel ih =>
      by_cases hp : capPtr = 0
      · subst hp
        rw [getCapLoop_null] at h
        cases h
        exact ⟨0, fun j hj => absurd hj (Nat.not_lt_zero j), .inl ⟨rfl, rfl⟩⟩
      by_cases hwanted : (configSpace mcfgTable b s f m).Wanted targetType capPtr
      · obtain ⟨m'', hloop⟩ := getCapLoop_wanted fuel hp hwanted
        rw [hloop] at h
        cases h
        exact ⟨0, fun j hj => absurd hj (Nat.not_lt_zero j), .inr ⟨hp, hwanted, rfl, rfl⟩⟩
      · obtain ⟨m'', hsame, hloop⟩ := getCapLoop_other fuel hp hwanted
        rw [hloop] at h
        obtain ⟨k, hbefore, hat⟩ := ih h
        rw [hsame] at hbefore hat
        refine ⟨k + 1, fun j hj => ?_, hat⟩
        cases j with
        | zero => exact fun hlast => hlast.elim hp hwanted
        | succ j => exact hbefore j (Nat.lt_of_succ_lt_succ hj)

-- The loop ends where some pointer is one on which nothing follows.
theorem getCapLoop_ends {k : Nat} (hlast : (configSpace mcfgTable b s f m).Last targetType
    ((configSpace mcfgTable b s f m).next^[k] capPtr)) :
    (getCapLoop mcfgTable b s f targetType (k + 1) capPtr m).isSome := by
  induction k generalizing capPtr m with
  | zero =>
      by_cases hp : capPtr = 0
      · subst hp
        rfl
      · obtain ⟨m'', hloop⟩ := getCapLoop_wanted 0 hp (hlast.resolve_left hp)
        rw [hloop]
        rfl
  | succ k ih =>
      by_cases hp : capPtr = 0
      · subst hp
        rfl
      by_cases hwanted : (configSpace mcfgTable b s f m).Wanted targetType capPtr
      · obtain ⟨m'', hloop⟩ := getCapLoop_wanted (k + 1) hp hwanted
        rw [hloop]
        rfl
      · obtain ⟨m'', hsame, hloop⟩ := getCapLoop_other (k + 1) hp hwanted
        rw [hloop]
        exact ih (by rwa [hsame])

end Proofs

section Result

variable (mcfgTable : Option (List AcpiMcfgEntry)) (b s f : Nat) (targetType : UInt8)
  (m : PcieSpace)

-- The search ends, and what it returns is what it is to return.
structure SearchesChain : Prop where
  ends : ∃ fuel, (getCap mcfgTable b s f targetType fuel m).isSome
  finds : ∀ fuel valid cap m', getCap mcfgTable b s f targetType fuel m = some (valid, cap, m') →
    (configSpace mcfgTable b s f m).Finds targetType valid cap

theorem getCap_eq (fuel : Nat) : ∃ m', configSpace mcfgTable b s f m' =
      configSpace mcfgTable b s f m ∧ getCap mcfgTable b s f targetType fuel m =
        getCapLoop mcfgTable b s f targetType fuel (configSpace mcfgTable b s f m).first m' := by
  refine ⟨_, readCap_snd mcfgTable b s f 0x34 m, ?_⟩
  unfold getCap ConfigSpace.first
  rw [← readCap_fst]

variable {mcfgTable b s f targetType m}

theorem ConfigSpace.Finds.of_last {c : ConfigSpace} {valid : Bool} {cap : VirtioCap} {k : Nat}
    (hbefore : ∀ j < k, ¬ c.Last targetType (c.link j))
    (hat : c.link k = 0 ∧ valid = false ∨
      c.link k ≠ 0 ∧ c.Wanted targetType (c.link k) ∧ valid = true ∧ cap = c.capAt (c.link k)) :
    c.Finds targetType valid cap := by
  rcases hat with ⟨hnull, rfl⟩ | ⟨hp, hwanted, rfl, rfl⟩
  · refine ⟨⟨fun h => (Bool.false_ne_true h).elim, fun ⟨j, hchain, hwanted⟩ => ?_⟩,
      fun h => (Bool.false_ne_true h).elim⟩
    rcases Nat.lt_or_ge j k with hj | hj
    · exact absurd (.inr hwanted) (hbefore j hj)
    · exact absurd hnull (hchain k hj)
  · have hchain : c.OnChain k := by
      intro j hj hnull
      rcases Nat.lt_or_eq_of_le hj with hj | rfl
      · exact hbefore j hj (.inl hnull)
      · exact hp hnull
    exact ⟨⟨fun _ => ⟨k, hchain, hwanted⟩, fun _ => rfl⟩, fun _ =>
      ⟨k, hchain, hwanted, fun j hj h => hbefore j hj (.inr h), rfl⟩⟩

theorem getCap_finds {fuel : Nat} {valid : Bool} {cap : VirtioCap} {m' : PcieSpace}
    (h : getCap mcfgTable b s f targetType fuel m = some (valid, cap, m')) :
    (configSpace mcfgTable b s f m).Finds targetType valid cap := by
  obtain ⟨m₁, hsame, hget⟩ := getCap_eq mcfgTable b s f targetType m fuel
  rw [hget] at h
  obtain ⟨k, hbefore, hat⟩ := getCapLoop_some h
  rw [hsame] at hbefore hat
  exact ConfigSpace.Finds.of_last hbefore hat

-- A search that ends came to such a pointer.
theorem last_of_ends {fuel : Nat} (h : (getCap mcfgTable b s f targetType fuel m).isSome) :
    ∃ k, (configSpace mcfgTable b s f m).Last targetType
      ((configSpace mcfgTable b s f m).link k) := by
  obtain ⟨m₁, hsame, hget⟩ := getCap_eq mcfgTable b s f targetType m fuel
  obtain ⟨⟨valid, cap, m'⟩, hsome⟩ := Option.isSome_iff_exists.mp h
  rw [hget] at hsome
  obtain ⟨k, _, hat⟩ := getCapLoop_some hsome
  rw [hsame] at hat
  exact ⟨k, hat.imp And.left fun h => h.2.1⟩

theorem getCap_searches_iff : SearchesChain mcfgTable b s f targetType m ↔
    ∃ k < 256, (configSpace mcfgTable b s f m).Last targetType
      ((configSpace mcfgTable b s f m).link k) := by
  constructor
  · rintro ⟨⟨fuel, hends⟩, _⟩
    exact orbit_stops (fun _ _ h => UInt8.toNat_inj.mp h) (fun p => p.toNat_lt) (last_of_ends hends)
  · rintro ⟨k, _, hlast⟩
    refine ⟨⟨k + 1, ?_⟩, fun _ _ _ _ h => getCap_finds h⟩
    obtain ⟨m₁, hsame, hget⟩ := getCap_eq mcfgTable b s f targetType m (k + 1)
    rw [hget]
    exact getCapLoop_ends (by rwa [hsame])

-- A vendor capability at 0x40 of type 0 that names itself as the next one.
def selfLinked : PcieSpace where
  mmio _ := 0
  config addr := if addr % 256 = 0x34 then 0x40 else if addr % 256 = 0x40 then 0x00004009 else 0
  cf8 := 0

-- It is the whole of the chain, for whom another type is wanted.
theorem getCap_not_searches : ¬ SearchesChain none 0 0 0 1 selfLinked := by
  rintro ⟨⟨fuel, hends⟩, _⟩
  obtain ⟨k, hlast⟩ := last_of_ends hends
  have hself : (configSpace none 0 0 0 selfLinked).next 0x40 = 0x40 := by decide +kernel
  have hlink : (configSpace none 0 0 0 selfLinked).link k = 0x40 :=
    Function.iterate_fixed hself k
  rw [hlink] at hlast
  rcases hlast with hnull | ⟨_, htype, _⟩
  · exact absurd hnull (by decide)
  · exact absurd htype (by decide +kernel)

end Result

end AosKernel.Gpu
