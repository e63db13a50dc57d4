import Mathlib.Tactic.NormNum
import AosKernel.Io.SataCommand

namespace AosKernel.Io

open Verif

-- The commands address `count` sectors from `lba`, one range after the other, each
-- with chunks of memory for its sectors, and each copied from or to its part of the
-- buffer.
structure Transfers (req : SataRequest) (lba count buffer : Nat) (before after : Nat → UInt8)
    (issued : List SataIssued) : Prop where
  consecutive : Span.Row (issued.map SataIssued.sectors) lba (lba + count)
  union : ∀ x, (∃ c ∈ issued, Span.Mem x c.sectors) ↔ lba ≤ x ∧ x < lba + count
  chunks : ∀ c ∈ issued, ∃ phys, Span.Row c.chunks phys (phys + 512 * c.cfis.sectors)
  written : req.write → ∀ c ∈ issued, ∀ i < 512 * c.cfis.sectors,
    c.out i = before (buffer + 512 * (c.cfis.lba - lba) + i)
  read : ¬ req.write → ∀ c ∈ issued, ∀ i < 512 * c.cfis.sectors,
    after (buffer + 512 * (c.cfis.lba - lba) + i) = c.back i
  frame : ∀ x, (req.write ∨ x < buffer ∨ buffer + 512 * count ≤ x) → after x = before x

theorem prdtMax_eq : AHCI_MAX_PRD_LENGTH = 2 ^ 22 := rfl

theorem maxSectorsPerCmd_eq : maxSectorsPerCmd = 65535 := rfl

theorem prdtCount_le_iff (count : Nat) : prdtCount (count * 512) ≤ 256 ↔ count ≤ 2 ^ 21 := by
  simp only [prdtCount, prdtMax_eq]
  omega

section Fields

-- The two halves of an address are put together again.
theorem address_halves {address : Nat} (h : address < 2 ^ 64) :
    ((address >>> 32) % 2 ^ 32) <<< 32 + (address &&& 0xFFFFFFFF) = address := by
  have hlow : address &&& 0xFFFFFFFF = address % 2 ^ 32 := Nat.and_two_pow_sub_one_eq_mod _ 32
  rw [hlow, Nat.shiftRight_eq_div_pow, Nat.shiftLeft_eq]
  omega

theorem fillPrdt_row (prdts remaining address idx : Nat) (h : address + remaining ≤ 2 ^ 64) :
    Span.Row ((fillPrdt prdts remaining address idx).map SataHbaPrdtEntry.span) address
      (address + remaining) := by
  induction remaining, address, idx using fillPrdt.induct with
  | case1 remaining address idx hpos ih =>
      have hchunk := chunkSize_eq remaining
      have hle : chunkSize remaining ≤ remaining := by omega
      have hdbc : (chunkSize remaining - 1) % 2 ^ 22 + 1 = chunkSize remaining := by omega
      have hrest := ih (by omega)
      rw [Nat.add_assoc, Nat.add_sub_cancel' hle] at hrest
      rw [fillPrdt, if_pos hpos, List.map_cons]
      refine ⟨address_halves (by omega), Nat.succ_pos _, ?_⟩
      simp only [SataHbaPrdtEntry.span, Span.limit]
      rw [address_halves (by omega), hdbc]
      exact hrest
  | case2 remaining address idx hzero =>
      rw [fillPrdt, if_neg hzero]
      exact (show remaining = 0 by omega) ▸ rfl

theorem fillPrdt_length (prdts remaining address idx : Nat) :
    (fillPrdt prdts remaining address idx).length = prdtCount remaining := by
  induction remaining, address, idx using fillPrdt.induct with
  | case1 remaining address idx hpos ih =>
      rw [fillPrdt, if_pos hpos, List.length_cons, ih]
      have hchunk := chunkSize_eq remaining
      simp only [prdtCount, prdtMax_eq]
      omega
  | case2 remaining address idx hzero =>
      rw [fillPrdt, if_neg hzero, List.length_nil]
      simp only [prdtCount, prdtMax_eq]
      omega

variable {req : SataRequest} {lba count : Nat}

theorem buildFis_lba (hlba : req.hasLba) (h : lba < 2 ^ 48) : (buildFis req lba count).lba = lba := by
  have hbytes : lba % 2 ^ 8 + (lba >>> 8 % 2 ^ 8) <<< 8 + (lba >>> 16 % 2 ^ 8) <<< 16 +
      (lba >>> 24 % 2 ^ 8) <<< 24 + (lba >>> 32 % 2 ^ 8) <<< 32 + (lba >>> 40 % 2 ^ 8) <<< 40 =
      lba := by
    simp only [Nat.shiftRight_eq_div_pow, Nat.shiftLeft_eq]
    omega
  simp only [buildFis, hlba, if_true]
  split <;> exact hbytes

theorem buildFis_sectors (hcount : req.hasCount) :
    (buildFis req lba count).sectors = if count % 65536 = 0 then 65536 else count % 65536 := by
  have hfield : (count &&& 0xFF) + (count >>> 8 &&& 0xFF) <<< 8 = count % 65536 := by
    have hlow : count &&& 0xFF = count % 2 ^ 8 := Nat.and_two_pow_sub_one_eq_mod _ 8
    have hhigh : count >>> 8 &&& 0xFF = count >>> 8 % 2 ^ 8 := Nat.and_two_pow_sub_one_eq_mod _ 8
    rw [hlow, hhigh, Nat.shiftRight_eq_div_pow, Nat.shiftLeft_eq]
    omega
  simp only [buildFis, hcount, if_true, SataFisRegH2d.sectors, hfield]

theorem buildFis_sectors_le (hcount : req.hasCount) : (buildFis req lba count).sectors ≤ 65536 := by
  rw [buildFis_sectors hcount]
  split <;> omega

-- A count of up to 65536 fits its field.
theorem buildFis_sectors_eq (hcount : req.hasCount) (hpos : 1 ≤ count) (hle : count ≤ 65536) :
    (buildFis req lba count).sectors = count := by
  rw [buildFis_sectors hcount]
  split <;> omega

end Fields

section Commands

variable {port : SataPortState} {req : SataRequest} {run : SataRun} {runs : List SataRun}
  {lba count buffer : Nat} {mem : Nat → UInt8} {s t : SataState}

theorem sectors_base (c : SataIssued) : c.sectors.base = c.cfis.lba := rfl

theorem sectors_limit (c : SataIssued) : c.sectors.limit = c.cfis.lba + c.cfis.sectors := rfl

theorem union_of_row {issued : List SataIssued} {lo hi : Nat}
    (h : Span.Row (issued.map SataIssued.sectors) lo hi) (x : Nat) :
    (∃ c ∈ issued, Span.Mem x c.sectors) ↔ lo ≤ x ∧ x < hi := by
  rw [← h.tiles.union x]
  simp only [List.mem_map, exists_exists_and_eq_and]

-- One command for as many sectors as its count field holds.
theorem buildCmd_transfers (hdata : req.hasData) (hlbas : req.hasLba) (hcounts : req.hasCount)
    (hbuffer : buffer ≠ 0) (hpos : 1 ≤ count) (hmax : count ≤ 65536)
    (hlba : lba + count ≤ 2 ^ 48) (hblock : (run.block (count * 512)).phys ≠ 0) (slot : Nat)
    (mem : Nat → UInt8) :
    Transfers req lba count buffer mem
      (if req.write then mem else memcpy buffer run.back (count * 512) mem)
      [buildCmd req run slot lba count buffer mem] := by
  have hfirst : (buildFis req lba count).lba = lba := buildFis_lba hlbas (by omega)
  have hsectors : (buildFis req lba count).sectors = count :=
    buildFis_sectors_eq hcounts hpos hmax
  have hspan : (buildCmd req run slot lba count buffer mem).sectors = ⟨lba, count⟩ := by
    simp only [SataIssued.sectors, SataFisRegH2d.span, buildCmd, hfirst, hsectors]
  have hrow : Span.Row ([buildCmd req run slot lba count buffer mem].map SataIssued.sectors) lba
      (lba + count) := by
    rw [List.map_singleton, hspan, Span.row_singleton]
    exact ⟨rfl, hpos, rfl⟩
  refine ⟨hrow, union_of_row hrow, ?_, ?_, ?_, ?_⟩
  · rw [List.forall_mem_singleton]
    have hfew := (prdtCount_le_iff count).mpr (by omega)
    have hprdtl : (buildCmd req run slot lba count buffer mem).hdr.prdtl =
        prdtCount (count * 512) := by
      simp only [buildCmd, hdata, if_true]
      exact Nat.mod_eq_of_lt (by omega)
    refine ⟨(run.block (count * 512)).phys, ?_⟩
    rw [SataIssued.chunks, hprdtl]
    simp only [buildCmd, hdata, if_true]
    rw [List.take_of_length_le (fillPrdt_length ..).le, hsectors, Nat.mul_comm 512]
    exact fillPrdt_row _ _ _ _ ((run.block (count * 512)).fits hblock)
  · intro hwrite
    rw [List.forall_mem_singleton]
    intro i hi
    have hlt : i < count * 512 := by
      simp only [buildCmd, hsectors] at hi
      omega
    simp only [buildCmd, hfirst, hwrite, Nat.sub_self, Nat.mul_zero, Nat.add_zero]
    simp [memcpy, hbuffer, hlt]
  · intro hread
    rw [List.forall_mem_singleton, if_neg hread]
    intro i hi
    have hlt : i < count * 512 := by
      simp only [buildCmd, hsectors] at hi
      omega
    simp only [buildCmd, hfirst, Nat.sub_self, Nat.mul_zero, Nat.add_zero, memcpy]
    rw [if_pos ⟨Nat.le_add_right _ _, by omega⟩, Nat.add_sub_cancel_left]
  · intro x hx
    split
    · rfl
    · rename_i hread
      exact if_neg (by
        obtain hwrite | hx := hx
        · exact absurd hwrite hread
        · omega)

theorem transfers_nil : Transfers req lba 0 buffer mem mem [] := by
  refine ⟨rfl, fun x => ?_, ?_, ?_, ?_, fun _ _ => rfl⟩
  · simp
  · simp
  · simp
  · simp

-- Commands for the rest of a request follow those for its first sectors.
theorem Transfers.append {first rest : Nat} {mem' mem'' : Nat → UInt8}
    {issued issued' : List SataIssued} (h : Transfers req lba first buffer mem mem' issued)
    (h' : Transfers req (lba + first) rest (buffer + first * 512) mem' mem'' issued') :
    Transfers req lba (first + rest) buffer mem mem'' (issued ++ issued') := by
  have hrow : Span.Row ((issued ++ issued').map SataIssued.sectors) lba (lba + (first + rest)) := by
    rw [List.map_append, ← Nat.add_assoc]
    exact h.consecutive.append h'.consecutive
  have hwithin : ∀ c ∈ issued, lba ≤ c.cfis.lba ∧ c.cfis.lba + c.cfis.sectors ≤ lba + first := by
    intro c hc
    have hin := h.consecutive.within (List.mem_map_of_mem hc)
    rwa [sectors_base, sectors_limit] at hin
  have hwithin' : ∀ c ∈ issued', lba + first ≤ c.cfis.lba := by
    intro c hc
    have hin := h'.consecutive.within (List.mem_map_of_mem hc)
    rw [sectors_base] at hin
    exact hin.1
  refine ⟨hrow, union_of_row hrow, ?_, ?_, ?_, ?_⟩
  · exact List.forall_mem_append.mpr ⟨h.chunks, h'.chunks⟩
  · intro hwrite
    refine List.forall_mem_append.mpr ⟨h.written hwrite, fun c hc i hi => ?_⟩
    have hle := hwithin' c hc
    rw [h'.written hwrite c hc i hi, h.frame _ (.inl hwrite)]
    congr 1
    omega
  · intro hread
    refine List.forall_mem_append.mpr ⟨fun c hc i hi => ?_, fun c hc i hi => ?_⟩
    · obtain ⟨hlo, hhi⟩ := hwithin c hc
      rw [h'.frame _ (.inr (.inl (by omega))), h.read hread c hc i hi]
    · have hle := hwithin' c hc
      rw [← h'.read hread c hc i hi]
      congr 1
      omega
  · intro x hx
    rw [h'.frame x (hx.imp_right fun hout => by omega),
      h.frame x (hx.imp_right fun hout => by omega)]

-- What a command that ends well has done.
theorem sataExecCmdInternal_done (hdata : req.hasData) (hbuffer : buffer ≠ 0)
    (h : sataExecCmdInternal port req run lba count buffer s = some (true, t)) :
    count ≤ 2 ^ 21 ∧ (run.block (count * 512)).phys ≠ 0 ∧ ∃ slot,
      t.issued = s.issued ++ [buildCmd req run slot lba count buffer s.mem] ∧
      t.mem = if req.write then s.mem else memcpy buffer run.back (count * 512) s.mem := by
  simp only [sataExecCmdInternal] at h
  split at h
  · cases h
  split at h
  · cases h
  rename_i hfew
  have hle := (prdtCount_le_iff count).mp (by
    rw [not_or] at hfew
    simp only [SATA_MAX_PRDT_STATIC_ENTRIES] at hfew
    omega)
  split at h
  · cases h
  · cases h
  split at h
  · cases h
  rename_i slot _
  split at h
  · cases h
  rename_i hblock
  split at h
  · cases h
  · cases h
  refine ⟨hle, fun hzero => hblock ⟨hdata, .inr hzero⟩, slot, ?_⟩
  by_cases hwrite : req.write
  · rw [if_neg (by simp [hwrite])] at h
    cases h
    rw [if_pos hwrite]
    exact ⟨rfl, rfl⟩
  · rw [if_pos ⟨hdata, by simpa using hwrite, hbuffer⟩] at h
    cases h
    rw [if_neg hwrite]
    exact ⟨rfl, rfl⟩

-- Whatever their number, the commands of the loop transfer all the sectors.
theorem sataExecCmds_transfers (hdata : req.hasData) (hlbas : req.hasLba)
    (hcounts : req.hasCount) (hbuffer : buffer ≠ 0) (hlba : lba + count ≤ 2 ^ 48)
    (h : sataExecCmds port req runs count lba buffer s = some (true, t)) :
    ∃ issued, t.issued = s.issued ++ issued ∧
      Transfers req lba count buffer s.mem t.mem issued := by
  induction runs generalizing count lba buffer s with
  | nil =>
      unfold sataExecCmds at h
      split at h
      · cases h
        subst count
        exact ⟨[], (List.append_nil _).symm, transfers_nil⟩
      · cases h
  | cons run runs ih =>
      simp only [sataExecCmds] at h
      split at h
      · cases h
        subst count
        exact ⟨[], (List.append_nil _).symm, transfers_nil⟩
      rename_i hmore
      generalize hthis : (if count > maxSectorsPerCmd then maxSectorsPerCmd else count) = this at h
      have hrange : 1 ≤ this ∧ this ≤ 65535 ∧ this ≤ count := by
        rw [← hthis, maxSectorsPerCmd_eq]
        split <;> omega
      rw [Nat.mod_eq_of_lt (by omega)] at h
      split at h
      · rename_i mid hcmd
        obtain ⟨-, hblock, slot, hissued, hmem⟩ := sataExecCmdInternal_done hdata hbuffer hcmd
        have hfirst := buildCmd_transfers hdata hlbas hcounts hbuffer hrange.1 (by omega)
          (show lba + this ≤ 2 ^ 48 by omega) hblock slot s.mem
        rw [← hmem] at hfirst
        obtain ⟨issued, hrest, htransfers⟩ := ih (by omega) (by omega) h
        refine ⟨buildCmd req run slot lba this buffer s.mem :: issued, ?_, ?_⟩
        · rw [hrest, hissued, List.append_assoc, List.singleton_append]
        · have happend := hfirst.append htransfers
          rwa [Nat.add_sub_cancel' hrange.2.2, List.singleton_append] at happend
      · rename_i hno
        exact absurd h (hno t)

-- A command transfers its sectors exactly when its count field holds their number.
theorem sataExecCmdInternal_transfers_iff (hdata : req.hasData) (hlbas : req.hasLba)
    (hcounts : req.hasCount) (hbuffer : buffer ≠ 0) (hpos : 1 ≤ count)
    (hlba : lba + count ≤ 2 ^ 48)
    (h : sataExecCmdInternal port req run lba count buffer ⟨mem, []⟩ = some (true, t)) :
    Transfers req lba count buffer mem t.mem t.issued ↔ count ≤ 65536 := by
  obtain ⟨-, hblock, slot, hissued, hmem⟩ := sataExecCmdInternal_done hdata hbuffer h
  dsimp only at hissued hmem
  rw [hissued, hmem, List.nil_append]
  constructor
  · intro htransfers
    have hlimit := htransfers.consecutive
    rw [List.map_singleton, Span.row_singleton, sectors_limit] at hlimit
    have hfirst : (buildFis req lba count).lba = lba := buildFis_lba hlbas (by omega)
    have hsectors : (buildFis req lba count).sectors ≤ 65536 := buildFis_sectors_le hcounts
    have hend := hlimit.2.2
    simp only [buildCmd, hfirst] at hend
    omega
  · intro hfits
    exact buildCmd_transfers hdata hlbas hcounts hbuffer hpos hfits hlba hblock slot mem

theorem prdtCount_few_iff (count : Nat) :
    (prdtCount (count * 512) > 0xFFFF ∨
      prdtCount (count * 512) > SATA_MAX_PRDT_STATIC_ENTRIES) ↔ 2 ^ 21 < count := by
  have hiff := prdtCount_le_iff count
  simp only [SATA_MAX_PRDT_STATIC_ENTRIES]
  omega

-- A read or write that succeeds transfers exactly the request unless it is given to
-- one command though it has more sectors than the count field holds.
theorem sata_transfers_iff (hdata : req.hasData) (hlbas : req.hasLba) (hcounts : req.hasCount)
    (hbuffer : buffer ≠ 0) (hpos : 1 ≤ count) (hlba : lba + count ≤ 2 ^ 48)
    (h : sataExecCmd port req runs lba count buffer ⟨mem, []⟩ = some (true, t)) :
    Transfers req lba count buffer mem t.mem t.issued ↔ count ≤ 65536 ∨ 2 ^ 21 < count := by
  simp only [sataExecCmd] at h
  split at h
  · cases h
  split at h
  · rename_i hmany
    have hlarge := (prdtCount_few_iff count).mp hmany
    refine iff_of_true ?_ (.inr hlarge)
    obtain ⟨issued, hissued, htransfers⟩ :=
      sataExecCmds_transfers hdata hlbas hcounts hbuffer hlba h
    rwa [hissued, List.nil_append]
  · rename_i hone
    rw [prdtCount_few_iff] at hone
    split at h
    · cases h
    · rw [sataExecCmdInternal_transfers_iff hdata hlbas hcounts hbuffer hpos hlba h, or_iff_left hone]

end Commands

section Idle

-- What the allocator and a port that is idle answer: memory, a free slot, and a
-- command done at the first look.
def idleBlock (bytes : Nat) : DmaBlock bytes :=
  if h : 0x1000 + bytes ≤ 2 ^ 64 then ⟨0x1000, 0x1000, fun _ => 0, fun _ => h⟩
  else ⟨0, 0, fun _ => 0, fun h => absurd rfl h⟩

theorem idleBlock_eq {bytes : Nat} (h : 0x1000 + bytes ≤ 2 ^ 64) :
    idleBlock bytes = ⟨0x1000, 0x1000, fun _ => 0, fun _ => h⟩ := dif_pos h

def idleRun : SataRun where
  msBusy := 0
  busy := [⟨0, 0, 0, 0⟩]
  sact := 0
  ci := 0
  block := idleBlock
  ms := 0
  polls := [⟨0, 0, 0, 0⟩]
  back _ := 0

variable {count : Nat}

theorem sataExecCmdInternal_idle (req : SataRequest) (lba buffer : Nat) (s : SataState)
    (hle : count ≤ 2 ^ 21) :
    ∃ t, sataExecCmdInternal ⟨true, 32⟩ req idleRun lba count buffer s = some (true, t) := by
  have hfew := mt (prdtCount_few_iff count).mp (Nat.not_lt.mpr hle)
  have hbusy : sataBusyWait idleRun.msBusy idleRun.msBusy idleRun.busy = some true := by
    simp [idleRun, sataBusyWait, elapsed]
  have hslot : sataFindCmdslot ⟨true, 32⟩ idleRun.sact idleRun.ci = some 0 := by decide
  have hwait : sataWait 0 idleRun.ms idleRun.polls = some true := by
    simp [idleRun, sataWait, elapsed]
  have hblock := idleBlock_eq (show 0x1000 + count * 512 ≤ 2 ^ 64 by omega)
  simp only [sataExecCmdInternal, if_neg hfew, hbusy, hslot, hwait]
  simp only [idleRun, hblock]
  simp
  split <;> exact ⟨_, rfl⟩

theorem sataExecCmd_idle (req : SataRequest) (lba buffer : Nat) (s : SataState)
    (hle : count ≤ 2 ^ 21) :
    sataExecCmd ⟨true, 32⟩ req [idleRun] lba count buffer s =
      sataExecCmdInternal ⟨true, 32⟩ req idleRun lba count buffer s := by
  have hfew := mt (prdtCount_few_iff count).mp (Nat.not_lt.mpr hle)
  simp only [sataExecCmd, if_neg hfew]
  exact if_neg (by decide)

end Idle

-- A sector is read.
theorem sata_transfers_iff_one :
    ∃ t, sataExecCmd ⟨true, 32⟩ ⟨0x25, 0x27, false, true, true, true⟩ [idleRun] 8 1 0x100000
        ⟨fun _ => 1, []⟩ = some (true, t) ∧
      Transfers ⟨0x25, 0x27, false, true, true, true⟩ 8 1 0x100000 (fun _ => 1) t.mem t.issued := by
  obtain ⟨t, ht⟩ := sataExecCmdInternal_idle ⟨0x25, 0x27, false, true, true, true⟩ 8 0x100000
    ⟨fun _ => 1, []⟩ (show 1 ≤ 2 ^ 21 by decide)
  rw [← sataExecCmd_idle _ _ _ _ (by decide)] at ht
  exact ⟨t, ht, (sata_transfers_iff rfl rfl rfl (by decide) (by decide) (by decide) ht).mpr
    (.inl (by decide))⟩

-- A read of 65537 sectors succeeds with one command, whose count field says 1.
theorem sata_transfers_fails :
    ¬ ∀ (port : SataPortState) (req : SataRequest) (runs : List SataRun) (lba count buffer : Nat)
        (mem : Nat → UInt8) (t : SataState),
      req.hasData → req.hasLba → req.hasCount → buffer ≠ 0 → 1 ≤ count → count < 2 ^ 32 →
      lba + count ≤ 2 ^ 48 →
      sataExecCmd port req runs lba count buffer ⟨mem, []⟩ = some (true, t) →
      Transfers req lba count buffer mem t.mem t.issued := by
  intro hall
  obtain ⟨t, ht⟩ := sataExecCmdInternal_idle ⟨0x25, 0x27, false, true, true, true⟩ 0 0x100000
    ⟨fun _ => 0, []⟩ (show 65537 ≤ 2 ^ 21 by decide)
  have htransfers := hall _ _ _ 0 65537 0x100000 _ t rfl rfl rfl (by decide) (by decide)
    (by decide) (by decide) ((sataExecCmd_idle _ _ _ _ (by decide)).trans ht)
  have hle := (sataExecCmdInternal_transfers_iff rfl rfl rfl (by decide) (by decide) (by decide)
    ht).mp htransfers
  exact absurd hle (by decide)

end AosKernel.Io
