import AosKernel.Fs.OpenFiles

namespace AosKernel.Fs

open Verif

-- What PBFS writes stays within the part of the chunk it is told of.
def PbfsRead.Within (cap : Nat) : PbfsRead → Prop
  | .success => True
  | .failure written _ => written.length ≤ cap

-- The calls on one file by what they do to it, with PBFS free to fail.
namespace FileState

def refillAnswered (s : FileState) (bytes : List UInt8) (cap : Nat) : PbfsRead → FileState × Bool
  | .success =>
      let data := pbfsReadFileDmm s.stored cap
      ({ s with
          handle :=
            { s.handle with
              fileData := some (overlay bytes 0 data)
              fileDataSize := data.length
              fileDataRefreshReq := false }
          touched := s.touched ++ [⟨0, data.length⟩] }, true)
  | .failure written size =>
      ({ s with
          handle :=
            { s.handle with
              fileData := some (overlay bytes 0 written)
              fileDataSize := size }
          touched := s.touched ++ [⟨0, written.length⟩] }, false)

def fillAnswered (s : FileState) (cap : Nat) (chunk : Option (List UInt8)) (answer : PbfsRead) :
    FileState × Bool :=
  match s.handle.fileData, chunk with
  | some bytes, _ =>
      if s.handle.fileDataRefreshReq then s.refillAnswered bytes cap answer else (s, true)
  | none, some bytes => s.refillAnswered bytes cap answer
  | none, none => (s, false)

-- A call that needs the content goes on with `use` when it is there.
def whenFilled (filled : FileState × Bool)
    (use : FileState → List UInt8 → FileState × FileResult) : FileState × FileResult :=
  if filled.2 then use filled.1 (filled.1.handle.fileData.getD []) else (filled.1, .refused)

def readAnswered (s : FileState) (size : Nat) (chunk : Option (List UInt8)) (answer : PbfsRead) :
    FileState × FileResult :=
  if size = 0 then (s, .bytes [])
  else whenFilled (s.fillAnswered size chunk answer) fun s bytes => s.readCache bytes size

def writeAnswered (s : FileState) (data : List UInt8) (chunk : Option (List UInt8))
    (answer : PbfsRead) : FileState × FileResult :=
  if data.length = 0 then (s, .done)
  else whenFilled (s.fillAnswered AOS_FS_CHUNK_SIZE chunk answer) fun s bytes =>
    s.writeCache bytes data

def seekAnswered (s : FileState) (seekTo : Nat) (mode : SeekMode) (chunk : Option (List UInt8))
    (answer : PbfsRead) : FileState × FileResult :=
  whenFilled (s.fillAnswered AOS_FS_CHUNK_SIZE chunk answer) fun s _ => s.seekCache seekTo mode

def flushAnswered (s : FileState) : PbfsUpdate → FileState × FileResult
  | .success => s.flushFile
  | .failure left =>
      if !s.handle.fileDataFlushRequired then (s, .done)
      else if s.handle.fileData.isNone ∧ s.handle.fileDataSize > 0 then (s, .refused)
      else ({ s with stored := left }, .refused)

-- The bytes that a flush has still to bring to PBFS.
def unsaved (s : FileState) : Option (List UInt8) :=
  if s.handle.fileDataFlushRequired then
    some ((s.handle.fileData.getD []).take s.handle.fileDataSize)
  else none

-- A chunk is a whole one, a cache that needs no refresh is filled, and bytes that
-- wait for a flush are never read over.
structure Sound (s : FileState) : Prop where
  whole : ∀ bytes, s.handle.fileData = some bytes → bytes.length = AOS_FS_CHUNK_SIZE
  filled : s.handle.fileDataRefreshReq = false →
    s.handle.fileData ≠ none ∧ s.handle.fileDataSize ≤ AOS_FS_CHUNK_SIZE
  kept : s.handle.fileDataFlushRequired = true →
    s.handle.fileDataRefreshReq = false ∧ 0 < s.handle.fileDataSize

-- Both look at the cache only.
theorem Sound.of_handle {s t : FileState} (h : s.Sound) (heq : t.handle = s.handle) : t.Sound :=
  ⟨heq ▸ h.whole, heq ▸ h.filled, heq ▸ h.kept⟩

theorem unsaved_of_handle {s t : FileState} (heq : t.handle = s.handle) :
    t.unsaved = s.unsaved := by
  rw [unsaved, unsaved, heq]

section Fill

variable {s : FileState} {bytes : List UInt8} {cap : Nat} {answer : PbfsRead}

theorem refillAnswered_sound (h : s.handle.fileDataRefreshReq = true)
    (hflush : s.handle.fileDataFlushRequired = false)
    (hbytes : bytes.length = AOS_FS_CHUNK_SIZE) (hcap : cap ≤ AOS_FS_CHUNK_SIZE)
    (hanswer : PbfsRead.Within cap answer) : (s.refillAnswered bytes cap answer).1.Sound := by
  cases answer with
  | success =>
      have hlen : (pbfsReadFileDmm s.stored cap).length ≤ AOS_FS_CHUNK_SIZE :=
        (List.length_take_le _ _).trans hcap
      refine ⟨fun b hb => ?_, fun _ => ⟨Option.some_ne_none _, hlen⟩, fun hf => ?_⟩
      · cases hb
        rw [length_overlay (by omega), hbytes]
      · exact absurd (hf.symm.trans hflush) (by decide)
  | failure written size =>
      have hlen : written.length ≤ AOS_FS_CHUNK_SIZE := Nat.le_trans hanswer hcap
      refine ⟨fun b hb => ?_, fun hr => ?_, fun hf => ?_⟩
      · cases hb
        rw [length_overlay (by omega), hbytes]
      · exact absurd (hr.symm.trans h) (by decide)
      · exact absurd (hf.symm.trans hflush) (by decide)

theorem refillAnswered_unsaved (hflush : s.handle.fileDataFlushRequired = false) :
    (s.refillAnswered bytes cap answer).1.unsaved = s.unsaved := by
  cases answer <;> simp [refillAnswered, unsaved, hflush]

theorem fillAnswered_frame (s : FileState) (cap : Nat) (chunk : Option (List UInt8))
    (answer : PbfsRead) : (s.fillAnswered cap chunk answer).1.stored = s.stored ∧
      (s.fillAnswered cap chunk answer).1.curSeek = s.curSeek := by
  unfold fillAnswered
  cases answer <;> (split <;> try split) <;> exact ⟨rfl, rfl⟩

theorem fillAnswered_of_fresh (chunk : Option (List UInt8))
    (h : s.Sound) (hrefresh : s.handle.fileDataRefreshReq = false) :
    s.fillAnswered cap chunk answer = (s, true) := by
  obtain ⟨bytes, hbytes⟩ := Option.ne_none_iff_exists'.mp (h.filled hrefresh).1
  simp [fillAnswered, hbytes, hrefresh]

structure Filled (s : FileState) (filled : FileState × Bool) : Prop where
  sound : filled.1.Sound
  unsaved : filled.1.unsaved = s.unsaved
  curSeek : filled.1.curSeek = s.curSeek
  stored : filled.1.stored = s.stored
  fresh : filled.2 = true → filled.1.handle.fileDataRefreshReq = false

theorem fillAnswered_filled {chunk : Option (List UInt8)} (h : s.Sound)
    (hchunk : ∀ bytes ∈ chunk, bytes.length = AOS_FS_CHUNK_SIZE)
    (hcap : cap ≤ AOS_FS_CHUNK_SIZE) (hanswer : PbfsRead.Within cap answer) :
    Filled s (s.fillAnswered cap chunk answer) := by
  have hframe := s.fillAnswered_frame cap chunk answer
  cases hrefresh : s.handle.fileDataRefreshReq with
  | false =>
      rw [fillAnswered_of_fresh chunk h hrefresh]
      exact ⟨h, rfl, rfl, rfl, fun _ => hrefresh⟩
  | true =>
      have hflush : s.handle.fileDataFlushRequired = false := by
        by_contra hne
        exact absurd ((h.kept (by simpa using hne)).1.symm.trans hrefresh) (by decide)
      have hrefill {bytes : List UInt8} (hbytes : bytes.length = AOS_FS_CHUNK_SIZE)
          (heq : s.fillAnswered cap chunk answer = s.refillAnswered bytes cap answer) :
          Filled s (s.fillAnswered cap chunk answer) := by
        refine ⟨?_, ?_, hframe.2, hframe.1, ?_⟩ <;> rw [heq]
        · exact refillAnswered_sound hrefresh hflush hbytes hcap hanswer
        · exact refillAnswered_unsaved hflush
        · cases answer with
          | success => exact fun _ => rfl
          | failure written size => exact fun hready => nomatch hready
      cases hdata : s.handle.fileData with
      | some bytes => exact hrefill (h.whole bytes hdata) (by simp [fillAnswered, hdata, hrefresh])
      | none =>
          cases chunk with
          | some bytes => exact hrefill (hchunk bytes rfl) (by simp [fillAnswered, hdata])
          | none =>
              have heq : s.fillAnswered cap none answer = (s, false) := by
                simp [fillAnswered, hdata]
              rw [heq]
              exact ⟨h, rfl, rfl, rfl, fun hready => nomatch hready⟩

end Fill

section Kept

variable {s : FileState}

-- A call that neither writes nor flushes: what is stored and what is to be flushed stay.
structure Leaves (s t : FileState) : Prop where
  sound : t.Sound
  stored : t.stored = s.stored
  unsaved : t.unsaved = s.unsaved

theorem whenFilled_leaves {filled : FileState × Bool}
    {use : FileState → List UInt8 → FileState × FileResult} (h : Filled s filled)
    (huse : ∀ t bytes, t.Sound → Leaves t (use t bytes).1) :
    Leaves s (whenFilled filled use).1 := by
  unfold whenFilled
  split
  · have hleaves := huse filled.1 (filled.1.handle.fileData.getD []) h.sound
    exact ⟨hleaves.sound, hleaves.stored.trans h.stored, hleaves.unsaved.trans h.unsaved⟩
  · exact ⟨h.sound, h.stored, h.unsaved⟩

theorem readCache_leaves (h : s.Sound) (bytes : List UInt8) (size : Nat) :
    Leaves s (s.readCache bytes size).1 := by
  unfold readCache
  split <;> exact ⟨⟨h.whole, h.filled, h.kept⟩, rfl, rfl⟩

theorem moveSeek_leaves (h : s.Sound) (sto : Nat) : Leaves s (s.moveSeek sto).1 := by
  unfold moveSeek
  split <;> exact ⟨⟨h.whole, h.filled, h.kept⟩, rfl, rfl⟩

theorem seekCache_eq_target (s : FileState) (seekTo : Nat) (mode : SeekMode) :
    s.seekCache seekTo mode =
      if seekTo > s.handle.fileDataSize then (s, .refused)
      else (seekTarget s.handle.fileDataSize s.curSeek seekTo mode).elim (s, .refused)
        s.moveSeek := by
  have hcur (gap sto : Nat) : (if seekTo > gap then (s, FileResult.refused) else s.moveSeek sto) =
      (if seekTo > gap then none else some sto).elim (s, .refused) s.moveSeek := by
    split <;> rfl
  cases mode with
  | cur => simp only [seekCache, seekTarget, hcur]
  | set => simp only [seekCache, seekTarget, Option.elim_some]
  | fromEnd => simp only [seekCache, seekTarget, Option.elim_some]

theorem seekCache_leaves (h : s.Sound) (seekTo : Nat) (mode : SeekMode) :
    Leaves s (s.seekCache seekTo mode).1 := by
  rw [seekCache_eq_target]
  split
  · exact ⟨h, rfl, rfl⟩
  · cases seekTarget s.handle.fileDataSize s.curSeek seekTo mode with
    | none => exact ⟨h, rfl, rfl⟩
    | some sto => exact moveSeek_leaves h sto

-- What an accepted write leaves to flush: what was there with the bytes written over it.
structure Wrote (s : FileState) (data : List UInt8) (t : FileState) : Prop where
  sound : t.Sound
  stored : t.stored = s.stored
  unsaved : ∃ base, s.curSeek + data.length ≤ base.length ∧
    t.unsaved = some (overlay base s.curSeek data) ∧ ∀ d, s.unsaved = some d → base = d

theorem writeCache_wrote (h : s.Sound) (hrefresh : s.handle.fileDataRefreshReq = false)
    {data : List UInt8} (hdata : data ≠ []) :
    (s.writeCache (s.handle.fileData.getD []) data).2 = .refused ∧
        (s.writeCache (s.handle.fileData.getD []) data).1 = s ∨
      (s.writeCache (s.handle.fileData.getD []) data).2 = .done ∧
        Wrote s data (s.writeCache (s.handle.fileData.getD []) data).1 := by
  obtain ⟨hsome, hsize⟩ := h.filled hrefresh
  obtain ⟨bytes, hbytes⟩ := Option.ne_none_iff_exists'.mp hsome
  have hlen := h.whole bytes hbytes
  have hpos : 0 < data.length := List.length_pos_iff.mpr hdata
  rw [hbytes, Option.getD_some, writeCache]
  split
  · exact .inl ⟨rfl, rfl⟩
  · rename_i hfits
    rw [not_or, not_lt, not_lt] at hfits
    have hcontent : 0 < s.handle.fileDataSize := by omega
    refine .inr ⟨rfl, ⟨fun b hb => ?_, fun hr => ⟨Option.some_ne_none _, hsize⟩,
      fun _ => ⟨hrefresh, hcontent⟩⟩, rfl, bytes.take s.handle.fileDataSize, ?_, ?_, ?_⟩
    · cases hb
      rw [length_overlay (by omega), hlen]
    · rw [List.length_take]
      omega
    · simp only [unsaved, if_true, Option.getD_some]
      rw [take_overlay (by omega) (by omega)]
    · intro d hd
      unfold unsaved at hd
      split at hd
      · rw [hbytes] at hd
        exact Option.some.inj hd
      · cases hd

end Kept

end FileState

-- A call on an open file, with the allocator's and PBFS's answers to it.
inductive FileCall
  | read (size : Nat) (chunk : NewChunk) (answer : PbfsRead)
  | write (data : List UInt8) (chunk : NewChunk) (answer : PbfsRead)
  | seek (seekTo : Nat) (mode : SeekMode) (chunk : NewChunk) (answer : PbfsRead)
  | tell
  | flush (answer : PbfsUpdate)

namespace FileCall

def chunk : FileCall → NewChunk
  | .read _ chunk _ => chunk
  | .write _ chunk _ => chunk
  | .seek _ _ chunk _ => chunk
  | .tell => none
  | .flush _ => none

def action : FileCall → FileAction
  | .read size chunk _ => .read size (chunk.map Prod.snd)
  | .write data chunk _ => .write data (chunk.map Prod.snd)
  | .seek seekTo mode chunk _ => .seek seekTo mode (chunk.map Prod.snd)
  | .tell => .tell
  | .flush _ => .flush

-- PBFS does what it is asked.
def Served : FileCall → Prop
  | .read _ _ answer => answer = .success
  | .write _ _ answer => answer = .success
  | .seek _ _ _ answer => answer = .success
  | .tell => True
  | .flush answer => answer = .success

-- A read asks for no more than the chunk holds, and PBFS writes no more than that.
def Fits : FileCall → Prop
  | .read size _ answer => size ≤ AOS_FS_CHUNK_SIZE ∧ PbfsRead.Within size answer
  | .write _ _ answer => PbfsRead.Within AOS_FS_CHUNK_SIZE answer
  | .seek _ _ _ answer => PbfsRead.Within AOS_FS_CHUNK_SIZE answer
  | .tell => True
  | .flush _ => True

end FileCall

namespace FileState

def answered (s : FileState) : FileCall → FileState × FileResult
  | .read size chunk answer => s.readAnswered size (chunk.map Prod.snd) answer
  | .write data chunk answer => s.writeAnswered data (chunk.map Prod.snd) answer
  | .seek seekTo mode chunk answer => s.seekAnswered seekTo mode (chunk.map Prod.snd) answer
  | .tell => s.tellFile
  | .flush answer => s.flushAnswered answer

theorem whenFilled_success (s : FileState) (cap : Nat) (chunk : Option (List UInt8))
    (use : FileState → List UInt8 → FileState × FileResult) :
    whenFilled (s.fillAnswered cap chunk .success) use =
      (s.fillCache cap chunk).elim (s, .refused) fun p => use p.2 p.1 := by
  obtain ⟨stored, ⟨fileData, size, refresh, flush⟩, curSeek, touched⟩ := s
  cases fileData <;> cases chunk <;> cases refresh <;>
    simp [fillAnswered, fillCache, hollow, refillAnswered, whenFilled]

-- Where PBFS does what it is asked, the calls are those of a file whose content is
-- always at hand.
theorem answered_exec (s : FileState) {call : FileCall} (h : call.Served) :
    s.answered call = s.exec call.action := by
  cases call with
  | read size chunk answer =>
      cases h
      rw [answered, readAnswered, whenFilled_success, FileCall.action, exec, readFile]
      cases s.fillCache size (chunk.map Prod.snd) <;> rfl
  | write data chunk answer =>
      cases h
      rw [answered, writeAnswered, whenFilled_success, FileCall.action, exec, writeFile]
      cases s.fillCache AOS_FS_CHUNK_SIZE (chunk.map Prod.snd) <;> rfl
  | seek seekTo mode chunk answer =>
      cases h
      rw [answered, seekAnswered, whenFilled_success, FileCall.action, exec, seekFile]
      cases s.fillCache AOS_FS_CHUNK_SIZE (chunk.map Prod.snd) <;> rfl
  | tell => rfl
  | flush answer =>
      cases h
      rfl

-- What a call does to the bytes that wait for a flush, and to the stored ones: only an
-- accepted write adds to them, and only a flush that succeeds takes them away.
def Keeps (s : FileState) : FileCall → FileState × FileResult → Prop
  | .write data _ _, (t, r) =>
      t.stored = s.stored ∧
        (r = .done ∧ data ≠ [] ∧ Wrote s data t ∨
          (r = .done → data = []) ∧ t.unsaved = s.unsaved)
  | .flush _, (t, r) =>
      (r = .done → t.unsaved = none ∧ t.stored = s.unsaved.getD s.stored) ∧
        (r ≠ .done → t.unsaved = s.unsaved)
  | _, (t, _) => t.stored = s.stored ∧ t.unsaved = s.unsaved

theorem writeAnswered_keeps {s : FileState} (h : s.Sound) {data : List UInt8}
    {chunk : Option (List UInt8)} {answer : PbfsRead}
    (hfill : Filled s (s.fillAnswered AOS_FS_CHUNK_SIZE chunk answer)) :
    (s.writeAnswered data chunk answer).1.Sound ∧
      (s.writeAnswered data chunk answer).1.stored = s.stored ∧
      ((s.writeAnswered data chunk answer).2 = .done ∧ data ≠ [] ∧
          Wrote s data (s.writeAnswered data chunk answer).1 ∨
        ((s.writeAnswered data chunk answer).2 = .done → data = []) ∧
          (s.writeAnswered data chunk answer).1.unsaved = s.unsaved) := by
  unfold writeAnswered
  split
  · rename_i hempty
    exact ⟨h, rfl, .inr ⟨fun _ => List.length_eq_zero_iff.mp hempty, rfl⟩⟩
  rename_i hne
  have hdata : data ≠ [] := fun heq => hne (List.length_eq_zero_iff.mpr heq)
  generalize s.fillAnswered AOS_FS_CHUNK_SIZE chunk answer = filled at hfill
  obtain ⟨t, ready⟩ := filled
  cases ready with
  | false => exact ⟨hfill.sound, hfill.stored, .inr ⟨(fun hdone => by cases hdone), hfill.unsaved⟩⟩
  | true =>
      have huse : whenFilled (t, true) (fun s bytes => s.writeCache bytes data) =
        t.writeCache (t.handle.fileData.getD []) data := rfl
      rw [huse]
      obtain ⟨hr, hsame⟩ | ⟨hr, hwrote⟩ := writeCache_wrote hfill.sound (hfill.fresh rfl) hdata
      · rw [hr, hsame]
        exact ⟨hfill.sound, hfill.stored, .inr ⟨(fun hdone => by cases hdone), hfill.unsaved⟩⟩
      · refine ⟨hwrote.sound, hwrote.stored.trans hfill.stored, .inl ⟨hr, hdata, hwrote.sound,
          hwrote.stored.trans hfill.stored, ?_⟩⟩
        have hseek : t.curSeek = s.curSeek := hfill.curSeek
        have hunsaved : t.unsaved = s.unsaved := hfill.unsaved
        rw [← hseek, ← hunsaved]
        exact hwrote.unsaved

theorem flushAnswered_keeps {s : FileState} (h : s.Sound) (answer : PbfsUpdate) :
    (s.flushAnswered answer).1.Sound ∧ s.Keeps (.flush answer) (s.flushAnswered answer) := by
  cases hflush : s.handle.fileDataFlushRequired with
  | false =>
      have hnothing : s.flushAnswered answer = (s, .done) := by
        cases answer <;> simp [flushAnswered, flushFile, hflush]
      have hunsaved : s.unsaved = none := by simp [unsaved, hflush]
      rw [hnothing]
      exact ⟨h, fun _ => ⟨hunsaved, by rw [hunsaved, Option.getD_none]⟩, fun hne => absurd rfl hne⟩
  | true =>
      obtain ⟨hrefresh, hsize⟩ := h.kept hflush
      obtain ⟨bytes, hbytes⟩ := Option.ne_none_iff_exists'.mp (h.filled hrefresh).1
      have hunsaved : s.unsaved = some (bytes.take s.handle.fileDataSize) := by
        simp [unsaved, hflush, hbytes]
      cases answer with
      | success =>
          have hdone : s.flushAnswered .success =
              (⟨bytes.take s.handle.fileDataSize, ⟨none, 0, true, false⟩, s.curSeek, s.touched⟩,
                .done) := by
            simp [flushAnswered, flushFile, hflush, hbytes, hsize.ne']
          rw [hdone]
          refine ⟨⟨(fun b hb => by cases hb), (fun hr => by cases hr), (fun hf => by cases hf)⟩,
            fun _ => ⟨rfl, ?_⟩, fun hne => absurd rfl hne⟩
          rw [hunsaved, Option.getD_some]
      | failure left =>
          have hrefused : s.flushAnswered (.failure left) =
              ({ s with stored := left }, .refused) := by
            simp [flushAnswered, hflush, hbytes]
          rw [hrefused]
          exact ⟨⟨h.whole, h.filled, h.kept⟩, (fun hdone => by cases hdone), fun _ => rfl⟩

theorem answered_keeps {s : FileState} (h : s.Sound) {call : FileCall} (hfits : call.Fits)
    (hchunk : ∀ c ∈ call.chunk, c.2.length = AOS_FS_CHUNK_SIZE) :
    (s.answered call).1.Sound ∧ s.Keeps call (s.answered call) := by
  have hbytes (chunk : NewChunk) (hc : ∀ c ∈ chunk, c.2.length = AOS_FS_CHUNK_SIZE) :
      ∀ bytes ∈ chunk.map Prod.snd, bytes.length = AOS_FS_CHUNK_SIZE := by
    rintro bytes hmem
    obtain ⟨c, hin, rfl⟩ := Option.mem_map.mp hmem
    exact hc c hin
  cases call with
  | read size chunk answer =>
      by_cases hzero : size = 0
      · have hnothing : s.answered (.read size chunk answer) = (s, .bytes []) := by
          rw [answered, readAnswered, if_pos hzero]
        rw [hnothing]
        exact ⟨h, rfl, rfl⟩
      have hfill := fillAnswered_filled h (hbytes chunk hchunk) hfits.1 hfits.2
      rw [answered, readAnswered, if_neg hzero]
      have hleaves := whenFilled_leaves hfill fun t bytes ht => readCache_leaves ht bytes size
      exact ⟨hleaves.sound, hleaves.stored, hleaves.unsaved⟩
  | write data chunk answer =>
      exact writeAnswered_keeps h (fillAnswered_filled h (hbytes chunk hchunk) le_rfl hfits)
  | seek seekTo mode chunk answer =>
      have hfill := fillAnswered_filled h (hbytes chunk hchunk) le_rfl hfits
      have hleaves := whenFilled_leaves hfill fun t _ ht => seekCache_leaves ht seekTo mode
      exact ⟨hleaves.sound, hleaves.stored, hleaves.unsaved⟩
  | tell => exact ⟨h, rfl, rfl⟩
  | flush answer => exact flushAnswered_keeps h answer

end FileState

end AosKernel.Fs
