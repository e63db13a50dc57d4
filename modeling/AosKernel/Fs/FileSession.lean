import Mathlib.Data.List.TakeDrop
import AosKernel.Lib.Trace
import AosKernel.Fs.FileHandle

namespace AosKernel.Fs

open Verif

-- A handle in use next to the byte array, with the results of both so far.
structure Session where
  file : FileState
  ref : ByteArrayFile
  results : List (FileResult × FileResult)

namespace Session

def start (content : List UInt8) (alloc : Option (List UInt8)) : Session :=
  ⟨FileState.fsOpen content alloc, ⟨content, 0⟩, []⟩

def step (s : Session) (a : FileAction) : Session where
  file := (s.file.exec a).1
  ref := (s.ref.exec a).1
  results := s.results ++ [((s.file.exec a).2, (s.ref.exec a).2)]

def Steps (s : Session) (a : FileAction) (t : Session) : Prop := t = s.step a

-- The handle has behaved like the byte array: with its results and its cursor, within
-- its chunk, and, when no write is pending, with the file it has stored.
structure Agrees (s : Session) : Prop where
  results : ∀ r ∈ s.results, r.1 = r.2
  cursor : s.file.curSeek = s.ref.cursor
  inBounds : ∀ w ∈ s.file.touched, w.limit ≤ AOS_FS_CHUNK_SIZE
  stored : s.file.handle.fileDataFlushRequired = false → s.file.stored = s.ref.bytes

end Session

namespace FileState

-- How much of the file a call finds in the cache, which it fills with `cap` bytes if
-- it has to.
def found (s : FileState) (cap : Nat) (alloc : Option (List UInt8)) : Option Nat :=
  (s.handle.fileData.or alloc).map fun _ =>
    if s.hollow then min cap s.stored.length else s.handle.fileDataSize

-- What ends at `stop` ends in the cache, or else behind the file.
def Decides (s : FileState) (cap : Nat) (alloc : Option (List UInt8)) (stop : Nat) : Prop :=
  match s.found cap alloc with
  | none => s.stored.length < stop
  | some size => stop ≤ size ∨ s.stored.length < stop

-- The call is answered from a cache that shows what the answer depends on.
def Served (s : FileState) : FileAction → Prop
  | .read size alloc =>
      size = 0 ∨ s.Decides size alloc (s.curSeek + size) ∧
        ∀ held, s.found size alloc = some held → held ≤ AOS_FS_CHUNK_SIZE
  | .write data alloc => data = [] ∨ s.Decides AOS_FS_CHUNK_SIZE alloc (s.curSeek + data.length)
  | .seek seekTo .set alloc => s.Decides AOS_FS_CHUNK_SIZE alloc seekTo
  | .seek seekTo .cur alloc => s.Decides AOS_FS_CHUNK_SIZE alloc (s.curSeek + seekTo)
  | .seek seekTo .fromEnd alloc =>
      s.found AOS_FS_CHUNK_SIZE alloc = some s.stored.length ∨ s.stored.length < seekTo
  | .tell => True
  | .flush => s.handle.fileDataFlushRequired → s.handle.fileDataSize = s.stored.length

end FileState

-- The cache holds the front of the content.
structure Cached (f : FileState) (bytes chunk : List UInt8) : Prop where
  data : f.handle.fileData = some chunk
  fresh : f.handle.fileDataRefreshReq = false
  size_le : f.handle.fileDataSize ≤ bytes.length
  front : chunk.take f.handle.fileDataSize = bytes.take f.handle.fileDataSize
  pending : f.handle.fileDataFlushRequired → 0 < f.handle.fileDataSize

structure Hollow (f : FileState) : Prop where
  data : f.handle.fileData = none
  size : f.handle.fileDataSize = 0
  pending : f.handle.fileDataFlushRequired = false

namespace Session

structure Inv (s : Session) : Prop where
  length : s.file.stored.length = s.ref.bytes.length
  cursor : s.ref.cursor ≤ s.ref.bytes.length ∧ s.ref.cursor ≤ AOS_FS_CHUNK_SIZE
  small : s.file.handle.fileDataSize ≤ AOS_FS_CHUNK_SIZE
  cache : Hollow s.file ∨ ∃ chunk, Cached s.file s.ref.bytes chunk

end Session

theorem Cached.size_le_chunk {f : FileState} {bytes chunk : List UInt8} (h : Cached f bytes chunk) :
    f.handle.fileDataSize ≤ chunk.length := by
  have hlen := congrArg List.length h.front
  have hle := h.size_le
  simp only [List.length_take] at hlen
  omega

-- What a read takes from the cache is what the content holds there.
theorem Cached.read {f : FileState} {bytes chunk : List UInt8} (h : Cached f bytes chunk)
    {pos size : Nat} (hle : pos + size ≤ f.handle.fileDataSize) :
    (chunk.drop pos).take size = (bytes.drop pos).take size := by
  have hfront : chunk.take (pos + size) = bytes.take (pos + size) := by
    have hcut := congrArg (List.take (pos + size)) h.front
    rwa [List.take_take, List.take_take, Nat.min_eq_left hle] at hcut
  rw [List.take_drop, List.take_drop, hfront]

theorem Hollow.hollow {f : FileState} (h : Hollow f) : f.hollow = true := by
  simp [FileState.hollow, h.data]

theorem Cached.not_hollow {f : FileState} {bytes chunk : List UInt8} (h : Cached f bytes chunk) :
    f.hollow = false := by
  simp [FileState.hollow, h.data, h.fresh]

section Steps

variable {s : Session} {cap : Nat} {alloc : Option (List UInt8)} {chunk : List UInt8}
  {f : FileState}

theorem found_eq_none (h : s.file.fillCache cap alloc = none) : s.file.found cap alloc = none := by
  unfold FileState.fillCache at h
  unfold FileState.found
  split at h
  · rename_i hnone
    rw [hnone]
    rfl
  · split at h <;> cases h

-- The cache as a call works on it, once it has got a chunk.
structure Filled (s : Session) (cap : Nat) (alloc : Option (List UInt8)) (chunk : List UInt8)
    (f : FileState) : Prop where
  cached : Cached f s.ref.bytes chunk
  found : s.file.found cap alloc = some f.handle.fileDataSize
  stored : f.stored = s.file.stored
  cursor : f.curSeek = s.file.curSeek
  pending : f.handle.fileDataFlushRequired = s.file.handle.fileDataFlushRequired
  inBounds : (∀ w ∈ f.touched, w.limit ≤ AOS_FS_CHUNK_SIZE) ↔
    f.handle.fileDataSize ≤ AOS_FS_CHUNK_SIZE
  small : cap ≤ AOS_FS_CHUNK_SIZE → f.handle.fileDataSize ≤ AOS_FS_CHUNK_SIZE

theorem fillCache_filled (h : s.Inv) (hagree : s.Agrees)
    (hfill : s.file.fillCache cap alloc = some (chunk, f)) : Filled s cap alloc chunk f := by
  obtain hhollow | ⟨chunk', hcached⟩ := h.cache
  · simp only [FileState.fillCache, hhollow.data, Option.none_or] at hfill
    split at hfill
    · cases hfill
    rename_i fresh halloc
    rw [if_pos hhollow.hollow] at hfill
    cases hfill
    have hstored := hagree.stored hhollow.pending
    have hlen : (pbfsReadFileDmm s.file.stored cap).length = min cap s.file.stored.length :=
      List.length_take
    refine ⟨⟨rfl, rfl, ?_, ?_, ?_⟩, ?_, rfl, rfl, rfl, ?_, ?_⟩
    · rw [← hstored, hlen]
      exact Nat.min_le_right _ _
    · dsimp only
      rw [take_overlay_zero, hlen, ← hstored, pbfsReadFileDmm, List.take_eq_take_min]
    · intro hpending
      exact absurd hpending (by simp [hhollow.pending])
    · rw [FileState.found, hhollow.data, hhollow.hollow]
      simp [hlen]
    · simp only [List.forall_mem_append, List.forall_mem_singleton, Span.limit, Nat.zero_add,
        and_iff_right_iff_imp]
      exact fun _ => hagree.inBounds
    · dsimp only
      omega
  · have hfill' : s.file.fillCache cap alloc = some (chunk', s.file) := by
      simp [FileState.fillCache, hcached.data, hcached.not_hollow]
    rw [hfill'] at hfill
    cases hfill
    refine ⟨hcached, ?_, rfl, rfl, rfl, iff_of_true hagree.inBounds h.small, fun _ => h.small⟩
    simp [FileState.found, hcached.data, hcached.not_hollow]

-- A call agrees exactly if `ok`, and keeps the invariant then.
structure Session.AgreesIff (t : Session) (ok : Prop) : Prop where
  iff : t.Agrees ↔ ok
  inv : t.Agrees → t.Inv

theorem Session.AgreesIff.congr {t : Session} {ok ok' : Prop} (h : t.AgreesIff ok)
    (hiff : ok ↔ ok') : t.AgreesIff ok' :=
  ⟨h.iff.trans hiff, h.inv⟩

theorem not_agrees {file : FileState} {ref : ByteArrayFile} {r r' : FileResult} (hne : r ≠ r') :
    ¬ Session.Agrees ⟨file, ref, s.results ++ [(r, r')]⟩ :=
  fun h => hne (h.results (r, r') (List.mem_append_right _ (List.mem_singleton_self _)))

theorem agreesIff_of_ne {file : FileState} {ref : ByteArrayFile} {r r' : FileResult} {ok : Prop}
    (hne : r ≠ r') (hok : ¬ ok) : Session.AgreesIff ⟨file, ref, s.results ++ [(r, r')]⟩ ok :=
  ⟨iff_of_false (not_agrees hne) hok, fun h => absurd h (not_agrees hne)⟩

-- A call that does nothing to either.
theorem idle (h : s.Inv) (hagree : s.Agrees) (r : FileResult) {ok : Prop} (hok : ok) :
    Session.AgreesIff ⟨s.file, s.ref, s.results ++ [(r, r)]⟩ ok := by
  refine ⟨iff_of_true ⟨?_, hagree.cursor, hagree.inBounds, hagree.stored⟩ hok,
    fun _ => ⟨h.length, h.cursor, h.small, h.cache⟩⟩
  exact List.forall_mem_append.mpr ⟨hagree.results, List.forall_mem_singleton.mpr rfl⟩

-- A call that leaves the content alone and both cursors in one place.
theorem Filled.moved (hf : Filled s cap alloc chunk f) (h : s.Inv) (hagree : s.Agrees) {pos : Nat}
    (hpos : pos ≤ s.ref.bytes.length)
    (hsmall : f.handle.fileDataSize ≤ AOS_FS_CHUNK_SIZE → pos ≤ AOS_FS_CHUNK_SIZE)
    (r : FileResult) :
    Session.AgreesIff ⟨{ f with curSeek := pos }, ⟨s.ref.bytes, pos⟩, s.results ++ [(r, r)]⟩
      (f.handle.fileDataSize ≤ AOS_FS_CHUNK_SIZE) := by
  refine ⟨⟨fun ht => hf.inBounds.mp ht.inBounds, fun hle => ⟨?_, rfl, hf.inBounds.mpr hle, ?_⟩⟩, ?_⟩
  · exact List.forall_mem_append.mpr ⟨hagree.results, List.forall_mem_singleton.mpr rfl⟩
  · intro hpending
    exact hf.stored.trans (hagree.stored (hf.pending.symm.trans hpending))
  · intro ht
    have hle := hf.inBounds.mp ht.inBounds
    exact ⟨(congrArg List.length hf.stored).trans h.length, ⟨hpos, hsmall hle⟩, hle,
      .inr ⟨chunk, hf.cached.data, hf.cached.fresh, hf.cached.size_le, hf.cached.front,
        hf.cached.pending⟩⟩

-- A call that both refuse.
theorem Filled.refused (hf : Filled s cap alloc chunk f) (h : s.Inv) (hagree : s.Agrees) :
    Session.AgreesIff ⟨f, s.ref, s.results ++ [(.refused, .refused)]⟩
      (f.handle.fileDataSize ≤ AOS_FS_CHUNK_SIZE) := by
  have hcursor : s.ref.cursor = f.curSeek := (hf.cursor.trans hagree.cursor).symm
  have hmoved := hf.moved h hagree h.cursor.1 (fun _ => h.cursor.2) .refused
  rwa [show ({ f with curSeek := s.ref.cursor } : FileState) = f by rw [hcursor]] at hmoved

-- A call that reaches up to `stop`. The handle carries it out where its cache reaches
-- there and the byte array where its content does.
theorem Filled.decided (hf : Filled s cap alloc chunk f) (h : s.Inv) (hagree : s.Agrees)
    {stop : Nat} {f' : FileState} {ref' : ByteArrayFile} {r r' : FileResult} (hr : r' ≠ .refused)
    (hdone : stop ≤ f.handle.fileDataSize →
      Session.AgreesIff ⟨f', ref', s.results ++ [(r, r')]⟩
        (f.handle.fileDataSize ≤ AOS_FS_CHUNK_SIZE))
    {p : FileState × FileResult} {q : ByteArrayFile × FileResult}
    (hp : p = if stop ≤ f.handle.fileDataSize then (f', r) else (f, .refused))
    (hq : q = if stop ≤ s.ref.bytes.length then (ref', r') else (s.ref, .refused)) :
    Session.AgreesIff ⟨p.1, q.1, s.results ++ [(p.2, q.2)]⟩
      ((stop ≤ f.handle.fileDataSize ∨ s.ref.bytes.length < stop) ∧
        f.handle.fileDataSize ≤ AOS_FS_CHUNK_SIZE) := by
  subst hp hq
  by_cases hin : stop ≤ f.handle.fileDataSize
  · rw [if_pos hin, if_pos (hin.trans hf.cached.size_le)]
    exact (hdone hin).congr (and_iff_right (.inl hin)).symm
  · rw [if_neg hin]
    by_cases hout : s.ref.bytes.length < stop
    · rw [if_neg (Nat.not_le.mpr hout)]
      exact (hf.refused h hagree).congr (and_iff_right (.inr hout)).symm
    · rw [if_pos (Nat.not_lt.mp hout)]
      exact agreesIff_of_ne hr.symm fun hyes => hyes.1.elim hin hout

-- A call that gets no chunk is refused.
theorem unfilled (h : s.Inv) (hagree : s.Agrees) {stop : Nat} {ref' : ByteArrayFile}
    {r' : FileResult} (hr : r' ≠ .refused) {q : ByteArrayFile × FileResult}
    (hq : q = if stop ≤ s.ref.bytes.length then (ref', r') else (s.ref, .refused)) :
    Session.AgreesIff ⟨s.file, q.1, s.results ++ [(.refused, q.2)]⟩ (s.ref.bytes.length < stop) := by
  subst hq
  by_cases hout : s.ref.bytes.length < stop
  · rw [if_neg (Nat.not_le.mpr hout)]
    exact idle h hagree .refused hout
  · rw [if_pos (Nat.not_lt.mp hout)]
    exact agreesIff_of_ne hr.symm hout

theorem readCache_eq (f : FileState) (chunk : List UInt8) (size : Nat) :
    f.readCache chunk size =
      if f.curSeek + size ≤ f.handle.fileDataSize then
        ({ f with curSeek := f.curSeek + size }, .bytes ((chunk.drop f.curSeek).take size))
      else (f, .refused) := by
  unfold FileState.readCache
  split <;> split <;> first | rfl | omega

-- A read agrees where the cache decides it, and keeps the invariant.
theorem Session.Inv.read (h : s.Inv) (hagree : s.Agrees) (size : Nat)
    (alloc : Option (List UInt8)) :
    (s.step (.read size alloc)).AgreesIff (s.file.Served (.read size alloc)) := by
  by_cases hzero : size = 0
  · subst hzero
    have ht : s.step (.read 0 alloc) = ⟨s.file, s.ref, s.results ++ [(.bytes [], .bytes [])]⟩ := by
      simp [Session.step, FileState.exec, ByteArrayFile.exec, FileState.readFile, h.cursor.1]
    rw [ht]
    exact idle h hagree _ (.inl rfl)
  have hq : s.ref.exec (.read size alloc) = if s.ref.cursor + size ≤ s.ref.bytes.length then
      (⟨s.ref.bytes, s.ref.cursor + size⟩, .bytes ((s.ref.bytes.drop s.ref.cursor).take size))
      else (s.ref, .refused) := rfl
  cases hfill : s.file.fillCache size alloc with
  | none =>
      have hp : s.file.exec (.read size alloc) = (s.file, .refused) := by
        simp only [FileState.exec, FileState.readFile, if_neg hzero, hfill]
      have hall := unfilled h hagree (by simp) hq
      rw [Session.step, hp]
      refine hall.congr ?_
      simp [FileState.Served, FileState.Decides, found_eq_none hfill, hzero, hagree.cursor,
        h.length]
  | some p =>
      obtain ⟨chunk, f⟩ := p
      have hf := fillCache_filled h hagree hfill
      have hp : s.file.exec (.read size alloc) =
          if s.ref.cursor + size ≤ f.handle.fileDataSize then
            ({ f with curSeek := s.ref.cursor + size },
              .bytes ((chunk.drop s.ref.cursor).take size))
          else (f, .refused) := by
        simp only [FileState.exec, FileState.readFile, if_neg hzero, hfill, readCache_eq, hf.cursor,
          hagree.cursor]
      refine (hf.decided h hagree (by simp) (fun hin => ?_) hp hq).congr ?_
      · rw [hf.cached.read hin]
        exact hf.moved h hagree (hin.trans hf.cached.size_le) hin.trans _
      · simp [FileState.Served, FileState.Decides, hf.found, hzero, hagree.cursor, h.length]

theorem writeCache_eq (f : FileState) (chunk data : List UInt8) :
    f.writeCache chunk data =
      if f.curSeek + data.length ≤ f.handle.fileDataSize then
        ({ f with
            handle :=
              { f.handle with
                fileData := some (overlay chunk f.curSeek data)
                fileDataFlushRequired := true }
            curSeek := f.curSeek + data.length
            touched := f.touched ++ [⟨f.curSeek, data.length⟩] }, .done)
      else (f, .refused) := by
  unfold FileState.writeCache
  split <;> split <;> first | rfl | omega

-- A write into the cache shows at the same place of the content.
theorem Filled.wrote (hf : Filled s AOS_FS_CHUNK_SIZE alloc chunk f) (h : s.Inv)
    (hagree : s.Agrees) {pos : Nat} {data : List UInt8} (hpos : 0 < data.length)
    (hin : pos + data.length ≤ f.handle.fileDataSize) :
    Session.AgreesIff ⟨{ f with
        handle :=
          { f.handle with
            fileData := some (overlay chunk pos data)
            fileDataFlushRequired := true }
        curSeek := pos + data.length
        touched := f.touched ++ [⟨pos, data.length⟩] },
      ⟨overlay s.ref.bytes pos data, pos + data.length⟩, s.results ++ [(.done, .done)]⟩
      (f.handle.fileDataSize ≤ AOS_FS_CHUNK_SIZE) := by
  have hsmall := hf.small (Nat.le_refl _)
  have hle := hf.cached.size_le
  have hbytes : (overlay s.ref.bytes pos data).length = s.ref.bytes.length :=
    length_overlay (hin.trans hle)
  refine ⟨iff_of_true ⟨?_, rfl, ?_, fun hno => nomatch hno⟩ hsmall, fun _ => ⟨?_, ?_, hsmall, .inr
    ⟨overlay chunk pos data, rfl, hf.cached.fresh, hbytes.symm ▸ hle, ?_, ?_⟩⟩⟩
  · exact List.forall_mem_append.mpr ⟨hagree.results, List.forall_mem_singleton.mpr rfl⟩
  · refine List.forall_mem_append.mpr ⟨hf.inBounds.mpr hsmall, List.forall_mem_singleton.mpr ?_⟩
    exact hin.trans hsmall
  · exact ((congrArg List.length hf.stored).trans h.length).trans hbytes.symm
  · dsimp only
    rw [hbytes]
    exact ⟨hin.trans hle, hin.trans hsmall⟩
  · dsimp only
    rw [take_overlay hin hf.cached.size_le_chunk, take_overlay hin hle, hf.cached.front]
  · intro _
    dsimp only
    omega

-- A write agrees where the cache decides it.
theorem Session.Inv.write (h : s.Inv) (hagree : s.Agrees) (data : List UInt8)
    (alloc : Option (List UInt8)) :
    (s.step (.write data alloc)).AgreesIff (s.file.Served (.write data alloc)) := by
  by_cases hnil : data = []
  · subst hnil
    have ht : s.step (.write [] alloc) = ⟨s.file, s.ref, s.results ++ [(.done, .done)]⟩ := by
      simp [Session.step, FileState.exec, ByteArrayFile.exec, FileState.writeFile, h.cursor.1]
    rw [ht]
    exact idle h hagree _ (.inl rfl)
  have hzero : ¬ data.length = 0 := mt List.length_eq_zero_iff.mp hnil
  have hq : s.ref.exec (.write data alloc) =
      if s.ref.cursor + data.length ≤ s.ref.bytes.length then
        (⟨overlay s.ref.bytes s.ref.cursor data, s.ref.cursor + data.length⟩, .done)
      else (s.ref, .refused) := rfl
  cases hfill : s.file.fillCache AOS_FS_CHUNK_SIZE alloc with
  | none =>
      have hp : s.file.exec (.write data alloc) = (s.file, .refused) := by
        simp only [FileState.exec, FileState.writeFile, if_neg hzero, hfill]
      have hall := unfilled h hagree (by simp) hq
      rw [Session.step, hp]
      refine hall.congr ?_
      simp [FileState.Served, FileState.Decides, found_eq_none hfill, hnil, hagree.cursor,
        h.length]
  | some p =>
      obtain ⟨chunk, f⟩ := p
      have hf := fillCache_filled h hagree hfill
      have hsmall := hf.small (Nat.le_refl _)
      have hp := writeCache_eq f chunk data
      rw [hf.cursor, hagree.cursor] at hp
      have hexec : s.file.exec (.write data alloc) = f.writeCache chunk data := by
        simp only [FileState.exec, FileState.writeFile, if_neg hzero, hfill]
      rw [← hexec] at hp
      refine (hf.decided h hagree (by simp) (hf.wrote h hagree (by omega)) hp hq).congr ?_
      simp [FileState.Served, FileState.Decides, hf.found, hnil, hagree.cursor, h.length, hsmall]

theorem moveSeek_eq (f : FileState) (sto : Nat) :
    f.moveSeek sto = if sto ≤ f.handle.fileDataSize then ({ f with curSeek := sto }, .done)
      else (f, .refused) := by
  unfold FileState.moveSeek
  split <;> split <;> first | rfl | omega

theorem seekCache_set (f : FileState) (seekTo : Nat) :
    f.seekCache seekTo .set =
      if seekTo ≤ f.handle.fileDataSize then ({ f with curSeek := seekTo }, .done)
      else (f, .refused) := by
  rw [FileState.seekCache, moveSeek_eq]
  split
  · rw [if_neg (by omega)]
  · rfl

-- With a cursor and a cache of a chunk at most, the sums do not wrap.
theorem seekCache_cur (f : FileState) (seekTo : Nat) (hsmall : f.handle.fileDataSize ≤ 4096)
    (hcursor : f.curSeek ≤ 4096) :
    f.seekCache seekTo .cur =
      if f.curSeek + seekTo ≤ f.handle.fileDataSize then
        ({ f with curSeek := f.curSeek + seekTo }, .done)
      else (f, .refused) := by
  rw [FileState.seekCache, moveSeek_eq]
  by_cases hin : f.curSeek + seekTo ≤ f.handle.fileDataSize
  · have hsum : (seekTo + f.curSeek) % 2 ^ 64 = f.curSeek + seekTo := by omega
    rw [if_neg (by omega), if_neg (by omega), hsum]
  · rw [if_neg hin]
    split
    · rfl
    · split
      · rfl
      · rw [if_neg (by omega)]

theorem seekCache_fromEnd (f : FileState) (seekTo : Nat) :
    f.seekCache seekTo .fromEnd =
      if seekTo ≤ f.handle.fileDataSize then
        ({ f with curSeek := f.handle.fileDataSize - seekTo }, .done)
      else (f, .refused) := by
  rw [FileState.seekCache, moveSeek_eq]
  split
  · rw [if_neg (by omega)]
  · rw [if_pos (by omega), if_pos (by omega)]

theorem exec_seek_none {seekTo : Nat} {mode : SeekMode}
    (h : s.file.fillCache AOS_FS_CHUNK_SIZE alloc = none) :
    s.file.exec (.seek seekTo mode alloc) = (s.file, .refused) := by
  simp only [FileState.exec, FileState.seekFile, h]

theorem exec_seek_some {seekTo : Nat} {mode : SeekMode}
    (h : s.file.fillCache AOS_FS_CHUNK_SIZE alloc = some (chunk, f)) :
    s.file.exec (.seek seekTo mode alloc) = f.seekCache seekTo mode := by
  simp only [FileState.exec, FileState.seekFile, h]

-- A seek to `target` agrees where the cache decides it.
theorem seek_agreesIff (h : s.Inv) (hagree : s.Agrees) {seekTo target : Nat} {mode : SeekMode}
    (hfilled : ∀ chunk f, Filled s AOS_FS_CHUNK_SIZE alloc chunk f → f.seekCache seekTo mode =
      if target ≤ f.handle.fileDataSize then ({ f with curSeek := target }, .done)
      else (f, .refused))
    (hq : s.ref.exec (.seek seekTo mode alloc) = s.ref.moveTo target) :
    (s.step (.seek seekTo mode alloc)).AgreesIff
      (s.file.Decides AOS_FS_CHUNK_SIZE alloc target) := by
  rw [ByteArrayFile.moveTo] at hq
  cases hfill : s.file.fillCache AOS_FS_CHUNK_SIZE alloc with
  | none =>
      have hall := unfilled h hagree (by simp) hq
      rw [Session.step, exec_seek_none hfill]
      refine hall.congr ?_
      simp [FileState.Decides, found_eq_none hfill, h.length]
  | some p =>
      obtain ⟨chunk, f⟩ := p
      have hf := fillCache_filled h hagree hfill
      have hsmall := hf.small (Nat.le_refl _)
      have hp := (exec_seek_some hfill).trans (hfilled chunk f hf)
      refine (hf.decided h hagree (by simp) (fun hin => ?_) hp hq).congr ?_
      · exact hf.moved h hagree (hin.trans hf.cached.size_le) hin.trans _
      · simp [FileState.Decides, hf.found, h.length, hsmall]

-- A seek from the end agrees where the cache ends with the file.
theorem seek_fromEnd_agreesIff (h : s.Inv) (hagree : s.Agrees) (seekTo : Nat) :
    (s.step (.seek seekTo .fromEnd alloc)).AgreesIff
      (s.file.Served (.seek seekTo .fromEnd alloc)) := by
  have hq : s.ref.exec (.seek seekTo .fromEnd alloc) =
      if seekTo ≤ s.ref.bytes.length then
        (⟨s.ref.bytes, s.ref.bytes.length - seekTo⟩, .done)
      else (s.ref, .refused) := by
    simp only [ByteArrayFile.exec, ByteArrayFile.moveTo, Nat.sub_le, if_true]
  cases hfill : s.file.fillCache AOS_FS_CHUNK_SIZE alloc with
  | none =>
      have hall := unfilled h hagree (by simp) hq
      rw [Session.step, exec_seek_none hfill]
      refine hall.congr ?_
      simp [FileState.Served, found_eq_none hfill, h.length]
  | some p =>
      obtain ⟨chunk, f⟩ := p
      have hf := fillCache_filled h hagree hfill
      have hsmall := hf.small (Nat.le_refl _)
      have hle := hf.cached.size_le
      have hserved : s.file.Served (.seek seekTo .fromEnd alloc) ↔
          f.handle.fileDataSize = s.ref.bytes.length ∨ s.ref.bytes.length < seekTo := by
        simp [FileState.Served, hf.found, h.length]
      rw [Session.step, exec_seek_some hfill, seekCache_fromEnd, hq]
      by_cases hout : s.ref.bytes.length < seekTo
      · rw [if_neg (by omega), if_neg (by omega)]
        exact (hf.refused h hagree).congr (iff_of_true hsmall (hserved.mpr (.inr hout)))
      rw [if_pos (Nat.not_lt.mp hout)]
      by_cases hwhole : f.handle.fileDataSize = s.ref.bytes.length
      · rw [if_pos (by omega), hwhole]
        have hmoved := hf.moved h hagree (Nat.sub_le s.ref.bytes.length seekTo)
          (fun hsmall => by omega) .done
        exact hmoved.congr (iff_of_true hsmall (hserved.mpr (.inl hwhole)))
      · have hno : ¬ s.file.Served (.seek seekTo .fromEnd alloc) := fun hyes =>
          (hserved.mp hyes).elim hwhole hout
        split
        · -- Both succeed, at different places.
          have hno' : ¬ Session.Agrees ⟨{ f with curSeek := f.handle.fileDataSize - seekTo },
              ⟨s.ref.bytes, s.ref.bytes.length - seekTo⟩, s.results ++ [(.done, .done)]⟩ := by
            intro hyes
            have heq := hyes.cursor
            dsimp only at heq
            omega
          exact ⟨iff_of_false hno' hno, fun hyes => absurd hyes hno'⟩
        · exact agreesIff_of_ne (by simp) hno

theorem Session.Inv.seek (h : s.Inv) (hagree : s.Agrees) (seekTo : Nat) (mode : SeekMode)
    (alloc : Option (List UInt8)) :
    (s.step (.seek seekTo mode alloc)).AgreesIff (s.file.Served (.seek seekTo mode alloc)) := by
  cases mode with
  | set => exact seek_agreesIff h hagree (fun _ f _ => seekCache_set f seekTo) rfl
  | cur =>
      have hserved : s.file.Served (.seek seekTo .cur alloc) =
          s.file.Decides AOS_FS_CHUNK_SIZE alloc (s.ref.cursor + seekTo) := by
        rw [FileState.Served, hagree.cursor]
      rw [hserved]
      refine seek_agreesIff h hagree (fun chunk f hf => ?_) rfl
      have hcursor : f.curSeek = s.ref.cursor := hf.cursor.trans hagree.cursor
      rw [seekCache_cur f seekTo (hf.small (Nat.le_refl _)) (hcursor ▸ h.cursor.2), hcursor]
  | fromEnd => exact seek_fromEnd_agreesIff h hagree seekTo

-- A flush agrees unless it cuts the file short.
theorem Session.Inv.flush (h : s.Inv) (hagree : s.Agrees) :
    (s.step .flush).AgreesIff (s.file.Served .flush) := by
  cases hpending : s.file.handle.fileDataFlushRequired with
  | false =>
      have ht : s.step .flush = ⟨s.file, s.ref, s.results ++ [(.done, .done)]⟩ := by
        simp [Session.step, FileState.exec, FileState.flushFile, ByteArrayFile.exec, hpending]
      rw [ht]
      exact idle h hagree _ fun hyes => absurd hyes (by simp [hpending])
  | true =>
      obtain hhollow | ⟨chunk, hcached⟩ := h.cache
      · exact absurd hpending (by simp [hhollow.pending])
      have hpos := hcached.pending hpending
      have hle := hcached.size_le
      have ht : s.step .flush = ⟨⟨s.ref.bytes.take s.file.handle.fileDataSize,
          ⟨none, 0, true, false⟩, s.file.curSeek, s.file.touched⟩, s.ref,
          s.results ++ [(.done, .done)]⟩ := by
        simp [Session.step, FileState.exec, FileState.flushFile, ByteArrayFile.exec, hpending,
          hcached.data, hcached.front, Nat.ne_of_gt hpos]
      have hserved : s.file.Served .flush ↔ s.ref.bytes.length ≤ s.file.handle.fileDataSize := by
        rw [FileState.Served, h.length]
        constructor
        · exact fun hyes => (hyes hpending).ge
        · exact fun hge _ => Nat.le_antisymm hle hge
      rw [ht]
      refine ⟨?_, fun hyes => ?_⟩
      · rw [hserved, ← List.take_eq_self_iff]
        constructor
        · exact fun hyes => hyes.stored rfl
        · refine fun hwhole => ⟨?_, hagree.cursor, hagree.inBounds, fun _ => hwhole⟩
          exact List.forall_mem_append.mpr ⟨hagree.results, List.forall_mem_singleton.mpr rfl⟩
      · exact ⟨congrArg List.length (hyes.stored rfl), h.cursor, Nat.zero_le _, .inl ⟨rfl, rfl, rfl⟩⟩

theorem Session.Inv.step (h : s.Inv) (hagree : s.Agrees) (a : FileAction) :
    (s.step a).AgreesIff (s.file.Served a) := by
  cases a with
  | read size alloc => exact h.read hagree size alloc
  | write data alloc => exact h.write hagree data alloc
  | seek seekTo mode alloc => exact h.seek hagree seekTo mode alloc
  | tell =>
      rw [Session.step, FileState.exec, FileState.tellFile, hagree.cursor]
      exact idle h hagree _ trivial
  | flush => exact h.flush hagree

end Steps

namespace Session

theorem start_agrees (content : List UInt8) (alloc : Option (List UInt8)) :
    (start content alloc).Agrees := by
  cases alloc with
  | none => exact ⟨(fun _ h => nomatch h), rfl, (fun _ h => nomatch h), fun _ => rfl⟩
  | some chunk =>
      refine ⟨(fun _ h => nomatch h), rfl, List.forall_mem_singleton.mpr ?_, fun _ => rfl⟩
      simp only [Span.limit, pbfsReadFileDmm, List.length_take]
      omega

theorem start_inv (content : List UInt8) (alloc : Option (List UInt8)) :
    (start content alloc).Inv := by
  cases alloc with
  | none => exact ⟨rfl, ⟨Nat.zero_le _, Nat.zero_le _⟩, Nat.zero_le _, .inl ⟨rfl, rfl, rfl⟩⟩
  | some chunk =>
      refine ⟨rfl, ⟨Nat.zero_le _, Nat.zero_le _⟩, ?_, .inr ⟨_, rfl, rfl, ?_, ?_,
        fun hno => nomatch hno⟩⟩
      · exact (List.length_take_le _ _)
      · exact (List.length_take_le' _ _)
      · simp only [start, FileState.fsOpen]
        rw [take_overlay_zero, pbfsReadFileDmm, List.length_take, ← List.take_eq_take_min]

-- A handle behaves like a byte array throughout a run exactly when every call of the
-- run finds in its cache what decides it.
theorem behaves_iff {content : List UInt8} {alloc : Option (List UInt8)}
    {past : List (Session × FileAction)} {s : Session}
    (h : Trace Steps (start content alloc) past s) :
    Trace.Always Agrees past s ↔ Trace.Admits (fun s a => s.file.Served a) past := by
  refine Trace.always_iff_admits (start_inv content alloc) (start_agrees content alloc) ?_ ?_ h
  · rintro s a _ hinv hagree rfl ht
    exact (hinv.step hagree a).inv ht
  · rintro s a _ hinv hagree rfl
    exact (hinv.step hagree a).iff

-- A byte of a file is overwritten and flushed.
theorem behaves_iff_write :
    ∃ past s, Trace Steps (start [1, 2, 3] (some [])) past s ∧
      s.file.stored = [9, 2, 3] ∧ Trace.Always Agrees past s := by
  have hwrite := Trace.nil.snoc (show Steps (start [1, 2, 3] (some [])) (.write [9] none) _
    from rfl)
  have hflush := hwrite.snoc (show Steps _ .flush _ from rfl)
  refine ⟨_, _, hflush, by decide, (behaves_iff hflush).mpr ?_⟩
  simp only [Trace.admits_snoc]
  exact ⟨⟨Trace.admits_nil, .inr (.inl (by decide))⟩, fun _ => by decide⟩

-- After a write and a flush the next byte cannot be read, though it is there.
theorem behaves_fails :
    ¬ ∀ (content : List UInt8) (alloc : Option (List UInt8)) (past : List (Session × FileAction))
        (s : Session),
      Trace Steps (start content alloc) past s → s.Agrees := by
  intro hall
  have hwrite := Trace.nil.snoc (show Steps (start [1, 2, 3] (some [])) (.write [9] none) _
    from rfl)
  have hflush := hwrite.snoc (show Steps _ .flush _ from rfl)
  have hread := hflush.snoc (show Steps _ (.read 1 (some [])) _
    from rfl)
  have hagree := (hall _ _ _ _ hread).results (.refused, .bytes [2]) (by decide)
  exact absurd hagree (by decide)

end Session

end AosKernel.Fs
