import AosKernel.Fs.AnsweredCalls

namespace AosKernel.Fs

open Verif Exec

variable {Entry : Type}

-- A file that fs_open made: where its blocks are, and what they hold.
structure OpenFile (Entry : Type) where
  file : Nat
  handler : Nat
  chunk : Nat
  closed : Bool
  path : List UInt8
  entry : Entry
  cache : DmmHandler
  curSeek : Nat
  touched : List Span

namespace OpenFile

def state (o : OpenFile Entry) (stored : Entry → List UInt8) : FileState :=
  ⟨stored o.entry, o.cache, o.curSeek, o.touched⟩

def become (o : OpenFile Entry) (chunk : Nat) (s : FileState) : OpenFile Entry :=
  { o with chunk := chunk, cache := s.handle, curSeek := s.curSeek, touched := s.touched }

def aosFile (o : OpenFile Entry) : AosFile := ⟨some o.handler, o.curSeek, o.closed⟩

def aosHandler (o : OpenFile Entry) : AosDmmHandler Entry where
  sign := AOS_FS_SIGN
  valid := true
  path := o.path
  entry := o.entry
  fileData := o.cache.fileData.map fun _ => o.chunk
  fileDataSize := o.cache.fileDataSize
  fileDataRefreshReq := o.cache.fileDataRefreshReq
  fileDataFlushRequired := o.cache.fileDataFlushRequired

def chunkBlocks (o : OpenFile Entry) : List (Nat × Block Entry) :=
  (o.cache.fileData.map fun bytes => (o.chunk, .chunk bytes)).toList

def blocks (o : OpenFile Entry) : List (Nat × Block Entry) :=
  o.chunkBlocks ++ [(o.handler, .handler o.aosHandler), (o.file, .file o.aosFile)]

end OpenFile

section Memory

variable {α : Type} {s : FileSystem Entry} {a : Nat} {E : Fault → Prop}

theorem sat_loadFile {f : AosFile} {Q : AosFile → FileSystem Entry → Prop}
    (h : s.heap a = some (.file f)) : Sat (loadFile a) s Q E ↔ Q f s := by
  simp only [loadFile, sat_bind, sat_get, h, sat_pure]

theorem sat_loadHandler {h : AosDmmHandler Entry}
    {Q : AosDmmHandler Entry → FileSystem Entry → Prop}
    (hh : s.heap a = some (.handler h)) : Sat (loadHandler a) s Q E ↔ Q h s := by
  simp only [loadHandler, sat_bind, sat_get, hh, sat_pure]

theorem sat_loadChunk {bytes : List UInt8} {Q : List UInt8 → FileSystem Entry → Prop}
    (h : s.heap a = some (.chunk bytes)) : Sat (loadChunk a) s Q E ↔ Q bytes s := by
  simp only [loadChunk, sat_bind, sat_get, h, sat_pure]

theorem sat_store {b : Block Entry} {Q : Unit → FileSystem Entry → Prop} :
    Sat (store a b) s Q E ↔ Q () (s.put a (some b)) :=
  sat_modify _ s Q E

theorem sat_avmfFree {Q : Unit → FileSystem Entry → Prop} (h : s.heap a ≠ none) :
    Sat (avmfFree a) s Q E ↔ Q () (s.put a none) := by
  simp [avmfFree, h]

end Memory

section Loads

variable {o : OpenFile Entry} {rest : List (Nat × Block Entry)} {heap : Nat → Option (Block Entry)}
  {s : FileSystem Entry} {E : Fault → Prop}

theorem OpenFile.load_file (h : HoldsJust heap (o.blocks ++ rest)) :
    heap o.file = some (.file o.aosFile) := h.load (by simp [OpenFile.blocks])

theorem OpenFile.load_handler (h : HoldsJust heap (o.blocks ++ rest)) :
    heap o.handler = some (.handler o.aosHandler) := h.load (by simp [OpenFile.blocks])

theorem OpenFile.blocks_some {bytes : List UInt8} (hbytes : o.cache.fileData = some bytes) :
    o.blocks = [(o.chunk, .chunk bytes), (o.handler, .handler o.aosHandler),
      (o.file, .file o.aosFile)] := by
  simp [OpenFile.blocks, OpenFile.chunkBlocks, hbytes]

theorem OpenFile.blocks_none (hnone : o.cache.fileData = none) :
    o.blocks = [(o.handler, .handler o.aosHandler), (o.file, .file o.aosFile)] := by
  simp [OpenFile.blocks, OpenFile.chunkBlocks, hnone]

theorem OpenFile.load_chunk (h : HoldsJust heap (o.blocks ++ rest)) {bytes : List UInt8}
    (hbytes : o.cache.fileData = some bytes) : heap o.chunk = some (.chunk bytes) :=
  h.load (by simp [OpenFile.blocks_some hbytes])

theorem sat_usableHandle {Q : Option Nat → FileSystem Entry → Prop}
    (h : HoldsJust s.heap (o.blocks ++ rest)) :
    Sat (usableHandle o.aosFile) s Q E ↔ Q (some o.handler) s := by
  simp [usableHandle, OpenFile.aosFile, sat_loadHandler (OpenFile.load_handler h),
    OpenFile.aosHandler]

theorem cached_eq {bytes : List UInt8} (hdata : o.cache.fileData = some bytes) :
    cached o.aosHandler = loadChunk o.chunk := by
  simp only [cached, OpenFile.aosHandler, hdata, Option.map_some]

theorem OpenFile.store_file (h : HoldsJust s.heap (o.blocks ++ rest)) (curSeek : Nat)
    (closed : Bool) :
    HoldsJust (Function.update s.heap o.file (some (.file ⟨some o.handler, curSeek, closed⟩)))
      (({ o with curSeek, closed } : OpenFile Entry).blocks ++ rest) := by
  have hsplit (p : OpenFile Entry) : p.blocks ++ rest =
      (p.chunkBlocks ++ [(p.handler, .handler p.aosHandler)]) ++
        (p.file, .file p.aosFile) :: rest := by
    simp only [OpenFile.blocks, List.append_assoc, List.cons_append, List.nil_append]
  rw [hsplit] at h
  rw [hsplit]
  exact h.storeAt

theorem dropContent_sat (h : HoldsJust s.heap (o.blocks ++ rest)) :
    Sat (dropContent o.handler) s (fun _ t => t.gmnt = s.gmnt ∧ t.stored = s.stored ∧
      ∃ handler, HoldsJust t.heap ((o.handler, .handler handler) :: (o.file, .file o.aosFile) ::
        rest)) E := by
  rw [dropContent, sat_bind, sat_loadHandler (OpenFile.load_handler h)]
  have hsign : o.aosHandler.sign = AOS_FS_SIGN := rfl
  simp only [hsign, ne_eq, not_true, if_false]
  cases hdata : o.cache.fileData with
  | none =>
      have hchunk : o.aosHandler.fileData = none := by
        simp only [OpenFile.aosHandler, hdata, Option.map_none]
      rw [OpenFile.blocks_none hdata] at h
      simp only [hchunk, avmfFreeIfAny, sat_bind, sat_pure, sat_store]
      exact ⟨rfl, rfl, _, h.store⟩
  | some bytes =>
      have hchunk : o.aosHandler.fileData = some o.chunk := by
        simp only [OpenFile.aosHandler, hdata, Option.map_some]
      rw [OpenFile.blocks_some hdata] at h
      simp only [hchunk, avmfFreeIfAny, sat_bind, sat_store]
      exact (sat_avmfFree h.head_in_use).mpr ⟨rfl, rfl, _, h.free.store⟩

theorem OpenFile.new_filled (o : OpenFile Entry) (stored : Entry → List UInt8)
    (hnew : o.cache = ⟨none, 0, true, false⟩) {bytes : List UInt8} {answer : PbfsRead}
    (hbytes : bytes.length = AOS_FS_CHUNK_SIZE) (hanswer : PbfsRead.Within AOS_FS_CHUNK_SIZE answer) :
    FileState.Filled (o.state stored)
      ((o.state stored).refillAnswered bytes AOS_FS_CHUNK_SIZE answer) := by
  have hsound : (o.state stored).Sound :=
    ⟨(by simp [OpenFile.state, hnew]), (by simp [OpenFile.state, hnew]),
      by simp [OpenFile.state, hnew]⟩
  have hfill : FileState.Filled (o.state stored)
      ((o.state stored).fillAnswered AOS_FS_CHUNK_SIZE (some bytes) answer) :=
    FileState.fillAnswered_filled hsound (fun b hb => by cases hb; exact hbytes) le_rfl hanswer
  simpa [FileState.fillAnswered, OpenFile.state, hnew] using hfill

end Loads

variable [DecidableEq Entry]

-- From a file `o` and blocks `rest` of others, `m` gives back `res.2` and leaves the
-- file as `res.1` says and the other blocks alone. It commits no fault.
def Does {α : Type} (m : FsM Entry α) (o : OpenFile Entry) (rest : List (Nat × Block Entry))
    (s : FileSystem Entry) (res : FileState × α) : Prop :=
  Sat m s (fun r t => r = res.2 ∧ t.gmnt = s.gmnt ∧
    t.stored = Function.update s.stored o.entry res.1.stored ∧
      ∃ c, HoldsJust t.heap ((o.become c res.1).blocks ++ rest)) fun _ => False

section Does

variable {α β : Type} {o : OpenFile Entry} {rest : List (Nat × Block Entry)}
  {s : FileSystem Entry}

theorem Does.pure (h : HoldsJust s.heap (o.blocks ++ rest)) (a : α) :
    Does (Pure.pure a) o rest s (o.state s.stored, a) :=
  ⟨rfl, rfl, (Function.update_eq_self _ _).symm, o.chunk, h⟩

theorem Does.bind {m : FsM Entry α} {f : α → FsM Entry β} {st : FileState} {a : α}
    {res : FileState × β} (hm : Does m o rest s (st, a))
    (hf : ∀ t c, HoldsJust t.heap ((o.become c st).blocks ++ rest) → t.gmnt = s.gmnt →
      t.stored = Function.update s.stored o.entry st.stored →
        Does (f a) (o.become c st) rest t res) : Does (m >>= f) o rest s res := by
  refine Sat.bind hm fun b t => ?_
  rintro ⟨rfl, hgmnt, hstored, c, hholds⟩
  refine (hf t c hholds hgmnt hstored).imp fun r u => ?_
  rintro ⟨hr, hgmnt', hstored', hholds'⟩
  refine ⟨hr, hgmnt'.trans hgmnt, ?_, hholds'⟩
  rw [hstored', hstored]
  exact Function.update_idem _ _ _

theorem Does.ite {m n : FsM Entry α} {c : Prop} [Decidable c] {res res' : FileState × α}
    (hm : c → Does m o rest s res) (hn : ¬ c → Does n o rest s res') :
    Does (if c then m else n) o rest s (if c then res else res') := by
  split
  · exact hm ‹_›
  · exact hn ‹_›

-- The first step of a call, where it reads only.
variable {f : α → FsM Entry β} {res : FileState × β}

theorem does_get {f : FileSystem Entry → FsM Entry β} :
    Does (get >>= f) o rest s res ↔ Does (f s) o rest s res := by
  rw [Does, sat_bind, sat_get, Does]

theorem does_loadFile {f : AosFile → FsM Entry β} (h : HoldsJust s.heap (o.blocks ++ rest)) :
    Does (loadFile o.file >>= f) o rest s res ↔ Does (f o.aosFile) o rest s res := by
  rw [Does, sat_bind, sat_loadFile (OpenFile.load_file h), Does]

theorem does_loadHandler {f : AosDmmHandler Entry → FsM Entry β}
    (h : HoldsJust s.heap (o.blocks ++ rest)) :
    Does (loadHandler o.handler >>= f) o rest s res ↔ Does (f o.aosHandler) o rest s res := by
  rw [Does, sat_bind, sat_loadHandler (OpenFile.load_handler h), Does]

theorem does_usableHandle {f : Option Nat → FsM Entry β}
    (h : HoldsJust s.heap (o.blocks ++ rest)) :
    Does (usableHandle o.aosFile >>= f) o rest s res ↔
      Does (f (some o.handler)) o rest s res := by
  rw [Does, sat_bind, sat_usableHandle h, Does]

theorem does_loadChunk {f : List UInt8 → FsM Entry β} (h : HoldsJust s.heap (o.blocks ++ rest))
    {bytes : List UInt8} (hdata : o.cache.fileData = some bytes) :
    Does (loadChunk o.chunk >>= f) o rest s res ↔ Does (f bytes) o rest s res := by
  rw [Does, sat_bind, sat_loadChunk (OpenFile.load_chunk h hdata), Does]

end Does

section Fill

variable {o : OpenFile Entry} {rest : List (Nat × Block Entry)} {s : FileSystem Entry}

theorem refill_does {a cap : Nat} {bytes : List UInt8} {answer : PbfsRead}
    (h : HoldsJust s.heap ((a, .chunk bytes) :: (o.handler, .handler o.aosHandler) ::
      (o.file, .file o.aosFile) :: rest)) :
    Does (refill o.handler o.aosHandler a cap answer) o rest s
      ((o.state s.stored).refillAnswered bytes cap answer) := by
  have hload : s.heap a = some (.chunk bytes) := h.load (.head _)
  rw [Does, refill, sat_bind, sat_loadChunk hload]
  cases answer with
  | success =>
      simp only [sat_bind, sat_get, sat_store, sat_pure]
      refine ⟨rfl, rfl, (Function.update_eq_self _ _).symm, a, ?_⟩
      rw [OpenFile.blocks_some rfl]
      exact h.store.storeAt (l := [_])
  | failure written size =>
      simp only [sat_bind, sat_store, sat_pure]
      refine ⟨rfl, rfl, (Function.update_eq_self _ _).symm, a, ?_⟩
      rw [OpenFile.blocks_some rfl]
      exact h.store.storeAt (l := [_])

theorem ensureData_does {cap : Nat} {chunk : NewChunk} {answer : PbfsRead}
    (h : HoldsJust s.heap (o.blocks ++ rest))
    (hfresh : ∀ c ∈ chunk, s.heap c.1 = none) :
    Does (ensureData o.handler cap chunk answer) o rest s
      ((o.state s.stored).fillAnswered cap (chunk.map Prod.snd) answer) := by
  rw [Does, ensureData, sat_bind, sat_loadHandler (OpenFile.load_handler h)]
  cases hdata : o.cache.fileData with
  | some bytes =>
      have hchunk : o.aosHandler.fileData = some o.chunk := by
        simp only [OpenFile.aosHandler, hdata, Option.map_some]
      have hblocks := h
      rw [OpenFile.blocks_some hdata] at hblocks
      cases hrefresh : o.cache.fileDataRefreshReq with
      | true =>
          have hsame : (o.state s.stored).fillAnswered cap (chunk.map Prod.snd) answer =
              (o.state s.stored).refillAnswered bytes cap answer := by
            simp only [FileState.fillAnswered, OpenFile.state, hdata, hrefresh, if_true]
          rw [hsame]
          have hreq : o.aosHandler.fileDataRefreshReq = true := hrefresh
          simp only [hchunk, hreq, if_true]
          exact refill_does hblocks
      | false =>
          have hsame : (o.state s.stored).fillAnswered cap (chunk.map Prod.snd) answer =
              (o.state s.stored, true) := by
            simp [FileState.fillAnswered, OpenFile.state, hdata, hrefresh]
          rw [hsame]
          have hreq : o.aosHandler.fileDataRefreshReq = false := hrefresh
          simp only [hchunk, hreq, Bool.false_eq_true, if_false]
          exact Does.pure h true
  | none =>
      have hchunk : o.aosHandler.fileData = none := by
        simp only [OpenFile.aosHandler, hdata, Option.map_none]
      have hblocks := h
      rw [OpenFile.blocks_none hdata] at hblocks
      cases chunk with
      | none =>
          have hsame : (o.state s.stored).fillAnswered cap none answer =
              (o.state s.stored, false) := by
            simp [FileState.fillAnswered, OpenFile.state, hdata]
          simp only [hchunk, Option.map_none, hsame]
          exact Does.pure h false
      | some c =>
          obtain ⟨a, bytes⟩ := c
          have hsame : (o.state s.stored).fillAnswered cap (some bytes) answer =
              (o.state s.stored).refillAnswered bytes cap answer := by
            simp [FileState.fillAnswered, OpenFile.state, hdata]
          simp only [hchunk, Option.map_some, hsame, sat_bind, sat_store]
          exact refill_does (hblocks.alloc (hfresh (a, bytes) rfl))

end Fill

section Calls

variable {o : OpenFile Entry} {rest : List (Nat × Block Entry)} {s : FileSystem Entry}

-- After ensureData a filled chunk is there to work on.
theorem FileState.fillAnswered_data {s : FileState} {cap : Nat} {chunk : Option (List UInt8)}
    {answer : PbfsRead} (h : (s.fillAnswered cap chunk answer).2 = true) :
    ∃ bytes, (s.fillAnswered cap chunk answer).1.handle.fileData = some bytes := by
  unfold fillAnswered at *
  cases answer <;> (split at h <;> try split at h) <;> simp_all [refillAnswered]

theorem Does.whenFilled {cap : Nat} {chunk : NewChunk} {answer : PbfsRead}
    {use : FileState → List UInt8 → FileState × FileResult} {prog : FsM Entry FileResult}
    (h : HoldsJust s.heap (o.blocks ++ rest)) (hfresh : ∀ c ∈ chunk, s.heap c.1 = none)
    (huse : ∀ t c st bytes, HoldsJust t.heap ((o.become c st).blocks ++ rest) →
      (o.become c st).aosFile = o.aosFile → st.handle.fileData = some bytes →
        Does prog (o.become c st) rest t (use ((o.become c st).state t.stored) bytes)) :
    Does (do
      if !(← ensureData o.handler cap chunk answer) then return .refused
      prog) o rest s
      (FileState.whenFilled ((o.state s.stored).fillAnswered cap (chunk.map Prod.snd) answer)
        use) := by
  have hfill : Does (ensureData o.handler cap chunk answer) o rest s _ :=
    ensureData_does h hfresh
  have hframe := (o.state s.stored).fillAnswered_frame cap (chunk.map Prod.snd) answer
  have hdata (hready : ((o.state s.stored).fillAnswered cap (chunk.map Prod.snd) answer).2 =
      true) := FileState.fillAnswered_data hready
  generalize (o.state s.stored).fillAnswered cap (chunk.map Prod.snd) answer = filled at *
  obtain ⟨st, ready⟩ := filled
  refine hfill.bind fun t c hholds hgmnt ht => ?_
  have hst : (o.become c st).state t.stored = st := by
    rw [OpenFile.state, OpenFile.become, ht, Function.update_self]
  cases ready with
  | true =>
      obtain ⟨bytes, hbytes⟩ : ∃ bytes, st.handle.fileData = some bytes := hdata rfl
      have huses : FileState.whenFilled (st, true) use = use st bytes := by
        simp only [FileState.whenFilled, if_true, hbytes, Option.getD_some]
      have hfile : (o.become c st).aosFile = o.aosFile :=
        congrArg (fun n => (⟨some o.handler, n, o.closed⟩ : AosFile)) hframe.2
      rw [huses]
      have huse := huse t c st bytes hholds hfile hbytes
      rw [hst] at huse
      exact huse
  | false =>
      have hrefused : FileState.whenFilled (st, false) use = (st, FileResult.refused) := rfl
      rw [hrefused, ← hst]
      exact Does.pure hholds FileResult.refused

-- What every call does before it looks at the content.
theorem does_begin {prog : AosFile → Nat → FsM Entry FileResult} {res : FileState × FileResult}
    (h : HoldsJust s.heap (o.blocks ++ rest)) (hopen : o.closed = false)
    (hprog : Does (prog o.aosFile o.handler) o rest s res) :
    Does (do
      let file ← loadFile o.file
      if file.closed then return .refused
      match ← usableHandle file with
      | none => return .refused
      | some h => prog file h) o rest s res := by
  refine (does_loadFile h).mpr ?_
  have hclosed : o.aosFile.closed = false := hopen
  rw [hclosed, if_neg Bool.false_ne_true]
  exact (does_usableHandle h).mpr hprog

theorem readFile_does {size : Nat} {chunk : NewChunk} {answer : PbfsRead}
    (h : HoldsJust s.heap (o.blocks ++ rest)) (hfresh : ∀ c ∈ chunk, s.heap c.1 = none)
    (hgmnt : s.gmnt = true) (hopen : o.closed = false) :
    Does (readFile o.file size chunk answer) o rest s
      ((o.state s.stored).readAnswered size (chunk.map Prod.snd) answer) := by
  rw [readFile, FileState.readAnswered, does_get]
  simp only [hgmnt, Bool.not_true, Bool.false_eq_true, if_false]
  refine Does.ite (fun _ => Does.pure h _) fun _ => does_begin h hopen
    (Does.whenFilled h hfresh fun t c st bytes hholds hfile hbytes => ?_)
  rw [← hfile]
  refine (does_loadHandler hholds).mpr (Does.ite (fun _ => Does.pure hholds _) fun _ => ?_)
  rw [cached_eq hbytes]
  refine (does_loadChunk hholds hbytes).mpr ?_
  rw [Does, sat_bind, sat_store]
  exact ⟨rfl, rfl, (Function.update_eq_self _ _).symm, c, OpenFile.store_file hholds _ _⟩

theorem writeFile_does {data : List UInt8} {chunk : NewChunk} {answer : PbfsRead}
    (h : HoldsJust s.heap (o.blocks ++ rest)) (hfresh : ∀ c ∈ chunk, s.heap c.1 = none)
    (hgmnt : s.gmnt = true) (hopen : o.closed = false) :
    Does (writeFile o.file data chunk answer) o rest s
      ((o.state s.stored).writeAnswered data (chunk.map Prod.snd) answer) := by
  rw [writeFile, FileState.writeAnswered, does_get]
  simp only [hgmnt, Bool.not_true, Bool.false_eq_true, if_false]
  refine Does.ite (fun _ => Does.pure h _) fun _ => does_begin h hopen
    (Does.whenFilled h hfresh fun t c st bytes hholds hfile hbytes => ?_)
  rw [← hfile]
  refine (does_loadHandler hholds).mpr (Does.ite (fun _ => Does.pure hholds _) fun _ => ?_)
  have hchunk : (o.become c st).aosHandler.fileData = some c := by
    simp only [OpenFile.aosHandler, OpenFile.become, hbytes, Option.map_some]
  simp only [hchunk]
  refine (does_loadChunk hholds hbytes).mpr ?_
  rw [OpenFile.blocks_some hbytes] at hholds
  simp only [Does, sat_bind, sat_store, sat_pure]
  refine ⟨trivial, rfl, (Function.update_eq_self _ _).symm, c, ?_⟩
  rw [OpenFile.blocks_some rfl]
  exact (hholds.store.storeAt (l := [_])).storeAt (l := [_, _])

theorem seekFile_does {seekTo : Nat} {mode : SeekMode} {chunk : NewChunk} {answer : PbfsRead}
    (h : HoldsJust s.heap (o.blocks ++ rest)) (hfresh : ∀ c ∈ chunk, s.heap c.1 = none)
    (hgmnt : s.gmnt = true) (hopen : o.closed = false) :
    Does (seekFile o.file seekTo mode chunk answer) o rest s
      ((o.state s.stored).seekAnswered seekTo mode (chunk.map Prod.snd) answer) := by
  rw [seekFile, FileState.seekAnswered, does_get]
  simp only [hgmnt, Bool.not_true, Bool.false_eq_true, if_false]
  refine does_begin h hopen
    (Does.whenFilled h hfresh fun t c st bytes hholds hfile hbytes => ?_)
  rw [← hfile]
  refine (does_loadHandler hholds).mpr ?_
  rw [FileState.seekCache_eq_target]
  refine Does.ite (fun _ => Does.pure hholds _) fun _ => ?_
  have hsize : (o.become c st).aosHandler.fileDataSize =
    ((o.become c st).state t.stored).handle.fileDataSize := rfl
  have hseek : (o.become c st).aosFile.curSeek = ((o.become c st).state t.stored).curSeek := rfl
  rw [hsize, hseek]
  generalize htarget : seekTarget _ _ seekTo mode = target
  cases target with
  | none => exact Does.pure hholds _
  | some sto =>
      refine Does.ite (fun _ => Does.pure hholds _) fun _ => ?_
      rw [Does, sat_bind, sat_store]
      exact ⟨rfl, rfl, (Function.update_eq_self _ _).symm, c, OpenFile.store_file hholds _ _⟩

theorem tellFile_does (h : HoldsJust s.heap (o.blocks ++ rest)) (hgmnt : s.gmnt = true)
    (hopen : o.closed = false) :
    Does (tellFile o.file) o rest s (o.state s.stored).tellFile := by
  rw [tellFile, does_get]
  simp only [hgmnt, Bool.not_true, Bool.false_eq_true, if_false]
  refine (does_loadFile h).mpr ?_
  have hclosed : o.aosFile.closed = false := hopen
  rw [hclosed, if_neg Bool.false_ne_true]
  exact Does.pure h _

theorem flushFile_does {answer : PbfsUpdate} (h : HoldsJust s.heap (o.blocks ++ rest))
    (hgmnt : s.gmnt = true) (hsound : o.cache.fileDataFlushRequired = true →
      o.cache.fileData ≠ none ∧ 0 < o.cache.fileDataSize) :
    Does (flushFile o.file answer) o rest s ((o.state s.stored).flushAnswered answer) := by
  rw [flushFile, does_get]
  simp only [hgmnt, Bool.not_true, Bool.false_eq_true, if_false]
  refine (does_loadFile h).mpr ((does_usableHandle h).mpr ((does_loadHandler h).mpr ?_))
  have hrequired : o.aosHandler.fileDataFlushRequired = o.cache.fileDataFlushRequired := rfl
  cases hflush : o.cache.fileDataFlushRequired with
  | false =>
      have hnothing : (o.state s.stored).flushAnswered answer = (o.state s.stored, .done) := by
        cases answer <;>
          simp [FileState.flushAnswered, FileState.flushFile, OpenFile.state, hflush]
      rw [hnothing, hrequired, hflush, if_pos (Bool.not_false)]
      exact Does.pure h _
  | true =>
      obtain ⟨hdata, hsize⟩ := hsound hflush
      obtain ⟨bytes, hbytes⟩ := Option.ne_none_iff_exists'.mp hdata
      have hchunk : o.aosHandler.fileData = some o.chunk := by
        simp only [OpenFile.aosHandler, hbytes, Option.map_some]
      have hne : o.aosHandler.fileDataSize ≠ 0 := hsize.ne'
      rw [hrequired, hflush]
      simp only [Bool.not_true, Bool.false_eq_true, if_false, hchunk, Option.isNone_some,
        false_and, unsavedBytes, if_neg hne, cached_eq hbytes, bind_assoc]
      rw [does_loadChunk h hbytes]
      have hblocks := h
      rw [OpenFile.blocks_some hbytes] at hblocks
      cases answer with
      | success =>
          have hdone : (o.state s.stored).flushAnswered .success =
              (⟨bytes.take o.cache.fileDataSize, ⟨none, 0, true, false⟩, o.curSeek, o.touched⟩,
                .done) := by
            simp [FileState.flushAnswered, FileState.flushFile, OpenFile.state, hflush, hbytes,
              hsize.ne']
          rw [hdone]
          simp only [Does, pure_bind, pbfsUpdateFileDmm, avmfFreeIfAny, sat_bind, sat_modify, sat_pure,
            Bool.not_true, Bool.false_eq_true, if_false, sat_store]
          refine (sat_avmfFree ?_).mpr ?_
          · exact hblocks.head_in_use
          · refine ⟨trivial, rfl, rfl, o.chunk, ?_⟩
            rw [OpenFile.blocks_none rfl]
            exact hblocks.free.store
      | failure left =>
          have hrefused : (o.state s.stored).flushAnswered (.failure left) =
              ({ o.state s.stored with stored := left }, .refused) := by
            simp [FileState.flushAnswered, OpenFile.state, hflush, hbytes]
          rw [hrefused]
          simp only [Does, pure_bind, pbfsUpdateFileDmm, sat_bind, sat_modify, sat_pure,
            Bool.not_false, if_true]
          exact ⟨trivial, trivial, rfl, o.chunk, h⟩

-- fs_close leaves nothing of the file behind, whatever PBFS makes of the flush.
theorem fsClose_sat {answer : PbfsUpdate} (h : HoldsJust s.heap (o.blocks ++ rest))
    (hgmnt : s.gmnt = true) (hopen : o.closed = false)
    (hsound : o.cache.fileDataFlushRequired = true →
      o.cache.fileData ≠ none ∧ 0 < o.cache.fileDataSize) :
    Sat (fsClose o.file answer) s (fun _ t => t.gmnt = s.gmnt ∧
      t.stored = Function.update s.stored o.entry
        ((o.state s.stored).flushAnswered answer).1.stored ∧
      HoldsJust t.heap rest) fun _ => False := by
  have hclosed : o.aosFile.closed = false := hopen
  rw [fsClose, sat_bind, sat_loadFile (OpenFile.load_file h), hclosed, if_neg Bool.false_ne_true,
    sat_bind, sat_store]
  have hshut : HoldsJust (s.put o.file (some (.file ⟨some o.handler, o.curSeek, true⟩))).heap
      (({ o with closed := true } : OpenFile Entry).blocks ++ rest) :=
    OpenFile.store_file h o.curSeek true
  have hflush : Does (flushFile o.file answer) { o with closed := true } rest
      (s.put o.file (some (.file ⟨some o.handler, o.curSeek, true⟩)))
      ((o.state s.stored).flushAnswered answer) :=
    flushFile_does (o := { o with closed := true }) hshut hgmnt hsound
  refine Sat.bind hflush fun r t => ?_
  rintro ⟨-, ht, hstored, c, hholds⟩
  rw [sat_bind]
  refine (sat_loadFile (OpenFile.load_file hholds)).mpr ?_
  refine Sat.bind (dropContent_sat hholds) fun _ u => ?_
  rintro ⟨hu, hustored, hd, hleft⟩
  rw [sat_bind]
  refine (sat_avmfFree hleft.head_in_use).mpr ((sat_avmfFree hleft.free.head_in_use).mpr ?_)
  exact ⟨hu.trans ht, hustored.trans hstored, hleft.free.free⟩

def fileCall (self : Nat) : FileCall → FsM Entry FileResult
  | .read size chunk answer => readFile self size chunk answer
  | .write data chunk answer => writeFile self data chunk answer
  | .seek seekTo mode chunk answer => seekFile self seekTo mode chunk answer
  | .tell => tellFile self
  | .flush answer => flushFile self answer

theorem FileState.Sound.flushable {st : FileState} (h : st.Sound)
    (hflush : st.handle.fileDataFlushRequired = true) :
    st.handle.fileData ≠ none ∧ 0 < st.handle.fileDataSize :=
  ⟨(h.filled (h.kept hflush).1).1, (h.kept hflush).2⟩

theorem fileCall_does {call : FileCall} (h : HoldsJust s.heap (o.blocks ++ rest))
    (hfresh : ∀ c ∈ call.chunk, s.heap c.1 = none) (hgmnt : s.gmnt = true)
    (hopen : o.closed = false) (hsound : (o.state s.stored).Sound) :
    Does (fileCall o.file call) o rest s ((o.state s.stored).answered call) := by
  cases call with
  | read size chunk answer => exact readFile_does h hfresh hgmnt hopen
  | write data chunk answer => exact writeFile_does h hfresh hgmnt hopen
  | seek seekTo mode chunk answer => exact seekFile_does h hfresh hgmnt hopen
  | tell => exact tellFile_does h hgmnt hopen
  | flush answer => exact flushFile_does h hgmnt hsound.flushable

end Calls

section Open

variable {l : List (Nat × Block Entry)} {s : FileSystem Entry}

-- The allocator's answers to fs_open are blocks that are not in use, of their size.
structure OpenAnswers.Fresh (answers : OpenAnswers Entry) (s : FileSystem Entry) : Prop where
  file : ∀ f ∈ answers.file, s.heap f = none
  handler : ∀ h ∈ answers.handler, s.heap h = none ∧ h ∉ answers.file
  chunk : ∀ c ∈ answers.chunk, s.heap c.1 = none ∧ c.1 ∉ answers.file ∧ c.1 ∉ answers.handler ∧
    c.2.length = AOS_FS_CHUNK_SIZE
  read : PbfsRead.Within AOS_FS_CHUNK_SIZE answers.read

-- The file that fs_open makes before it reads the content.
def OpenFile.new (f h a : Nat) (path : List UInt8) (entry : Entry) : OpenFile Entry :=
  ⟨f, h, a, false, path, entry, ⟨none, 0, true, false⟩, 0, []⟩

-- A file just opened: it is at its beginning and has nothing to flush.
structure OpenFile.New (o : OpenFile Entry) (t : FileSystem Entry) (l : List (Nat × Block Entry)) :
    Prop where
  closed : o.closed = false
  curSeek : o.curSeek = 0
  sound : (o.state t.stored).Sound
  unsaved : (o.state t.stored).unsaved = none
  holds : HoldsJust t.heap (o.blocks ++ l)

-- What fs_open leaves: nothing new, or a file with all that it needs.
def Opens (s : FileSystem Entry) (l : List (Nat × Block Entry)) (found : Option Entry)
    (path : List UInt8) (fits : Prop) (r : Option Nat) (t : FileSystem Entry) : Prop :=
  t.gmnt = s.gmnt ∧ t.stored = s.stored ∧
    (r = none ∧ HoldsJust t.heap l ∨
      s.gmnt = true ∧ fits ∧ ∃ o : OpenFile Entry,
        r = some o.file ∧ found = some o.entry ∧ o.path = path ∧ o.New t l)

theorem fsOpen_sat {maxPathLen : Nat} {path : List UInt8} {answers : OpenAnswers Entry}
    (h : HoldsJust s.heap l) (hfresh : answers.Fresh s) :
    Sat (fsOpen maxPathLen path answers) s
      (Opens s l answers.found path (path.length < maxPathLen)) fun _ => False := by
  obtain ⟨found, file, handler, chunk, read⟩ := answers
  have hnull : Opens s l found path (path.length < maxPathLen) none s :=
    ⟨rfl, rfl, .inl ⟨rfl, h⟩⟩
  rw [fsOpen, sat_bind, sat_get]
  refine Sat.ite (fun _ => hnull) fun hgmnt => Sat.ite (fun _ => hnull) fun hpath => ?_
  have hmounted : s.gmnt = true := by simpa using hgmnt
  have hfits : path.length < maxPathLen := by simpa using hpath
  cases found with
  | none => exact hnull
  | some entry =>
  cases file with
  | none => exact hnull
  | some f =>
  have hfile := h.alloc (b := .file ⟨none, 0, false⟩) (hfresh.file f rfl)
  cases handler with
  | none =>
      simp only [sat_bind, sat_store]
      refine (sat_avmfFree ?_).mpr ⟨rfl, rfl, .inl ⟨rfl, ?_⟩⟩
      · exact hfile.head_in_use
      · exact hfile.free
  | some hd =>
  obtain ⟨hd_free, hd_ne⟩ := hfresh.handler hd rfl
  have hdf : hd ≠ f := fun heq => hd_ne (congrArg some heq.symm)
  have hhandler := (hfile.store (e := .file ⟨some hd, 0, false⟩)).alloc (a := hd)
    (b := .handler (newHandler path entry)) (by simp [Function.update_of_ne hdf, hd_free])
  cases chunk with
  | none =>
      simp only [sat_bind, sat_store, sat_pure]
      refine ⟨rfl, rfl, .inr ⟨hmounted, hfits, OpenFile.new f hd 0 path entry, rfl, rfl, rfl, rfl,
        rfl, ?_, rfl, hhandler⟩⟩
      exact ⟨(fun _ hb => by cases hb), (fun hr => by cases hr), fun hf => by cases hf⟩
  | some c =>
  obtain ⟨a, bytes⟩ := c
  obtain ⟨ha_free, ha_f, ha_hd, hbytes⟩ := hfresh.chunk (a, bytes) rfl
  have haf : a ≠ f := fun heq => ha_f (congrArg some heq.symm)
  have had : a ≠ hd := fun heq => ha_hd (congrArg some heq.symm)
  have hchunk := hhandler.alloc (a := a) (b := .chunk bytes)
    (by simp [Function.update_of_ne haf, Function.update_of_ne had, ha_free])
  have hfilled := (OpenFile.new f hd a path entry).new_filled s.stored rfl hbytes hfresh.read
  simp only [sat_bind, sat_store, sat_pure]
  refine (refill_does (o := OpenFile.new f hd a path entry) hchunk).imp fun ready t => ?_
  rintro ⟨-, hgmnt', hstored, c, hholds⟩
  refine ⟨hgmnt', ?_, .inr ⟨hmounted, hfits, _, rfl, rfl, rfl, rfl, hfilled.curSeek,
    hfilled.sound.of_handle rfl, ?_, hholds⟩⟩
  · rw [hstored]
    exact (congrArg (Function.update s.stored entry) hfilled.stored).trans
      (Function.update_eq_self _ _)
  · exact (FileState.unsaved_of_handle rfl).trans hfilled.unsaved

end Open

end AosKernel.Fs
