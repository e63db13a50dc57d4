import AosKernel.Fs.FileHandle
import AosKernel.Lib.Blocks
import AosKernel.Lib.Exec

namespace AosKernel.Fs

open Verif

def AOS_FS_SIGN : Nat := 0xA1519F19

structure AosDmmHandler (Entry : Type) where
  sign : Nat
  valid : Bool
  path : List UInt8
  entry : Entry
  fileData : Option Nat
  fileDataSize : Nat
  fileDataRefreshReq : Bool
  fileDataFlushRequired : Bool

structure AosFile where
  handle : Option Nat
  curSeek : Nat
  closed : Bool

-- What a block from avmf_alloc is used for.
inductive Block (Entry : Type)
  | file (file : AosFile)
  | handler (handler : AosDmmHandler Entry)
  | chunk (bytes : List UInt8)

structure FileSystem (Entry : Type) where
  gmnt : Bool
  heap : Nat → Option (Block Entry)
  stored : Entry → List UInt8

def FileSystem.put {Entry : Type} (s : FileSystem Entry) (a : Nat) (b : Option (Block Entry)) :
    FileSystem Entry :=
  { s with heap := Function.update s.heap a b }

-- An access to memory that is not in use or is in use for something else, and a
-- block given back that is not in use.
inductive Fault
  | access (addr : Nat)
  | release (addr : Nat)

-- What PBFS answers. A read that fails may have filled a part of the buffer and set
-- the size, an update that fails may have changed the file.
inductive PbfsRead
  | success
  | failure (written : List UInt8) (size : Nat)

inductive PbfsUpdate
  | success
  | failure (left : List UInt8)

-- The allocator's answer for a chunk, with what the memory holds.
abbrev NewChunk := Option (Nat × List UInt8)

variable {Entry : Type} [DecidableEq Entry]

abbrev FsM (Entry : Type) := Exec Fault (FileSystem Entry)

section Memory

def loadFile (a : Nat) : FsM Entry AosFile := do
  match (← get).heap a with
  | some (.file f) => return f
  | _ => throw (.access a)

def loadHandler (a : Nat) : FsM Entry (AosDmmHandler Entry) := do
  match (← get).heap a with
  | some (.handler h) => return h
  | _ => throw (.access a)

def loadChunk (a : Nat) : FsM Entry (List UInt8) := do
  match (← get).heap a with
  | some (.chunk bytes) => return bytes
  | _ => throw (.access a)

def store (a : Nat) (b : Block Entry) : FsM Entry Unit :=
  modify fun s => s.put a (some b)

def avmfFree (a : Nat) : FsM Entry Unit := do
  if ((← get).heap a).isNone then throw (.release a)
  modify fun s => s.put a none

def avmfFreeIfAny : Option Nat → FsM Entry Unit
  | none => pure ()
  | some a => avmfFree a

end Memory

section Calls

-- pbfs_read_file_dmm into the chunk at `a`.
def refill (h : Nat) (handler : AosDmmHandler Entry) (a cap : Nat) (answer : PbfsRead) :
    FsM Entry Bool := do
  let bytes ← loadChunk a
  match answer with
  | .success =>
      let data := pbfsReadFileDmm ((← get).stored handler.entry) cap
      store a (.chunk (overlay bytes 0 data))
      store h (.handler { handler with
        fileData := some a, fileDataSize := data.length, fileDataRefreshReq := false })
      return true
  | .failure written size =>
      store a (.chunk (overlay bytes 0 written))
      store h (.handler { handler with fileData := some a, fileDataSize := size })
      return false

-- What read_file, write_file and seek_file do to have the file in the chunk.
def ensureData (h cap : Nat) (chunk : NewChunk) (answer : PbfsRead) : FsM Entry Bool := do
  let handler ← loadHandler h
  match handler.fileData with
  | some a =>
      if handler.fileDataRefreshReq then refill h handler a cap answer else return true
  | none =>
      match chunk with
      | none => return false
      | some (a, bytes) =>
          store a (.chunk bytes)
          refill h handler a cap answer

-- The checks that the calls on a file begin with.
def usableHandle (file : AosFile) : FsM Entry (Option Nat) := do
  match file.handle with
  | none => return none
  | some h =>
      if (← loadHandler h).sign ≠ AOS_FS_SIGN then return none
      return some h

-- The bytes behind file_data.
def cached (handler : AosDmmHandler Entry) : FsM Entry (List UInt8) :=
  match handler.fileData with
  | none => throw (.access 0)
  | some a => loadChunk a

def readFile (self size : Nat) (chunk : NewChunk) (answer : PbfsRead) : FsM Entry FileResult := do
  if !(← get).gmnt then return .refused
  if size = 0 then return .bytes []
  let file ← loadFile self
  if file.closed then return .refused
  match ← usableHandle file with
  | none => return .refused
  | some h =>
      if !(← ensureData h size chunk answer) then return .refused
      let handler ← loadHandler h
      if file.curSeek > handler.fileDataSize ∨ size > handler.fileDataSize - file.curSeek then
        return .refused
      let bytes ← cached handler
      store self (.file { file with curSeek := file.curSeek + size })
      return .bytes ((bytes.drop file.curSeek).take size)

def writeFile (self : Nat) (data : List UInt8) (chunk : NewChunk) (answer : PbfsRead) :
    FsM Entry FileResult := do
  if !(← get).gmnt then return .refused
  if data.length = 0 then return .done
  let file ← loadFile self
  if file.closed then return .refused
  match ← usableHandle file with
  | none => return .refused
  | some h =>
      if !(← ensureData h AOS_FS_CHUNK_SIZE chunk answer) then return .refused
      let handler ← loadHandler h
      if file.curSeek > handler.fileDataSize ∨
          data.length > handler.fileDataSize - file.curSeek then
        return .refused
      match handler.fileData with
      | none => throw (.access 0)
      | some a =>
          let bytes ← loadChunk a
          store a (.chunk (overlay bytes file.curSeek data))
          store h (.handler { handler with fileDataFlushRequired := true })
          store self (.file { file with curSeek := file.curSeek + data.length })
          return .done

-- pbfs_update_file_dmm replaces the stored content.
def pbfsUpdateFileDmm (entry : Entry) (data : List UInt8) : PbfsUpdate → FsM Entry Bool
  | .success => do
      modify fun s => { s with stored := Function.update s.stored entry data }
      return true
  | .failure left => do
      modify fun s => { s with stored := Function.update s.stored entry left }
      return false

-- The content that flush_file hands to PBFS.
def unsavedBytes (handler : AosDmmHandler Entry) : FsM Entry (List UInt8) :=
  if handler.fileDataSize = 0 then return [0]
  else do
    let bytes ← cached handler
    return bytes.take handler.fileDataSize

-- A file that is closed already is flushed all the same: fs_close relies on it.
def flushFile (self : Nat) (answer : PbfsUpdate) : FsM Entry FileResult := do
  if !(← get).gmnt then return .refused
  let file ← loadFile self
  match ← usableHandle file with
  | none => return .refused
  | some h =>
      let handler ← loadHandler h
      if !handler.fileDataFlushRequired then return .done
      if handler.fileData.isNone ∧ handler.fileDataSize > 0 then return .refused
      let data ← unsavedBytes handler
      if !(← pbfsUpdateFileDmm handler.entry data answer) then return .refused
      avmfFreeIfAny handler.fileData
      store h (.handler { handler with
        fileData := none, fileDataSize := 0,
        fileDataFlushRequired := false, fileDataRefreshReq := true })
      return .done

def tellFile (self : Nat) : FsM Entry FileResult := do
  if !(← get).gmnt then return .position 0
  let file ← loadFile self
  if file.closed then return .position 0
  return .position file.curSeek

-- Where a seek goes, NULL when it is refused. The sums are those of a uint64_t.
def seekTarget (size curSeek seekTo : Nat) : SeekMode → Option Nat
  | .cur =>
      if seekTo > (size + 2 ^ 64 - curSeek) % 2 ^ 64 then none
      else some ((seekTo + curSeek) % 2 ^ 64)
  | .fromEnd => some (size - seekTo)
  | .set => some seekTo

def seekFile (self seekTo : Nat) (mode : SeekMode) (chunk : NewChunk) (answer : PbfsRead) :
    FsM Entry FileResult := do
  if !(← get).gmnt then return .refused
  let file ← loadFile self
  if file.closed then return .refused
  match ← usableHandle file with
  | none => return .refused
  | some h =>
      if !(← ensureData h AOS_FS_CHUNK_SIZE chunk answer) then return .refused
      let handler ← loadHandler h
      if seekTo > handler.fileDataSize then return .refused
      match seekTarget handler.fileDataSize file.curSeek seekTo mode with
      | none => return .refused
      | some sto =>
          if sto > handler.fileDataSize then return .refused
          store self (.file { file with curSeek := sto })
          return .done

-- The allocator's answers for struct aos_file and struct aos_dmm_handler, and what
-- pbfs_find_entry found.
structure OpenAnswers (Entry : Type) where
  found : Option Entry
  file : Option Nat
  handler : Option Nat
  chunk : NewChunk
  read : PbfsRead

def newHandler (path : List UInt8) (entry : Entry) : AosDmmHandler Entry :=
  ⟨AOS_FS_SIGN, true, path, entry, none, 0, true, false⟩

def fsOpen (maxPathLen : Nat) (path : List UInt8) (answers : OpenAnswers Entry) :
    FsM Entry (Option Nat) := do
  if !(← get).gmnt then return none
  if path.length ≥ maxPathLen then return none
  match answers.found, answers.file with
  | some entry, some f =>
      store f (.file ⟨none, 0, false⟩)
      match answers.handler with
      | none =>
          avmfFree f
          return none
      | some h =>
          store f (.file ⟨some h, 0, false⟩)
          store h (.handler (newHandler path entry))
          match answers.chunk with
          | none => return some f
          | some (a, bytes) =>
              store a (.chunk bytes)
              let _ ← refill h (newHandler path entry) a AOS_FS_CHUNK_SIZE answers.read
              return some f
  | _, _ => return none

-- What fs_close does to the handle while it has its lock.
def dropContent (h : Nat) : FsM Entry Unit := do
  let handler ← loadHandler h
  if handler.sign ≠ AOS_FS_SIGN then return
  avmfFreeIfAny handler.fileData
  store h (.handler { handler with
    valid := false, fileData := none, fileDataSize := 0,
    fileDataRefreshReq := true, fileDataFlushRequired := false })

def fsClose (f : Nat) (answer : PbfsUpdate) : FsM Entry Unit := do
  let file ← loadFile f
  if file.closed then return
  store f (.file { file with closed := true })
  let _ ← flushFile f answer
  match (← loadFile f).handle with
  | none => avmfFree f
  | some h =>
      dropContent h
      avmfFree h
      avmfFree f

end Calls

end AosKernel.Fs
