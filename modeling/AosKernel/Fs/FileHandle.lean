import AosKernel.Lib.Overlay
import AosKernel.Lib.Span

namespace AosKernel.Fs

open Verif

def AOS_FS_CHUNK_SIZE : Nat := 0x1000

inductive SeekMode
  | cur
  | set
  | fromEnd

-- The cache of a handle. `fileData` is the chunk, NULL when there is none.
structure DmmHandler where
  fileData : Option (List UInt8)
  fileDataSize : Nat
  fileDataRefreshReq : Bool
  fileDataFlushRequired : Bool

-- An open file over the content that PBFS stores. `touched` holds the parts of the
-- chunk written so far.
structure FileState where
  stored : List UInt8
  handle : DmmHandler
  curSeek : Nat
  touched : List Span

inductive FileResult
  | refused
  | done
  | bytes (data : List UInt8)
  | position (seek : Nat)
  deriving DecidableEq

-- pbfs_read_file_dmm copies as much of the file as there is and as fits `cap`.
def pbfsReadFileDmm (stored : List UInt8) (cap : Nat) : List UInt8 := stored.take cap

namespace FileState

-- Whether a call has to fill the cache.
def hollow (s : FileState) : Bool := s.handle.fileData.isNone || s.handle.fileDataRefreshReq

-- What read_file, write_file and seek_file do first, with `cap` bytes asked of PBFS.
-- `alloc` is what a new chunk would hold.
def fillCache (s : FileState) (cap : Nat) (alloc : Option (List UInt8)) :
    Option (List UInt8 × FileState) :=
  match s.handle.fileData.or alloc with
  | none => none
  | some chunk =>
      if s.hollow then
        let data := pbfsReadFileDmm s.stored cap
        some (overlay chunk 0 data,
          { s with
            handle :=
              { s.handle with
                fileData := some (overlay chunk 0 data)
                fileDataSize := data.length
                fileDataRefreshReq := false }
            touched := s.touched ++ [⟨0, data.length⟩] })
      else some (chunk, s)

def readCache (s : FileState) (chunk : List UInt8) (size : Nat) : FileState × FileResult :=
  if s.curSeek > s.handle.fileDataSize ∨ size > s.handle.fileDataSize - s.curSeek then (s, .refused)
  else ({ s with curSeek := s.curSeek + size }, .bytes ((chunk.drop s.curSeek).take size))

def readFile (s : FileState) (size : Nat) (alloc : Option (List UInt8)) :
    FileState × FileResult :=
  if size = 0 then (s, .bytes []) else
  match s.fillCache size alloc with
  | none => (s, .refused)
  | some (chunk, s) => s.readCache chunk size

def writeCache (s : FileState) (chunk data : List UInt8) : FileState × FileResult :=
  if s.curSeek > s.handle.fileDataSize ∨ data.length > s.handle.fileDataSize - s.curSeek then
    (s, .refused)
  else
    ({ s with
        handle :=
          { s.handle with
            fileData := some (overlay chunk s.curSeek data)
            fileDataFlushRequired := true }
        curSeek := s.curSeek + data.length
        touched := s.touched ++ [⟨s.curSeek, data.length⟩] }, .done)

def writeFile (s : FileState) (data : List UInt8) (alloc : Option (List UInt8)) :
    FileState × FileResult :=
  if data.length = 0 then (s, .done) else
  match s.fillCache AOS_FS_CHUNK_SIZE alloc with
  | none => (s, .refused)
  | some (chunk, s) => s.writeCache chunk data

-- pbfs_update_file_dmm replaces the stored content.
def flushFile (s : FileState) : FileState × FileResult :=
  if !s.handle.fileDataFlushRequired then (s, .done)
  else if s.handle.fileData.isNone ∧ s.handle.fileDataSize > 0 then (s, .refused)
  else
    ({ s with
        stored := if s.handle.fileDataSize = 0 then [0]
          else (s.handle.fileData.getD []).take s.handle.fileDataSize
        handle :=
          { fileData := none
            fileDataSize := 0
            fileDataFlushRequired := false
            fileDataRefreshReq := true } }, .done)

def tellFile (s : FileState) : FileState × FileResult := (s, .position s.curSeek)

def moveSeek (s : FileState) (sto : Nat) : FileState × FileResult :=
  if sto > s.handle.fileDataSize then (s, .refused) else ({ s with curSeek := sto }, .done)

-- The differences and sums are those of a uint64_t.
def seekCache (s : FileState) (seekTo : Nat) (mode : SeekMode) : FileState × FileResult :=
  if seekTo > s.handle.fileDataSize then (s, .refused) else
  match mode with
  | .cur =>
      if seekTo > (s.handle.fileDataSize + 2 ^ 64 - s.curSeek) % 2 ^ 64 then (s, .refused)
      else s.moveSeek ((seekTo + s.curSeek) % 2 ^ 64)
  | .fromEnd => s.moveSeek (s.handle.fileDataSize - seekTo)
  | .set => s.moveSeek seekTo

def seekFile (s : FileState) (seekTo : Nat) (mode : SeekMode) (alloc : Option (List UInt8)) :
    FileState × FileResult :=
  match s.fillCache AOS_FS_CHUNK_SIZE alloc with
  | none => (s, .refused)
  | some (_, s) => s.seekCache seekTo mode

-- The file that fs_open returns.
def fsOpen (content : List UInt8) (alloc : Option (List UInt8)) : FileState :=
  match alloc with
  | none => ⟨content, ⟨none, 0, true, false⟩, 0, []⟩
  | some chunk =>
      let data := pbfsReadFileDmm content AOS_FS_CHUNK_SIZE
      ⟨content, ⟨some (overlay chunk 0 data), data.length, false, false⟩, 0, [⟨0, data.length⟩]⟩

end FileState

-- What a call on a handle asks for. A call that may have to allocate comes with the
-- allocator's answer.
inductive FileAction
  | read (size : Nat) (alloc : Option (List UInt8))
  | write (data : List UInt8) (alloc : Option (List UInt8))
  | seek (seekTo : Nat) (mode : SeekMode) (alloc : Option (List UInt8))
  | tell
  | flush

def FileState.exec (s : FileState) : FileAction → FileState × FileResult
  | .read size alloc => s.readFile size alloc
  | .write data alloc => s.writeFile data alloc
  | .seek seekTo mode alloc => s.seekFile seekTo mode alloc
  | .tell => s.tellFile
  | .flush => s.flushFile

-- A byte array with a cursor, which a handle is to behave like.
structure ByteArrayFile where
  bytes : List UInt8
  cursor : Nat

namespace ByteArrayFile

def moveTo (r : ByteArrayFile) (target : Nat) : ByteArrayFile × FileResult :=
  if target ≤ r.bytes.length then ({ r with cursor := target }, .done) else (r, .refused)

def exec (r : ByteArrayFile) : FileAction → ByteArrayFile × FileResult
  | .read size _ =>
      if r.cursor + size ≤ r.bytes.length then
        ({ r with cursor := r.cursor + size }, .bytes ((r.bytes.drop r.cursor).take size))
      else (r, .refused)
  | .write data _ =>
      if r.cursor + data.length ≤ r.bytes.length then
        (⟨overlay r.bytes r.cursor data, r.cursor + data.length⟩, .done)
      else (r, .refused)
  | .seek seekTo .set _ => r.moveTo seekTo
  | .seek seekTo .cur _ => r.moveTo (r.cursor + seekTo)
  | .seek seekTo .fromEnd _ =>
      if seekTo ≤ r.bytes.length then r.moveTo (r.bytes.length - seekTo) else (r, .refused)
  | .tell => (r, .position r.cursor)
  | .flush => (r, .done)

end ByteArrayFile

end AosKernel.Fs
