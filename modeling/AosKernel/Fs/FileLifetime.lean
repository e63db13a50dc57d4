import AosKernel.Fs.OpenFileCalls
import AosKernel.Lib.Trace

namespace AosKernel.Fs

open Verif Exec

variable {Entry : Type} [DecidableEq Entry]

-- The file system with the files that its callers have open.
structure FsSession (Entry : Type) where
  fs : FileSystem Entry
  opened : List Nat

inductive FsCall (Entry : Type)
  | fsOpen (path : List UInt8) (answers : OpenAnswers Entry)
  | onFile (f : Nat) (call : FileCall)
  | fsClose (f : Nat) (answer : PbfsUpdate)

inductive FsResult
  | opened (f : Option Nat)
  | result (result : FileResult)
  | closed

def FsCall.exec (maxPathLen : Nat) : FsCall Entry → FsM Entry FsResult
  | .fsOpen path answers => do return .opened (← Fs.fsOpen maxPathLen path answers)
  | .onFile f call => do return .result (← fileCall f call)
  | .fsClose f answer => do
      Fs.fsClose f answer
      return .closed

def FsCall.openedAfter (opened : List Nat) : FsCall Entry → FsResult → List Nat
  | .fsClose f _, _ => opened.erase f
  | _, .opened (some f) => f :: opened
  | _, _ => opened

-- Calls are made on files that are open. The allocator gives blocks that are not in
-- use, and PBFS stays within the chunk.
def FsSession.Admissible (s : FsSession Entry) : FsCall Entry → Prop
  | .fsOpen _ answers => answers.Fresh s.fs
  | .onFile f call => f ∈ s.opened ∧ call.Fits ∧
      ∀ c ∈ call.chunk, s.fs.heap c.1 = none ∧ c.2.length = AOS_FS_CHUNK_SIZE
  | .fsClose f _ => f ∈ s.opened

-- The blocks of an open file.
def FileSystem.blocksOf (s : FileSystem Entry) (f : Nat) : List Nat :=
  match s.heap f with
  | some (.file ⟨some h, _, _⟩) =>
      match s.heap h with
      | some (.handler handler) => handler.fileData.toList ++ [h, f]
      | _ => [h, f]
  | _ => [f]

-- The open file at `f` is a handle on `entry` in the state `st`.
def FileSystem.Shows (s : FileSystem Entry) (f : Nat) (entry : Entry) (st : FileState) : Prop :=
  ∃ h path chunk, s.heap f = some (.file ⟨some h, st.curSeek, false⟩) ∧
    s.heap h = some (.handler ⟨AOS_FS_SIGN, true, path, entry, st.handle.fileData.map fun _ => chunk,
      st.handle.fileDataSize, st.handle.fileDataRefreshReq, st.handle.fileDataFlushRequired⟩) ∧
    (∀ bytes, st.handle.fileData = some bytes → s.heap chunk = some (.chunk bytes)) ∧
    st.stored = s.stored entry

structure OpenFile.Ok (o : OpenFile Entry) (s : FileSystem Entry) : Prop where
  gmnt : s.gmnt = true
  closed : o.closed = false
  sound : (o.state s.stored).Sound

-- The blocks in use are those of the open files.
structure FsSession.Inv (s : FsSession Entry) (files : List (OpenFile Entry)) : Prop where
  opened : (files.map OpenFile.file).Perm s.opened
  holds : HoldsJust s.fs.heap (files.flatMap OpenFile.blocks)
  ok : ∀ o ∈ files, o.Ok s.fs

def FsCall.target : FsCall Entry → Option Nat
  | .fsOpen _ _ => none
  | .onFile f _ => some f
  | .fsClose f _ => some f

-- What a call does: to the file it is made on, to what is stored, and to no other file.
def FsSession.Effect (s : FsSession Entry) (maxPathLen : Nat) (c : FsCall Entry) (r : FsResult)
    (t : FileSystem Entry) : Prop :=
  (∀ g ∈ s.opened, c.target ≠ some g → ∃ entry st, s.fs.Shows g entry st ∧
    t.Shows g entry { st with stored := t.stored entry }) ∧
  match c with
  | .fsOpen path answers => t.stored = s.fs.stored ∧
      (r = .opened none ∧ t.heap = s.fs.heap ∨
        ∃ f entry st, r = .opened (some f) ∧ path.length < maxPathLen ∧
          answers.found = some entry ∧ t.Shows f entry st ∧ st.curSeek = 0 ∧ st.unsaved = none)
  | .onFile f call => ∃ entry st, s.fs.Shows f entry st ∧
      r = .result (st.answered call).2 ∧ t.Shows f entry (st.answered call).1 ∧
        t.stored = Function.update s.fs.stored entry (st.answered call).1.stored ∧
          st.Keeps call (st.answered call)
  | .fsClose f answer => ∃ entry st, s.fs.Shows f entry st ∧
      t.stored = Function.update s.fs.stored entry (st.flushAnswered answer).1.stored ∧
        st.Keeps (.flush answer) (st.flushAnswered answer)

section Shows

variable {s : FileSystem Entry} {o : OpenFile Entry} {rest : List (Nat × Block Entry)}

omit [DecidableEq Entry]

theorem blocksOf_eq (h : HoldsJust s.heap (o.blocks ++ rest)) :
    s.blocksOf o.file = o.blocks.map Prod.fst := by
  simp only [FileSystem.blocksOf, OpenFile.load_file h, OpenFile.aosFile, OpenFile.load_handler h,
    OpenFile.aosHandler, OpenFile.blocks, OpenFile.chunkBlocks]
  cases o.cache.fileData <;> rfl

theorem shows_state (h : HoldsJust s.heap (o.blocks ++ rest)) (hopen : o.closed = false) :
    s.Shows o.file o.entry (o.state s.stored) := by
  have hfile := OpenFile.load_file h
  rw [OpenFile.aosFile, hopen] at hfile
  exact ⟨o.handler, o.path, o.chunk, hfile, OpenFile.load_handler h,
    fun bytes hbytes => OpenFile.load_chunk h hbytes, rfl⟩

end Shows

section Inv

variable {s : FsSession Entry} {files : List (OpenFile Entry)}

section

omit [DecidableEq Entry]

theorem FsSession.Inv.split (h : s.Inv files) {f : Nat} (hf : f ∈ s.opened) :
    ∃ o rest, o.file = f ∧ s.Inv (o :: rest) := by
  obtain ⟨o, ho, rfl⟩ := List.mem_map.mp (h.opened.mem_iff.mpr hf)
  obtain ⟨l₁, l₂, rfl⟩ := List.append_of_mem ho
  have hperm : (l₁ ++ o :: l₂).Perm (o :: (l₁ ++ l₂)) := List.perm_middle
  exact ⟨o, l₁ ++ l₂, rfl, (hperm.map OpenFile.file).symm.trans h.opened,
    h.holds.perm (hperm.flatMap_right _), fun p hp => h.ok p (hperm.mem_iff.mpr hp)⟩

theorem FsSession.Inv.shows (h : s.Inv files) {o : OpenFile Entry} (ho : o ∈ files) :
    s.fs.Shows o.file o.entry (o.state s.fs.stored) := by
  obtain ⟨l₁, l₂, rfl⟩ := List.append_of_mem ho
  have hperm : ((l₁ ++ o :: l₂).flatMap OpenFile.blocks).Perm
      (o.blocks ++ (l₁ ++ l₂).flatMap OpenFile.blocks) := List.perm_middle.flatMap_right _
  exact shows_state (h.holds.perm hperm) (h.ok o ho).closed

theorem FsSession.Inv.owned (h : s.Inv files) : (s.opened.flatMap s.fs.blocksOf).Nodup ∧
    ∀ a, s.fs.heap a ≠ none ↔ a ∈ s.opened.flatMap s.fs.blocksOf := by
  have hblocks : ∀ o ∈ files, s.fs.blocksOf o.file = o.blocks.map Prod.fst := by
    intro o ho
    obtain ⟨l₁, l₂, rfl⟩ := List.append_of_mem ho
    have hperm : ((l₁ ++ o :: l₂).flatMap OpenFile.blocks).Perm
        (o.blocks ++ (l₁ ++ l₂).flatMap OpenFile.blocks) := List.perm_middle.flatMap_right _
    exact blocksOf_eq (h.holds.perm hperm)
  have hperm : ((files.flatMap OpenFile.blocks).map Prod.fst).Perm
      (s.opened.flatMap s.fs.blocksOf) := by
    refine List.Perm.trans ?_ (h.opened.flatMap_right _)
    rw [List.map_flatMap, List.flatMap_map, List.flatMap_congr hblocks]
  exact ⟨hperm.nodup_iff.mp h.holds.nodup,
    fun a => h.holds.in_use_iff.trans hperm.mem_iff⟩

end

-- What the other files show stays, but for what is stored.
omit [DecidableEq Entry] in
theorem FsSession.Inv.others (h : s.Inv files) {t : FsSession Entry}
    {files' : List (OpenFile Entry)} (h' : t.Inv files') {g : Nat}
    (hg : ∃ o ∈ files, o.file = g ∧ o ∈ files') :
    ∃ entry st, s.fs.Shows g entry st ∧
      t.fs.Shows g entry { st with stored := t.fs.stored entry } := by
  obtain ⟨o, ho, rfl, ho'⟩ := hg
  exact ⟨o.entry, o.state s.fs.stored, h.shows ho, h'.shows ho'⟩

omit [DecidableEq Entry] in
theorem OpenFile.Ok.of_gmnt {o : OpenFile Entry} {u t : FileSystem Entry} (h : o.Ok u)
    (heq : t.gmnt = u.gmnt) : o.Ok t :=
  ⟨heq.trans h.gmnt, h.closed, h.sound.of_handle rfl⟩

theorem FsSession.Inv.fsOpen (h : s.Inv files) {maxPathLen : Nat} {path : List UInt8}
    {answers : OpenAnswers Entry} (hfresh : answers.Fresh s.fs) :
    Sat ((FsCall.fsOpen path answers).exec maxPathLen) s.fs (fun r t =>
      s.Effect maxPathLen (.fsOpen path answers) r t ∧
        ∃ files', (⟨t, (FsCall.fsOpen path answers).openedAfter s.opened r⟩ :
          FsSession Entry).Inv files') fun _ => False := by
  rw [FsCall.exec, sat_bind]
  refine (fsOpen_sat h.holds hfresh).imp fun r t => ?_
  rintro ⟨hgmnt, hstored, ⟨rfl, hholds⟩ | ⟨hmounted, hfits, o, rfl, hfound, -, hnew⟩⟩
  · have hinv : (⟨t, s.opened⟩ : FsSession Entry).Inv files :=
      ⟨h.opened, hholds, fun o ho => (h.ok o ho).of_gmnt hgmnt⟩
    refine ⟨⟨fun g hg _ => ?_, hstored, .inl ⟨rfl, h.holds.unique hholds⟩⟩, files, hinv⟩
    obtain ⟨o, ho, heq⟩ := List.mem_map.mp (h.opened.mem_iff.mpr hg)
    exact h.others hinv ⟨o, ho, heq, ho⟩
  · have hinv : (⟨t, o.file :: s.opened⟩ : FsSession Entry).Inv (o :: files) := by
      refine ⟨h.opened.cons _, hnew.holds, fun p hp => ?_⟩
      obtain rfl | hp := List.mem_cons.mp hp
      · exact ⟨hgmnt.trans hmounted, hnew.closed, hnew.sound⟩
      · exact (h.ok p hp).of_gmnt hgmnt
    refine ⟨⟨fun g hg _ => ?_, hstored, .inr ⟨o.file, o.entry, o.state t.stored, rfl, hfits, hfound,
      hinv.shows (.head _), hnew.curSeek, hnew.unsaved⟩⟩, o :: files, hinv⟩
    obtain ⟨p, hp, heq⟩ := List.mem_map.mp (h.opened.mem_iff.mpr hg)
    exact h.others hinv ⟨p, hp, heq, .tail _ hp⟩

theorem FsSession.Inv.onFile (h : s.Inv files) {maxPathLen : Nat} {f : Nat} {call : FileCall}
    (hok : s.Admissible (.onFile f call)) :
    Sat ((FsCall.onFile f call).exec maxPathLen) s.fs (fun r t =>
      s.Effect maxPathLen (.onFile f call) r t ∧
        ∃ files', (⟨t, (FsCall.onFile f call : FsCall Entry).openedAfter s.opened r⟩ :
          FsSession Entry).Inv files') fun _ => False := by
  obtain ⟨hf, hfits, hfresh⟩ := hok
  obtain ⟨o, rest, rfl, hinv⟩ := h.split hf
  have ho := hinv.ok o (.head _)
  have hdoes : Does (fileCall o.file call) o (rest.flatMap OpenFile.blocks) s.fs _ :=
    fileCall_does hinv.holds (fun c hc => (hfresh c hc).1) ho.gmnt ho.closed ho.sound
  obtain ⟨hsound, hkeeps⟩ :=
    FileState.answered_keeps ho.sound hfits fun c hc => (hfresh c hc).2
  rw [FsCall.exec, sat_bind]
  refine hdoes.imp fun r t => ?_
  rintro ⟨rfl, hgmnt, hstored, c, hholds⟩
  have hinv' : (⟨t, s.opened⟩ : FsSession Entry).Inv
      (o.become c ((o.state s.fs.stored).answered call).1 :: rest) := by
    refine ⟨hinv.opened, hholds, fun p hp => ?_⟩
    obtain rfl | hp := List.mem_cons.mp hp
    · exact ⟨hgmnt.trans ho.gmnt, ho.closed, hsound.of_handle rfl⟩
    · exact (hinv.ok p (.tail _ hp)).of_gmnt hgmnt
  have hshows := hinv'.shows (.head _)
  have hstate : (o.become c ((o.state s.fs.stored).answered call).1).state t.stored =
      ((o.state s.fs.stored).answered call).1 := by
    rw [OpenFile.state, OpenFile.become, hstored, Function.update_self]
  refine ⟨⟨fun g hg hne => ?_, o.entry, o.state s.fs.stored, hinv.shows (.head _), rfl,
    hstate ▸ hshows, hstored, hkeeps⟩, _, hinv'⟩
  obtain ⟨p, hp, heq⟩ := List.mem_map.mp (hinv.opened.mem_iff.mpr hg)
  obtain rfl | hrest := List.mem_cons.mp hp
  · exact absurd (congrArg some heq) hne
  · exact hinv.others hinv' ⟨p, hp, heq, .tail _ hrest⟩

theorem FsSession.Inv.fsClose (h : s.Inv files) {maxPathLen : Nat} {f : Nat}
    {answer : PbfsUpdate} (hf : f ∈ s.opened) :
    Sat ((FsCall.fsClose f answer).exec maxPathLen) s.fs (fun r t =>
      s.Effect maxPathLen (.fsClose f answer) r t ∧
        ∃ files', (⟨t, (FsCall.fsClose f answer : FsCall Entry).openedAfter s.opened r⟩ :
          FsSession Entry).Inv files') fun _ => False := by
  obtain ⟨o, rest, rfl, hinv⟩ := h.split hf
  have ho := hinv.ok o (.head _)
  rw [FsCall.exec, sat_bind]
  refine (fsClose_sat hinv.holds ho.gmnt ho.closed ho.sound.flushable).imp fun _ t => ?_
  rintro ⟨hgmnt, hstored, hholds⟩
  have hinv' : (⟨t, s.opened.erase o.file⟩ : FsSession Entry).Inv rest := by
    refine ⟨?_, hholds, fun p hp => (hinv.ok p (.tail _ hp)).of_gmnt hgmnt⟩
    have herase := hinv.opened.erase o.file
    rwa [List.map_cons, List.erase_cons_head] at herase
  refine ⟨⟨fun g hg hne => ?_, o.entry, o.state s.fs.stored, hinv.shows (.head _), hstored,
    (FileState.flushAnswered_keeps ho.sound answer).2⟩, rest, hinv'⟩
  obtain ⟨p, hp, heq⟩ := List.mem_map.mp (hinv.opened.mem_iff.mpr hg)
  obtain rfl | hrest := List.mem_cons.mp hp
  · exact absurd (congrArg some heq) hne
  · exact hinv.others hinv' ⟨p, .tail _ hrest, heq, hrest⟩

theorem FsSession.Inv.call (h : s.Inv files) {maxPathLen : Nat} {c : FsCall Entry}
    (hok : s.Admissible c) :
    Sat (c.exec maxPathLen) s.fs (fun r t => s.Effect maxPathLen c r t ∧
      ∃ files', (⟨t, c.openedAfter s.opened r⟩ : FsSession Entry).Inv files') fun _ => False := by
  cases c with
  | fsOpen path answers => exact h.fsOpen hok
  | onFile f call => exact h.onFile hok
  | fsClose f answer => exact h.fsClose hok

end Inv

section Runs

variable {maxPathLen : Nat} {s : FsSession Entry} {past : List (FsSession Entry × FsCall Entry)}

-- No file is open and fs.c has no memory. PBFS is mounted or not.
def FsSession.start (gmnt : Bool) (stored : Entry → List UInt8) : FsSession Entry :=
  ⟨⟨gmnt, fun _ => none, stored⟩, []⟩

end Runs

end AosKernel.Fs
