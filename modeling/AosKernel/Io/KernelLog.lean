import AosKernel.Io.Formatters
import AosKernel.Lib.Span
import AosKernel.Lib.Trace
import AosKernel.Mm.Region

namespace AosKernel.Io

open Verif AosKernel.Mm

-- What `klog` points to: a buffer of the heap, or the static one.
inductive KlogPlace
  | null
  | preklog
  | heap
  deriving DecidableEq

-- A write, and the length of the buffer that it goes to.
structure KlogWrite where
  span : Span
  room : Nat

-- `bytes` are those of the buffer in use. `loading` is `preklog_present` of a
-- serial_init_klog that has not come back.
structure Klog where
  place : KlogPlace
  bytes : Nat → UInt8
  klogCap : Nat
  klogEnd : Nat
  klogPos : Nat
  klogPresent : Bool
  klogMsgStarted : Bool
  loading : Option Bool
  written : List KlogWrite

def preklogSize : Nat := 0x1000

def add64 (a b : Nat) : Nat := (a + b) % 2 ^ 64

def sub64 (a b : Nat) : Nat := (2 ^ 64 - b + a) % 2 ^ 64

-- The answer of avmf_alloc for MALLOC_TYPE_KERNEL, with what stands in the new
-- memory. It is NULL for no bytes, and for more than there is room for.
def avmfGrant (size : Nat) (answer : Option (Nat → UInt8)) : Option (Nat → UInt8) :=
  if size = 0 ∨ kernelSpace.limit - kernelSpace.base < size then none else answer

namespace Klog

-- Bytes of a message, at `klog_pos`.
def push (k : Klog) (s : Text) : Klog :=
  { k with
    bytes := fun x =>
      if k.klogPos ≤ x ∧ x < k.klogPos + s.length then s.getD (x - k.klogPos) 0 else k.bytes x
    klogPos := k.klogPos + s.length
    written := k.written ++ [⟨⟨k.klogPos, s.length⟩, k.klogCap⟩] }

def pushEach (k : Klog) (s : Text) : Klog := s.foldl (fun k c => k.push [c]) k

def klogRealloc (k : Klog) (answer : Option (Nat → UInt8)) : Bool × Klog :=
  if k.place = .preklog then (false, k)
  else if 32 ≤ sub64 k.klogCap k.klogPos then (true, k)
  else
    match avmfGrant (add64 k.klogCap 1024) answer with
    | none => (false, k)
    | some fresh =>
        (true, { k with
          place := .heap
          bytes := fun x => if x < k.klogEnd then k.bytes x else fresh x
          klogCap := add64 k.klogCap 1024
          written := k.written ++ [⟨⟨0, k.klogEnd⟩, add64 k.klogCap 1024⟩] })

-- The header of a message; the terminator of its first text is copied too.
def header (k : Klog) (seconds : Nat) : Klog :=
  let digits := digitsFrom 10 false 64 seconds
  let k := k.push (text "[AOS - " ++ [0])
  let k := k.pushEach (List.replicate (10 - digits.length) (chr '0'))
  let k := k.pushEach digits.reverse
  { k.push (text "] ") with klogMsgStarted := true }

def klogPrintc (k : Klog) (c : UInt8) (seconds : Nat) (answer : Option (Nat → UInt8)) : Klog :=
  if k.place = .null then k
  else
    let room := if k.klogCap ≤ add64 k.klogPos 32 then k.klogRealloc answer else (true, k)
    if !room.1 then room.2
    else
      let k := if room.2.klogMsgStarted then room.2 else room.2.header seconds
      let k := k.push [c]
      if k.klogEnd < k.klogPos then { k with klogEnd := k.klogPos } else k

-- The port is set up, and the log is the static one.
def serialInit (k : Klog) (preInit : Bool) : Klog :=
  let k := { k with place := .preklog, klogMsgStarted := false, klogCap := preklogSize }
  if preInit then { k with klogPos := 0, klogEnd := 0 } else k

end Klog

-- What serial_init_klog gets from its callees: the size of the last log, the memory for
-- it with what has been read into that, and the memory for the new log. `size` is the
-- variable after pbfs_get_file_size, `readSize` the same after pbfs_read_file.
structure LastLog where
  found : Bool
  size : BitVec 64
  dataAnswer : Option (Nat → UInt8)
  readOk : Bool
  readSize : BitVec 64
  klogAnswer : Option (Nat → UInt8)

namespace LastLog

def data (l : LastLog) : Option (Nat → UInt8) :=
  if l.found ∧ 0 < l.size.toNat then avmfGrant l.size.toNat l.dataAnswer else none

def finalSize (l : LastLog) : Nat := if l.data.isSome then l.readSize.toNat else l.size.toNat

end LastLog

namespace Klog

-- serial_init_klog up to its first callee.
def enterInitKlog (k : Klog) : Klog :=
  { k with loading := some (decide (0 < k.klogEnd)), klogPresent := false }

-- The rest of serial_init_klog, after its callees have printed what they print.
def leaveInitKlog (k : Klog) (preklogPresent : Bool) (l : LastLog) : Klog :=
  let size := l.finalSize
  let k := { k with klogPresent := l.data.isSome && l.readOk, loading := none }
  let room := add64 (add64 size k.klogEnd) 4096
  match avmfGrant room l.klogAnswer with
  | none => { k with place := .null }
  | some fresh =>
      let copied := fun x => if preklogPresent ∧ x < k.klogEnd then k.bytes x else fresh x
      { k with
        place := .heap
        bytes := fun x =>
          match l.data with
          | none => copied x
          | some data =>
              if k.klogEnd ≤ x ∧ x < k.klogEnd + size then data (x - k.klogEnd) else copied x
        klogPos := add64 size k.klogEnd
        klogCap := add64 (add64 size 4096) k.klogEnd
        klogEnd := add64 size k.klogEnd
        written := k.written ++ (if preklogPresent then [⟨⟨0, k.klogEnd⟩, room⟩] else []) ++
          (if l.data.isSome ∧ 0 < size then [⟨⟨k.klogEnd, size⟩, room⟩] else []) }

end Klog

inductive KlogCall
  | printc (c : UInt8) (seconds : Nat) (answer : Option (Nat → UInt8))
  -- serial_print and serial_printf leave the flag, as a piece of a message may too
  | boundary (started : Bool)
  | serialInit
  | enterInitKlog
  | leaveInitKlog (last : LastLog)

-- The ports are initialised again before the log is, and the log once, when its disk has
-- been mounted.
def Klog.call (k : Klog) : KlogCall → Option Klog
  | .printc c seconds answer => if seconds < 10 ^ 13 then some (k.klogPrintc c seconds answer)
      else none
  | .boundary started => some { k with klogMsgStarted := started }
  | .serialInit => if k.place = .preklog ∧ k.loading = none then some (k.serialInit false) else none
  | .enterInitKlog => if k.place = .preklog ∧ k.loading = none then some k.enterInitKlog else none
  | .leaveInitKlog last => k.loading.map fun present => k.leaveInitKlog present last

def Klog.Takes (k : Klog) (c : KlogCall) (k' : Klog) : Prop := k.call c = some k'

namespace Klog

-- The bytes of the log, of which there are none without a buffer.
def log (k : Klog) : Text :=
  if k.place = .null then [] else (List.range k.klogEnd).map k.bytes

structure InBounds (k : Klog) : Prop where
  end_eq : k.klogEnd = k.klogPos
  pos_le : k.klogPos ≤ k.klogCap
  writes : ∀ w ∈ k.written, w.span.limit ≤ w.room

-- The log before a call is the first part of the log after it.
def Appends (k : Klog) (c : KlogCall) : Prop := ∀ k', k.Takes c k' → k.log <+: k'.log

-- There is memory for the log on the heap or nothing to move. What has been printed was
-- there when serial_init_klog was entered, and the new length fits in 64 bits.
def HandsOver (k : Klog) (l : LastLog) : Prop :=
  match avmfGrant (add64 (add64 l.finalSize k.klogEnd) 4096) l.klogAnswer with
  | none => k.klogEnd = 0
  | some fresh => l.finalSize + k.klogEnd + 4096 < 2 ^ 64 ∧
      (k.loading = some true ∨ ∀ x < k.klogEnd, fresh x = k.bytes x)

def Moves (k : Klog) : KlogCall → Prop
  | .leaveInitKlog l => k.HandsOver l
  | _ => True

-- How long an allocation can be.
theorem avmfGrant_le {size : Nat} {answer : Option (Nat → UInt8)} {fresh : Nat → UInt8}
    (h : avmfGrant size answer = some fresh) : size ≤ 2 ^ 45 := by
  unfold avmfGrant at h
  split at h
  · cases h
  · rename_i hfits
    have hroom : kernelSpace.limit - kernelSpace.base = 2 ^ 45 := by decide
    rw [hroom] at hfits
    omega

theorem map_range_extends {f g : Nat → UInt8} {m n : Nat} :
    (List.range m).map f <+: (List.range n).map g ↔ m ≤ n ∧ ∀ x < m, g x = f x := by
  constructor
  · intro h
    have hle : m ≤ n := by simpa using h.length_le
    refine ⟨hle, fun x hx => ?_⟩
    have hget := h.getElem (i := x) (by simpa using hx)
    simpa using hget.symm
  · rintro ⟨hle, heq⟩
    have htake : (List.range m).map f = ((List.range n).map g).take m := by
      rw [← List.map_take, List.take_range, Nat.min_eq_left hle]
      exact List.map_congr_left fun x hx => (heq x (List.mem_range.mp hx)).symm
    rw [htake]
    exact List.take_prefix m _

theorem log_extends {k k' : Klog} (hplace : k'.place ≠ .null) (hle : k.klogEnd ≤ k'.klogEnd)
    (hbytes : ∀ x < k.klogEnd, k'.bytes x = k.bytes x) : k.log <+: k'.log := by
  unfold log
  rw [if_neg hplace]
  split
  · exact List.nil_prefix
  · exact map_range_extends.mpr ⟨hle, hbytes⟩

-- `n` bytes of a message have been appended.
structure Grows (k k' : Klog) (n : Nat) : Prop where
  place : k'.place = k.place
  cap : k'.klogCap = k.klogCap
  klogEnd : k'.klogEnd = k.klogEnd
  pos : k'.klogPos = k.klogPos + n
  loading : k'.loading = k.loading
  bytes : ∀ x < k.klogPos, k'.bytes x = k.bytes x
  writes : ∀ w ∈ k'.written, w ∈ k.written ∨ w.span.limit ≤ k'.klogPos ∧ w.room = k.klogCap

theorem Grows.trans {k k' k'' : Klog} {m n : Nat} (h : Grows k k' m) (h' : Grows k' k'' n) :
    Grows k k'' (m + n) where
  place := h'.place.trans h.place
  cap := h'.cap.trans h.cap
  klogEnd := h'.klogEnd.trans h.klogEnd
  pos := by rw [h'.pos, h.pos, Nat.add_assoc]
  loading := h'.loading.trans h.loading
  bytes := fun x hx => by
    have hpos := h.pos
    exact (h'.bytes x (by omega)).trans (h.bytes x hx)
  writes := fun w hw => by
    obtain hold | ⟨hlimit, hroom⟩ := h'.writes w hw
    · obtain hold | ⟨hlimit, hroom⟩ := h.writes w hold
      · exact .inl hold
      · have hpos := h'.pos
        exact .inr ⟨by omega, hroom⟩
    · exact .inr ⟨hlimit, hroom.trans h.cap⟩

theorem push_grows (k : Klog) (s : Text) : Grows k (k.push s) s.length where
  place := rfl
  cap := rfl
  klogEnd := rfl
  pos := rfl
  loading := rfl
  bytes := fun x hx => if_neg (by omega)
  writes := fun w hw => by
    obtain hold | hnew := List.mem_append.mp hw
    · exact .inl hold
    · rw [List.mem_singleton.mp hnew]
      exact .inr ⟨Nat.le_refl _, rfl⟩

theorem pushEach_grows (k : Klog) (s : Text) : Grows k (k.pushEach s) s.length := by
  induction s generalizing k with
  | nil => exact ⟨rfl, rfl, rfl, rfl, rfl, fun _ _ => rfl, fun _ hw => .inl hw⟩
  | cons c s ih =>
      have h := (push_grows k [c]).trans (ih (k.push [c]))
      rwa [List.length_singleton, Nat.add_comm] at h

-- A time of at most 13 digits makes a header of at most 23 bytes.
theorem header_grows (k : Klog) {seconds : Nat} (h : seconds < 10 ^ 13) :
    ∃ n ≤ 23, Grows k (k.header seconds) n := by
  have hlen := digitsFrom_length false 64 h
  have hname := push_grows k (text "[AOS - " ++ [0])
  have hpad := hname.trans (pushEach_grows _
    (List.replicate (10 - (digitsFrom 10 false 64 seconds).length) (chr '0')))
  have hdigits := hpad.trans (pushEach_grows _ (digitsFrom 10 false 64 seconds).reverse)
  have hall := hdigits.trans (push_grows _ (text "] "))
  refine ⟨_, ?_, ⟨hall.place, hall.cap, hall.klogEnd, hall.pos, hall.loading, hall.bytes,
    hall.writes⟩⟩
  rw [List.length_replicate, List.length_reverse]
  change 8 + _ + _ + 2 ≤ 23
  omega

-- What holds between the calls of a run.
structure Inv (k : Klog) : Prop extends InBounds k where
  cap_le : k.klogCap ≤ 2 ^ 45
  loading : k.loading ≠ none → k.place = .preklog
  preklog : k.place = .preklog → k.klogCap = preklogSize

-- There still is a log, and what stood in it.
structure Keeps (k k' : Klog) : Prop where
  place : k'.place ≠ .null
  end_le : k.klogEnd ≤ k'.klogEnd
  bytes : ∀ x < k.klogEnd, k'.bytes x = k.bytes x

theorem Keeps.log {k k' : Klog} (h : Keeps k k') : k.log <+: k'.log :=
  log_extends h.place h.end_le h.bytes

theorem Keeps.trans {k k' k'' : Klog} (h : Keeps k k') (h' : Keeps k' k'') : Keeps k k'' where
  place := h'.place
  end_le := Nat.le_trans h.end_le h'.end_le
  bytes := fun x hx =>
    (h'.bytes x (Nat.lt_of_lt_of_le hx h.end_le)).trans (h.bytes x hx)

theorem Inv.sub64_room {k : Klog} (h : Inv k) :
    sub64 k.klogCap k.klogPos = k.klogCap - k.klogPos := by
  have hle := h.pos_le
  have hcap := h.cap_le
  unfold sub64
  omega

theorem klogRealloc_spec {k : Klog} (h : Inv k) (hplace : k.place ≠ .null)
    (answer : Option (Nat → UInt8)) :
    ∃ ok k', k.klogRealloc answer = (ok, k') ∧ Inv k' ∧ Keeps k k' ∧
      (ok = true → k'.klogPos + 32 ≤ k'.klogCap) := by
  have hend := h.end_eq
  have hle := h.pos_le
  have hcap := h.cap_le
  have hself : Keeps k k := ⟨hplace, Nat.le_refl _, fun _ _ => rfl⟩
  unfold klogRealloc
  by_cases hpre : k.place = .preklog
  · rw [if_pos hpre]
    exact ⟨false, k, rfl, h, hself, nofun⟩
  rw [if_neg hpre, h.sub64_room]
  by_cases hroom : 32 ≤ k.klogCap - k.klogPos
  · rw [if_pos hroom]
    exact ⟨true, k, rfl, h, hself, fun _ => by omega⟩
  rw [if_neg hroom]
  have hadd : add64 k.klogCap 1024 = k.klogCap + 1024 := Nat.mod_eq_of_lt (by omega)
  rw [hadd]
  cases hgrant : avmfGrant (k.klogCap + 1024) answer with
  | none => exact ⟨false, k, rfl, h, hself, nofun⟩
  | some fresh =>
      refine ⟨true, _, rfl, ?_, ⟨nofun, Nat.le_refl _, fun x hx => if_pos hx⟩, fun _ => ?_⟩
      · refine ⟨⟨hend, Nat.le_trans hle (Nat.le_add_right _ _), ?_⟩, avmfGrant_le hgrant, ?_, nofun⟩
        · intro w hw
          obtain hold | hnew := List.mem_append.mp hw
          · exact h.writes w hold
          · rw [List.mem_singleton.mp hnew]
            change 0 + k.klogEnd ≤ k.klogCap + 1024
            omega
        · intro hloading
          exact absurd (h.loading hloading) hpre
      · change k.klogPos + 32 ≤ k.klogCap + 1024
        omega

-- A message's bytes do not pass the room that has been checked for.
theorem Grows.inv {k k' : Klog} {n : Nat} (h : Inv k) (hplace : k.place ≠ .null)
    (hgrows : Grows k k' n) (hroom : k.klogPos + n ≤ k.klogCap) :
    Inv { k' with klogEnd := k'.klogPos } ∧ Keeps k { k' with klogEnd := k'.klogPos } := by
  have hpos := hgrows.pos
  have hend := h.end_eq
  constructor
  · refine ⟨⟨rfl, ?_, ?_⟩, ?_, ?_, ?_⟩
    · change k'.klogPos ≤ k'.klogCap
      rw [hpos, hgrows.cap]
      exact hroom
    · intro w hw
      obtain hold | ⟨hlimit, hcap⟩ := hgrows.writes w hw
      · exact h.writes w hold
      · omega
    · change k'.klogCap ≤ 2 ^ 45
      rw [hgrows.cap]
      exact h.cap_le
    · intro hloading
      change k'.loading ≠ none at hloading
      rw [hgrows.loading] at hloading
      exact hgrows.place.trans (h.loading hloading)
    · intro hpre
      exact hgrows.cap.trans (h.preklog (hgrows.place.symm.trans hpre))
  · refine ⟨?_, ?_, fun x hx => hgrows.bytes x (by omega)⟩
    · change k'.place ≠ .null
      rwa [hgrows.place]
    · change k.klogEnd ≤ k'.klogPos
      omega

theorem klogPrintc_spec {k : Klog} (h : Inv k) (c : UInt8) {seconds : Nat}
    (hseconds : seconds < 10 ^ 13) (answer : Option (Nat → UInt8)) :
    Inv (k.klogPrintc c seconds answer) ∧ k.log <+: (k.klogPrintc c seconds answer).log := by
  unfold klogPrintc
  by_cases hnull : k.place = .null
  · rw [if_pos hnull]
    exact ⟨h, List.prefix_refl _⟩
  rw [if_neg hnull]
  have hle := h.pos_le
  have hcap := h.cap_le
  -- the room for a header and a character, where the call does not give up
  have hroom : ∃ ok k', (if k.klogCap ≤ add64 k.klogPos 32 then k.klogRealloc answer
      else (true, k)) = (ok, k') ∧ Inv k' ∧ Keeps k k' ∧
        (ok = true → k'.klogPos + 32 ≤ k'.klogCap) := by
    by_cases hfull : k.klogCap ≤ add64 k.klogPos 32
    · rw [if_pos hfull]
      exact klogRealloc_spec h hnull answer
    · have hadd : add64 k.klogPos 32 = k.klogPos + 32 := Nat.mod_eq_of_lt (by omega)
      rw [if_neg hfull]
      rw [hadd] at hfull
      exact ⟨true, k, rfl, h, ⟨hnull, Nat.le_refl _, fun _ _ => rfl⟩, fun _ => by omega⟩
  obtain ⟨ok, room, hroom, hinv, hkeeps, hfits⟩ := hroom
  rw [hroom]
  cases ok with
  | false => exact ⟨hinv, hkeeps.log⟩
  | true =>
      have hfits := hfits rfl
      have hmessage : ∃ n ≤ 24, 0 < n ∧
          Grows room ((if room.klogMsgStarted then room else room.header seconds).push [c]) n := by
        by_cases hstarted : room.klogMsgStarted
        · rw [if_pos hstarted]
          exact ⟨1, by decide, by decide, push_grows room [c]⟩
        · rw [if_neg hstarted]
          obtain ⟨n, hn, hheader⟩ := header_grows room hseconds
          exact ⟨n + 1, by omega, Nat.succ_pos n, hheader.trans (push_grows _ [c])⟩
      obtain ⟨n, hn, hpos, hgrows⟩ := hmessage
      have hnext := hgrows.inv hinv hkeeps.place (by omega)
      have hend : ((if room.klogMsgStarted then room else room.header seconds).push [c]).klogEnd <
          ((if room.klogMsgStarted then room else room.header seconds).push [c]).klogPos := by
        rw [hgrows.klogEnd, hgrows.pos, hinv.end_eq]
        omega
      change Inv (if _ < _ then _ else _) ∧ _ <+: log (if _ < _ then _ else _)
      rw [if_pos hend]
      exact ⟨hnext.1, (hkeeps.trans hnext.2).log⟩

-- The lengths of a log that is moved, where they fit in 64 bits.
theorem handed_sizes {size pos : Nat} (hfits : size + pos + 4096 < 2 ^ 64) :
    add64 size pos = size + pos ∧ add64 (size + pos) 4096 = size + pos + 4096 ∧
      add64 (add64 size 4096) pos = size + pos + 4096 := by
  unfold add64
  omega

-- A log that has been moved to a buffer which is long enough.
theorem leaveInitKlog_inv {k : Klog} (h : Inv k) (present : Bool) {l : LastLog}
    {fresh : Nat → UInt8}
    (hgrant : avmfGrant (add64 (add64 l.finalSize k.klogEnd) 4096) l.klogAnswer = some fresh)
    (hfits : l.finalSize + k.klogEnd + 4096 < 2 ^ 64) : Inv (k.leaveInitKlog present l) := by
  obtain ⟨hpos, hroom, hcap⟩ := handed_sizes hfits
  rw [hpos, hroom] at hgrant
  have hle := avmfGrant_le hgrant
  unfold leaveInitKlog
  simp only [hpos, hroom, hcap, hgrant]
  refine ⟨⟨rfl, Nat.le_add_right _ _, ?_⟩, hle, fun hno => absurd rfl hno, nofun⟩
  intro w hw
  simp only [List.mem_append] at hw
  obtain (hold | hcopy) | hdata := hw
  · exact h.writes w hold
  · split at hcopy
    · rw [List.mem_singleton.mp hcopy]
      change 0 + k.klogEnd ≤ l.finalSize + k.klogEnd + 4096
      omega
    · exact absurd hcopy List.not_mem_nil
  · split at hdata
    · rw [List.mem_singleton.mp hdata]
      change k.klogEnd + l.finalSize ≤ l.finalSize + k.klogEnd + 4096
      omega
    · exact absurd hdata List.not_mem_nil

-- What stands before the new end is what was printed, or what was in the new buffer.
theorem leaveInitKlog_log {k : Klog} (hplace : k.place = .preklog) (present : Bool)
    {l : LastLog} {fresh : Nat → UInt8}
    (hgrant : avmfGrant (add64 (add64 l.finalSize k.klogEnd) 4096) l.klogAnswer = some fresh)
    (hfits : l.finalSize + k.klogEnd + 4096 < 2 ^ 64) :
    k.log <+: (k.leaveInitKlog present l).log ↔
      present = true ∨ ∀ x < k.klogEnd, fresh x = k.bytes x := by
  obtain ⟨hpos, hroom, hcap⟩ := handed_sizes hfits
  rw [hpos, hroom] at hgrant
  unfold leaveInitKlog
  simp only [hpos, hroom, hcap, hgrant]
  unfold log
  rw [if_neg (by rw [hplace]; nofun), if_neg nofun]
  rw [map_range_extends]
  have hbyte : ∀ x < k.klogEnd, (match l.data with
      | none => if present = true ∧ x < k.klogEnd then k.bytes x else fresh x
      | some data =>
          if k.klogEnd ≤ x ∧ x < k.klogEnd + l.finalSize then data (x - k.klogEnd)
          else if present = true ∧ x < k.klogEnd then k.bytes x else fresh x) =
      if present = true then k.bytes x else fresh x := by
    intro x hx
    simp only [hx, and_true]
    cases l.data with
    | none => rfl
    | some data => exact if_neg (by omega)
  constructor
  · rintro ⟨-, hbytes⟩
    cases present with
    | true => exact .inl rfl
    | false => exact .inr fun x hx => (hbyte x hx).symm.trans (hbytes x hx)
  · intro hkept
    refine ⟨Nat.le_add_left _ _, fun x hx => (hbyte x hx).trans ?_⟩
    obtain hpresent | hsame := hkept
    · exact if_pos hpresent
    · split
      · rfl
      · exact hsame x hx

-- A length that does not fit leaves a log that is too short, or its end behind its buffer.
theorem leaveInitKlog_wrapped {k : Klog} (hplace : k.place = .preklog)
    (hend : k.klogEnd ≤ 2 ^ 45) {present : Bool} {l : LastLog} {fresh : Nat → UInt8}
    (hgrant : avmfGrant (add64 (add64 l.finalSize k.klogEnd) 4096) l.klogAnswer = some fresh)
    (hfits : ¬ l.finalSize + k.klogEnd + 4096 < 2 ^ 64)
    (hbounds : InBounds (k.leaveInitKlog present l))
    (hlog : k.log <+: (k.leaveInitKlog present l).log) : False := by
  have hsize : l.finalSize < 2 ^ 64 := by
    unfold LastLog.finalSize
    split
    · exact l.readSize.isLt
    · exact l.size.isLt
  unfold leaveInitKlog at hbounds hlog
  simp only [hgrant] at hbounds hlog
  have hle : add64 l.finalSize k.klogEnd ≤ add64 (add64 l.finalSize 4096) k.klogEnd :=
    hbounds.pos_le
  unfold log at hlog
  rw [if_neg (by rw [hplace]; nofun), if_neg nofun, map_range_extends] at hlog
  have hlen : k.klogEnd ≤ add64 l.finalSize k.klogEnd := hlog.1
  unfold add64 at hle hlen
  omega

-- Without a buffer there is no log.
theorem leaveInitKlog_null {k : Klog} {present : Bool} {l : LastLog}
    (hgrant : avmfGrant (add64 (add64 l.finalSize k.klogEnd) 4096) l.klogAnswer = none) :
    k.leaveInitKlog present l =
      { k with place := .null, klogPresent := l.data.isSome && l.readOk, loading := none } := by
  unfold leaveInitKlog
  simp only [hgrant]

theorem leaveInitKlog_iff {k : Klog} (h : Inv k) {present : Bool}
    (hloading : k.loading = some present) (l : LastLog) :
    (InBounds (k.leaveInitKlog present l) ∧ k.log <+: (k.leaveInitKlog present l).log ↔
      k.HandsOver l) ∧
    (k.HandsOver l → Inv (k.leaveInitKlog present l)) := by
  have hplace := h.loading (by rw [hloading]; nofun)
  have hsome : k.loading = some true ↔ present = true := by rw [hloading, Option.some.injEq]
  cases hgrant : avmfGrant (add64 (add64 l.finalSize k.klogEnd) 4096) l.klogAnswer with
  | none =>
      have hmoves : k.HandsOver l ↔ k.klogEnd = 0 := by
        unfold HandsOver
        rw [hgrant]
      rw [hmoves, leaveInitKlog_null hgrant]
      refine ⟨⟨fun ⟨_, hlog⟩ => ?_, fun hzero => ⟨⟨h.end_eq, h.pos_le, h.writes⟩, ?_⟩⟩, fun _ => ?_⟩
      · have hlen := hlog.length_le
        simpa [log, hplace] using hlen
      · simp [log, hzero]
      · exact ⟨⟨h.end_eq, h.pos_le, h.writes⟩, h.cap_le, fun hno => absurd rfl hno, nofun⟩
  | some fresh =>
      have hmoves : k.HandsOver l ↔ l.finalSize + k.klogEnd + 4096 < 2 ^ 64 ∧
          (present = true ∨ ∀ x < k.klogEnd, fresh x = k.bytes x) := by
        unfold HandsOver
        rw [hgrant]
        exact and_congr_right fun _ => or_congr_left hsome
      rw [hmoves]
      by_cases hfits : l.finalSize + k.klogEnd + 4096 < 2 ^ 64
      · have hinv := leaveInitKlog_inv h present hgrant hfits
        have hlog := leaveInitKlog_log hplace present hgrant hfits
        exact ⟨⟨fun hboth => ⟨hfits, hlog.mp hboth.2⟩,
          fun hboth => ⟨hinv.toInBounds, hlog.mpr hboth.2⟩⟩, fun _ => hinv⟩
      · have hend : k.klogEnd ≤ 2 ^ 45 :=
          h.end_eq ▸ Nat.le_trans h.pos_le h.cap_le
        exact ⟨⟨fun hboth => (leaveInitKlog_wrapped hplace hend hgrant hfits hboth.1 hboth.2).elim,
          fun hboth => absurd hboth.1 hfits⟩, fun hboth => absurd hboth.1 hfits⟩

-- The other calls append to the log, and a call leaves the log as it should where it moves
-- it as it should.
theorem call_spec {k k' : Klog} {c : KlogCall} (h : Inv k) (hcall : k.Takes c k') :
    (InBounds k' ∧ k.Appends c ↔ k.Moves c) ∧ (k.Moves c → Inv k') := by
  have hsole : k.Appends c ↔ k.log <+: k'.log := by
    constructor
    · intro hall
      exact hall k' hcall
    · intro hlog k'' hcall''
      obtain rfl := Option.some.inj (hcall.symm.trans hcall'')
      exact hlog
  have hother (hinv : Inv k') (hlog : k.log <+: k'.log) (hmoves : k.Moves c) :
      (InBounds k' ∧ k.Appends c ↔ k.Moves c) ∧ (k.Moves c → Inv k') :=
    ⟨⟨fun _ => hmoves, fun _ => ⟨hinv.toInBounds, hsole.mpr hlog⟩⟩, fun _ => hinv⟩
  unfold Takes call at hcall
  cases c with
  | printc c seconds answer =>
      obtain ⟨hseconds, hcall⟩ := Option.ite_none_right_eq_some.mp hcall
      obtain rfl := Option.some.inj hcall
      obtain ⟨hinv, hlog⟩ := klogPrintc_spec h c hseconds answer
      exact hother hinv hlog trivial
  | boundary started =>
      obtain rfl := Option.some.inj hcall
      exact hother ⟨⟨h.end_eq, h.pos_le, h.writes⟩, h.cap_le, h.loading, h.preklog⟩
        (List.prefix_refl _) trivial
  | serialInit =>
      obtain ⟨⟨hplace, -⟩, hcall⟩ := Option.ite_none_right_eq_some.mp hcall
      obtain rfl := Option.some.inj hcall
      have hcap := h.preklog hplace
      have hle := h.pos_le
      have hbound := h.cap_le
      rw [hcap] at hle hbound
      exact hother ⟨⟨h.end_eq, hle, h.writes⟩, hbound, fun _ => rfl, fun _ => rfl⟩
        (log_extends nofun (Nat.le_refl _) fun _ _ => rfl) trivial
  | enterInitKlog =>
      obtain ⟨⟨hplace, -⟩, hcall⟩ := Option.ite_none_right_eq_some.mp hcall
      obtain rfl := Option.some.inj hcall
      exact hother ⟨⟨h.end_eq, h.pos_le, h.writes⟩, h.cap_le, fun _ => hplace, h.preklog⟩
        (List.prefix_refl _) trivial
  | leaveInitKlog l =>
      obtain ⟨present, hloading, rfl⟩ := Option.map_eq_some_iff.mp hcall
      rw [hsole]
      exact leaveInitKlog_iff h hloading l

end Klog

-- The log before the kernel runs.
def bssKlog : Klog where
  place := .null
  bytes := fun _ => 0
  klogCap := 0
  klogEnd := 0
  klogPos := 0
  klogPresent := false
  klogMsgStarted := false
  loading := none
  written := []

def bootKlog : Klog := bssKlog.serialInit true

theorem bootKlog_inv : bootKlog.Inv :=
  ⟨⟨rfl, by decide, nofun⟩, by decide, fun _ => rfl, fun _ => rfl⟩

-- From the first serial_init on the log stays in bounds and is only appended to, exactly
-- where the call that moves it to the heap keeps what is there.
theorem klog_run_iff {past : List (Klog × KlogCall)} {k : Klog}
    (h : Trace Klog.Takes bootKlog past k) :
    (Trace.Always Klog.InBounds past k ∧ Trace.Admits Klog.Appends past ↔
      Trace.Admits Klog.Moves past) :=
  Trace.always_and_admits_iff bootKlog_inv bootKlog_inv.toInBounds
    (fun _ _ _ hinv hmoves hstep => (Klog.call_spec hinv hstep).2 hmoves)
    (fun _ _ _ hinv hstep => (Klog.call_spec hinv hstep).1) h

-- One message of one character.
def printed : Klog := bootKlog.klogPrintc (chr 'A') 7 none

-- There is no last log, and memory of zeros.
def firstLog : LastLog := ⟨false, 0, none, false, 0, some fun _ => 0⟩

-- The same without the memory.
def noMemory : LastLog := { firstLog with klogAnswer := none }

def printedPast (l : LastLog) : List (Klog × KlogCall) :=
  [(bootKlog, .printc (chr 'A') 7 none), (printed, .enterInitKlog),
    (printed.enterInitKlog, .leaveInitKlog l)]

theorem printed_leaves (l : LastLog) : printed.enterInitKlog.Takes (.leaveInitKlog l)
    (printed.enterInitKlog.leaveInitKlog true l) := by
  have hloading : printed.enterInitKlog.loading = some true := by decide +kernel
  unfold Klog.Takes Klog.call
  rw [hloading]
  rfl

theorem printed_run (l : LastLog) :
    Trace Klog.Takes bootKlog (printedPast l) (printed.enterInitKlog.leaveInitKlog true l) := by
  have hprint : bootKlog.Takes (.printc (chr 'A') 7 none) printed := by
    unfold Klog.Takes Klog.call
    exact if_pos (by decide)
  have henter : printed.Takes .enterInitKlog printed.enterInitKlog := by
    unfold Klog.Takes Klog.call
    exact if_pos (by decide +kernel)
  exact ((Trace.nil.snoc hprint).snoc henter).snoc (printed_leaves l)

theorem klog_run_iff_printed :
    Trace.Always Klog.InBounds (printedPast firstLog)
        (printed.enterInitKlog.leaveInitKlog true firstLog) ∧
      Trace.Admits Klog.Appends (printedPast firstLog) ↔
      Trace.Admits Klog.Moves (printedPast firstLog) :=
  klog_run_iff (printed_run firstLog)

-- Where there is no memory for a new log, serial_init_klog has given up the old one.
theorem log_lost :
    Trace Klog.Takes bootKlog (printedPast noMemory)
        (printed.enterInitKlog.leaveInitKlog true noMemory) ∧
      printed.enterInitKlog.log = text "[AOS - " ++ [0] ++ text "0000000007] A" ∧
      (printed.enterInitKlog.leaveInitKlog true noMemory).log = [] ∧
      ¬ Trace.Admits Klog.Appends (printedPast noMemory) := by
  have hlog : printed.enterInitKlog.log = text "[AOS - " ++ [0] ++ text "0000000007] A" := by
    decide +kernel
  have hlost : (printed.enterInitKlog.leaveInitKlog true noMemory).log = [] := by
    decide +kernel
  refine ⟨printed_run noMemory, hlog, hlost, fun happends => ?_⟩
  have hlast : (printed.enterInitKlog, KlogCall.leaveInitKlog noMemory) ∈ printedPast noMemory :=
    .tail _ (.tail _ (.head _))
  have hstarts := happends _ hlast _ (printed_leaves noMemory)
  rw [hlost, hlog] at hstarts
  exact absurd hstarts.length_le (by decide)

end AosKernel.Io
