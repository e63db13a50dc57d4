import Mathlib.Logic.Function.Basic
import AosKernel.Lib.Words

namespace AosKernel.Core

open Verif Bytes

inductive Reg
  | rax | rcx | rdx | rbx | rbp | rsi | rdi | r8 | r9 | r10 | r11 | r12 | r13 | r14 | r15
  deriving DecidableEq

structure Processor where
  regs : Reg → BitVec 64
  rsp : Nat
  rip : BitVec 64
  cs : BitVec 64
  rflags : BitVec 64
  ss : BitVec 64
  memory : Bytes

namespace Processor

def push (p : Processor) (w : BitVec 64) : Processor :=
  { p with rsp := p.rsp - 8, memory := writeWord p.memory (p.rsp - 8) w }

def pop (p : Processor) (r : Reg) : Processor :=
  { p with rsp := p.rsp + 8, regs := Function.update p.regs r (readWord p.memory p.rsp) }

def iretq (p : Processor) : Processor :=
  { p with
    rip := readWord p.memory p.rsp
    cs := readWord p.memory (p.rsp + 8)
    rflags := readWord p.memory (p.rsp + 16)
    rsp := (readWord p.memory (p.rsp + 24)).toNat
    ss := readWord p.memory (p.rsp + 32) }

end Processor

-- An interrupt or an exception, with what the processor gives as its error code.
structure Event where
  vector : Nat
  error : BitVec 64

-- The exceptions with an error code.
def hasErrorCode (vector : Nat) : Bool :=
  vector == 8 || (10 ≤ vector && vector ≤ 14) || vector == 17 || vector == 21

-- What the processor does before the first instruction of a stub: it aligns the
-- stack, pushes SS, RSP, RFLAGS, CS, RIP and the error code, and an interrupt
-- gate clears IF, TF, NT, RF and VM.
def deliver (idt : Nat → BitVec 64) (e : Event) (p : Processor) : Processor :=
  let q := { p with rsp := p.rsp / 16 * 16 }
  let q := ((((q.push p.ss).push (BitVec.ofNat 64 p.rsp)).push p.rflags).push p.cs).push p.rip
  let q := if hasErrorCode e.vector then q.push e.error else q
  { q with rip := idt e.vector, rflags := p.rflags &&& ~~~0x34300#64 }

def savedRegs : List Reg :=
  [.rax, .rcx, .rdx, .rbx, .rbp, .rsi, .rdi, .r8, .r9, .r10, .r11, .r12, .r13, .r14, .r15]

def saveAll (p : Processor) : Processor := savedRegs.foldl (fun p r => p.push (p.regs r)) p

def restoreAll (p : Processor) : Processor := savedRegs.reverse.foldl (fun p r => p.pop r) p

-- Up to the call of the C function: aos_system_exception_asm_0 to _31 with the
-- frame in RDI, and the stubs in int.asm.
def enter (idt : Nat → BitVec 64) (e : Event) (p : Processor) : Processor :=
  let p := deliver idt e p
  if e.vector < 32 then
    let p := if hasErrorCode e.vector then p else p.push 0
    let p := p.push (BitVec.ofNat 64 e.vector)
    let p := saveAll p
    { p with
      regs := Function.update p.regs .rdi (BitVec.ofNat 64 p.rsp)
      rflags := p.rflags &&& ~~~0x400#64 }
  else saveAll p

-- From the return of the C function on.
def leave (e : Event) (p : Processor) : Processor :=
  let p := restoreAll p
  let p := if e.vector < 32 then { p with rsp := p.rsp + 16 } else p
  p.iretq

-- What a C function does between the call and its return, with the stack below
-- `base` for itself; interrupts may come in between, and others while those are
-- handled.
inductive HandlerRun (idt : Nat → BitVec 64) : Nat → Processor → Processor → Prop
  | done {base p} : HandlerRun idt base p p
  | code {base p q r} : (∀ x, base ≤ x → q.memory x = p.memory x) → HandlerRun idt base q r →
      HandlerRun idt base p r
  | interrupt {base p q r e} : p.rsp ≤ base → 192 ≤ p.rsp → p.rsp < 2 ^ 64 →
      HandlerRun idt (enter idt e p).rsp (enter idt e p) q → q.rsp = (enter idt e p).rsp →
      HandlerRun idt base (leave e q) r → HandlerRun idt base p r

section Frames

variable {idt : Nat → BitVec 64} {e : Event} {p q : Processor}

-- From `p` to `q` the words have been pushed.
structure Pushed (words : List (BitVec 64)) (p q : Processor) : Prop where
  regs : q.regs = p.regs
  rsp : q.rsp = p.rsp - 8 * words.length
  memory : q.memory = pushWords p.memory p.rsp words

theorem pushWords_append (m : Bytes) (sp : Nat) (words words' : List (BitVec 64)) :
    pushWords m sp (words ++ words') =
      pushWords (pushWords m sp words) (sp - 8 * words.length) words' := by
  induction words generalizing m sp with
  | nil => rfl
  | cons w rest ih =>
      rw [List.cons_append, pushWords, ih, pushWords, List.length_cons, Nat.sub_sub]
      congr 2
      omega

namespace Pushed

variable {words words' : List (BitVec 64)} {r : Processor}

theorem push (p : Processor) (w : BitVec 64) : Pushed [w] p (p.push w) :=
  ⟨rfl, rfl, rfl⟩

theorem trans (h : Pushed words p q) (h' : Pushed words' q r) : Pushed (words ++ words') p r where
  regs := h'.regs.trans h.regs
  rsp := by
    rw [h'.rsp, h.rsp, List.length_append]
    omega
  memory := by rw [h'.memory, h.memory, h.rsp, pushWords_append]

theorem saveAll (p : Processor) : Pushed (savedRegs.map p.regs) p (saveAll p) := by
  have hall (rs : List Reg) (q : Processor) (hq : q.regs = p.regs) :
      Pushed (rs.map p.regs) q (rs.foldl (fun p r => p.push (p.regs r)) q) := by
    induction rs generalizing q with
    | nil => exact ⟨rfl, rfl, rfl⟩
    | cons r rest ih =>
        have hstep := (push q (p.regs r)).trans (ih _ hq)
        rwa [← hq] at hstep ⊢
  exact hall savedRegs p rfl

end Pushed

-- The words that a stub has on the stack when it calls the C function.
def stubWords (e : Event) : List (BitVec 64) :=
  if e.vector < 32 then
    [if hasErrorCode e.vector then e.error else 0, BitVec.ofNat 64 e.vector]
  else []

def returnWords (p : Processor) : List (BitVec 64) :=
  [p.ss, BitVec.ofNat 64 p.rsp, p.rflags, p.cs, p.rip]

def frameWords (e : Event) (p : Processor) : List (BitVec 64) :=
  returnWords p ++ (stubWords e ++ savedRegs.map p.regs)

theorem returnWords_length (p : Processor) : (returnWords p).length = 5 := rfl

theorem savedRegs_length : savedRegs.length = 15 := rfl

theorem stubWords_length (e : Event) :
    (stubWords e).length = if e.vector < 32 then 2 else 0 := by
  unfold stubWords
  split <;> rfl

theorem frameWords_length (e : Event) (p : Processor) :
    (frameWords e p).length = 5 + ((stubWords e).length + 15) := by
  rw [frameWords, List.length_append, List.length_append, List.length_map, returnWords_length,
    savedRegs_length]

theorem frameWords_return {e : Event} {p : Processor} {i : Nat} (hi : i < 5) :
    (frameWords e p)[i]? = (returnWords p)[i]? :=
  List.getElem?_append_left hi

theorem frameWords_reg (e : Event) (p : Processor) (k : Nat) :
    (frameWords e p)[5 + ((stubWords e).length + k)]? = (savedRegs[k]?).map p.regs := by
  rw [frameWords, List.getElem?_append_right (Nat.le_add_right 5 _), returnWords_length,
    Nat.add_sub_cancel_left, List.getElem?_append_right (Nat.le_add_right _ k),
    Nat.add_sub_cancel_left, List.getElem?_map]

theorem hasErrorCode_lt {vector : Nat} (h : hasErrorCode vector = true) : vector < 32 := by
  simp only [hasErrorCode, Bool.or_eq_true, Bool.and_eq_true, beq_iff_eq, decide_eq_true_eq] at h
  omega

theorem deliver_pushed (idt : Nat → BitVec 64) (e : Event) (p : Processor) :
    Pushed (returnWords p ++ if hasErrorCode e.vector then [e.error] else [])
      { p with rsp := p.rsp / 16 * 16 } (deliver idt e p) := by
  have hframe := ((((Pushed.push { p with rsp := p.rsp / 16 * 16 } p.ss).trans
    (.push _ (BitVec.ofNat 64 p.rsp))).trans (.push _ p.rflags)).trans (.push _ p.cs)).trans
      (.push _ p.rip)
  unfold deliver
  split
  · have herror := hframe.trans (.push _ e.error)
    exact ⟨herror.regs, herror.rsp, herror.memory⟩
  · exact ⟨hframe.regs, hframe.rsp, hframe.memory⟩

-- What a stub has put on the stack when it calls the C function.
theorem enter_stack (idt : Nat → BitVec 64) (e : Event) (p : Processor) :
    (enter idt e p).rsp = p.rsp / 16 * 16 - 8 * (frameWords e p).length ∧
      (enter idt e p).memory = pushWords p.memory (p.rsp / 16 * 16) (frameWords e p) := by
  have hdeliver := deliver_pushed idt e p
  unfold enter frameWords stubWords
  by_cases hvector : e.vector < 32
  · have hnumber : Pushed (returnWords p ++
        [if hasErrorCode e.vector then e.error else 0, BitVec.ofNat 64 e.vector])
        { p with rsp := p.rsp / 16 * 16 }
        ((if hasErrorCode e.vector then deliver idt e p else (deliver idt e p).push 0).push
          (BitVec.ofNat 64 e.vector)) := by
      cases herror : hasErrorCode e.vector with
      | true =>
          rw [herror] at hdeliver
          exact hdeliver.trans (.push _ _)
      | false =>
          rw [herror] at hdeliver
          exact (hdeliver.trans (.push _ 0)).trans (.push _ _)
    have hall := hnumber.trans (.saveAll _)
    rw [hnumber.regs, List.append_assoc] at hall
    simp only [hvector, if_true]
    exact ⟨hall.rsp, hall.memory⟩
  · have herror : hasErrorCode e.vector = false :=
      Bool.eq_false_iff.mpr fun h => hvector (hasErrorCode_lt h)
    have hall := hdeliver.trans (.saveAll (deliver idt e p))
    rw [herror, hdeliver.regs] at hall
    rw [if_neg hvector, if_neg hvector]
    exact ⟨hall.rsp, hall.memory⟩

-- The pops read what lies at RSP, whatever they are written into.
theorem foldl_pop {rs : List Reg} {f : Reg → BitVec 64}
    (hwords : ∀ i r, rs[i]? = some r → readWord q.memory (q.rsp + 8 * i) = f r) :
    (rs.foldl (fun p r => p.pop r) q) = { q with
      rsp := q.rsp + 8 * rs.length, regs := fun r => if r ∈ rs then f r else q.regs r } := by
  induction rs generalizing q with
  | nil => simp
  | cons r rest ih =>
      have hfirst := hwords 0 r rfl
      rw [Nat.mul_zero, Nat.add_zero] at hfirst
      rw [List.foldl_cons, ih (q := q.pop r) fun i r' hr' => ?_]
      · simp only [Processor.pop, hfirst, List.length_cons, List.mem_cons, Processor.mk.injEq,
          and_true]
        refine ⟨funext fun r' => ?_, by omega⟩
        rw [Function.update_apply]
        by_cases hr : r' = r
        · simp [hr]
        · simp [hr]
      · rw [← hwords (i + 1) r' hr']
        simp only [Processor.pop]
        congr 1
        omega

theorem mem_savedRegs (r : Reg) : r ∈ savedRegs := by
  cases r <;> decide

-- A stub restores everything from a frame that lies where it left it.
theorem leave_eq {base : Nat} (hrsp : q.rsp + 8 * (frameWords e p).length = base)
    (hwords : ∀ i w, (frameWords e p)[i]? = some w →
      readWord q.memory (base - 8 * (i + 1)) = w) (hp : p.rsp < 2 ^ 64) :
    leave e q = { p with memory := q.memory } := by
  rw [frameWords_length] at hrsp
  have hregs (i : Nat) (r : Reg) (hr : savedRegs.reverse[i]? = some r) :
      readWord q.memory (q.rsp + 8 * i) = p.regs r := by
    have hi := (List.getElem?_eq_some_iff.mp hr).1
    rw [List.length_reverse, savedRegs_length] at hi
    rw [List.getElem?_reverse hi, savedRegs_length] at hr
    rw [← hwords (5 + ((stubWords e).length + (15 - 1 - i))) (p.regs r)]
    · congr 1
      omega
    · rw [frameWords_reg, hr, Option.map_some]
  have hrestore : restoreAll q = { q with rsp := q.rsp + 8 * 15, regs := p.regs } := by
    rw [restoreAll, foldl_pop hregs, List.length_reverse, savedRegs_length]
    simp only [List.mem_reverse, mem_savedRegs, if_true]
  have hskip : (if e.vector < 32 then { restoreAll q with rsp := (restoreAll q).rsp + 16 }
      else restoreAll q) = { q with rsp := base - 40, regs := p.regs } := by
    rw [stubWords_length] at hrsp
    rw [hrestore]
    split at hrsp
    · rename_i hvector
      rw [if_pos hvector]
      dsimp only
      congr 1
      omega
    · rename_i hvector
      rw [if_neg hvector]
      congr 1
      omega
  have hreturn (i : Nat) (w : BitVec 64) (hi : i < 5) (hw : (returnWords p)[i]? = some w) :
      readWord q.memory (base - 40 + 8 * (4 - i)) = w := by
    rw [← hwords i w (by rw [frameWords_return hi, hw])]
    congr 1
    omega
  have hrip := hreturn 4 p.rip (by decide) rfl
  rw [Nat.sub_self, Nat.mul_zero, Nat.add_zero] at hrip
  have hcs : readWord q.memory (base - 40 + 8) = p.cs := hreturn 3 p.cs (by decide) rfl
  have hflags : readWord q.memory (base - 40 + 16) = p.rflags := hreturn 2 p.rflags (by decide) rfl
  have hsp : readWord q.memory (base - 40 + 24) = BitVec.ofNat 64 p.rsp :=
    hreturn 1 (BitVec.ofNat 64 p.rsp) (by decide) rfl
  have hss : readWord q.memory (base - 40 + 32) = p.ss := hreturn 0 p.ss (by decide) rfl
  have hback : (BitVec.ofNat 64 p.rsp).toNat = p.rsp := by
    rw [BitVec.toNat_ofNat, Nat.mod_eq_of_lt hp]
  unfold leave
  simp only [hskip, Processor.iretq]
  rw [hrip, hcs, hflags, hsp, hss, hback]

theorem enter_rsp (idt : Nat → BitVec 64) (e : Event) (p : Processor) :
    (enter idt e p).rsp = p.rsp / 16 * 16 - 8 * (20 + (stubWords e).length) := by
  rw [(enter_stack idt e p).1, frameWords_length]
  omega

theorem enter_above (he : 192 ≤ p.rsp) {x : Nat} (hx : p.rsp ≤ x) :
    (enter idt e p).memory x = p.memory x := by
  have hlen := frameWords_length e p
  have hstub := stubWords_length e
  rw [(enter_stack idt e p).2, pushWords_other _ _ _ ?_ (.inr (by omega))]
  split at hstub <;> omega

theorem leave_of_kept (hroom : 192 ≤ p.rsp) (hp : p.rsp < 2 ^ 64)
    (hrsp : q.rsp = (enter idt e p).rsp)
    (hkept : ∀ x, (enter idt e p).rsp ≤ x → q.memory x = (enter idt e p).memory x) :
    leave e q = { p with memory := q.memory } := by
  have hlen := frameWords_length e p
  have hstub := stubWords_length e
  have hbase := enter_rsp idt e p
  have hfit : 8 * (frameWords e p).length ≤ p.rsp / 16 * 16 := by
    split at hstub <;> omega
  have htop : q.rsp + 8 * (frameWords e p).length = p.rsp / 16 * 16 := by omega
  refine leave_eq htop (fun i w hw => ?_) hp
  have hi := (List.getElem?_eq_some_iff.mp hw).1
  rw [← readWord_pushWords p.memory (p.rsp / 16 * 16) (frameWords e p) hfit hw,
    ← (enter_stack idt e p).2]
  exact readWord_congr fun j hj => hkept _ (by omega)

-- By induction on the run: the stack above `base` stays as it is, however many
-- interrupts come, and however deep they are nested.
theorem HandlerRun.above {base : Nat} {r : Processor} (h : HandlerRun idt base p r) {x : Nat}
    (hx : base ≤ x) : r.memory x = p.memory x := by
  induction h generalizing x with
  | done => rfl
  | code hcode _ ih => rw [ih hx, hcode x hx]
  | @interrupt base p q r e hbase hroom hlt hrun hrsp hrest ihrun ihrest =>
      have hlow : (enter idt e p).rsp ≤ x := by
        rw [enter_rsp]
        omega
      have hleave := leave_of_kept hroom hlt hrsp fun x hx => ihrun hx
      rw [ihrest hx, hleave]
      dsimp only
      rw [ihrun hlow, enter_above hroom (Nat.le_trans hbase hx)]

end Frames

end AosKernel.Core
