import Mathlib.Algebra.Group.Nat.Defs
import Mathlib.Data.Nat.Basic
import Mathlib.Logic.Function.Basic

namespace AosKernel.Mm

-- avmf_bitmap: 64-bit words, of which the code uses the low eight bits.
abbrev Bitmap := Nat → BitVec 64

def BITMAP_SIZE : Nat := 131072

def pageBit (page : Nat) : BitVec 64 := 1#64 <<< (page % 8)

def bitmapSet (bm : Bitmap) (page : Nat) : Bitmap :=
  Function.update bm (page / 8) (bm (page / 8) ||| pageBit page)

def bitmapClear (bm : Bitmap) (page : Nat) : Bitmap :=
  Function.update bm (page / 8) (bm (page / 8) &&& ~~~ pageBit page)

def bitmapTest (bm : Bitmap) (page : Nat) : Bool := (bm (page / 8) &&& pageBit page) != 0#64

def setPages (bm : Bitmap) (first : Nat) : Nat → Bitmap
  | 0 => bm
  | n + 1 => setPages (bitmapSet bm first) (first + 1) n

def clearPages (bm : Bitmap) (first : Nat) : Nat → Bitmap
  | 0 => bm
  | n + 1 => clearPages (bitmapClear bm first) (first + 1) n

-- Whether the `n` pages from `first` on are all marked.
def allMarked (bm : Bitmap) (first : Nat) : Nat → Bool
  | 0 => true
  | n + 1 => bitmapTest bm first && allMarked bm (first + 1) n

-- The first free page among the `n` pages from `page` on.
def firstFree (bm : Bitmap) (page : Nat) : Nat → Option Nat
  | 0 => none
  | n + 1 => if bitmapTest bm page then firstFree bm (page + 1) n else some page

-- The loop of avmf_alloc_phys_contiguous over one region: `consecutive` free
-- pages from `firstPage` on end in front of `page`.
def firstRun (bm : Bitmap) (needed page consecutive firstPage : Nat) : Nat → Option Nat
  | 0 => none
  | n + 1 =>
      if bitmapTest bm page then firstRun bm needed (page + 1) 0 firstPage n
      else
        let firstPage := if consecutive = 0 then page else firstPage
        if consecutive + 1 = needed then some firstPage
        else firstRun bm needed (page + 1) (consecutive + 1) firstPage n

-- The pages that allMarked and firstFree test: up to the first free one.
def markedTests (bm : Bitmap) (first : Nat) : Nat → List Nat
  | 0 => []
  | n + 1 => first :: if bitmapTest bm first then markedTests bm (first + 1) n else []

-- The pages that firstRun tests.
def firstRunTests (bm : Bitmap) (needed page consecutive : Nat) : Nat → List Nat
  | 0 => []
  | n + 1 => page ::
      if bitmapTest bm page then firstRunTests bm needed (page + 1) 0 n
      else if consecutive + 1 = needed then []
      else firstRunTests bm needed (page + 1) (consecutive + 1) n

theorem pageBit_getLsbD (page i : Nat) : (pageBit page).getLsbD i = decide (i = page % 8) := by
  have hlt : page % 8 < 8 := Nat.mod_lt _ (by decide)
  unfold pageBit
  simp only [BitVec.getLsbD_shiftLeft, BitVec.getLsbD_one, ← Bool.decide_and,
    ← decide_not, decide_eq_decide]
  omega

theorem bitmapTest_eq (bm : Bitmap) (page : Nat) :
    bitmapTest bm page = (bm (page / 8)).getLsbD (page % 8) := by
  have hlt : page % 8 < 64 := by omega
  unfold bitmapTest
  cases hbit : (bm (page / 8)).getLsbD (page % 8) with
  | true =>
      refine bne_iff_ne.mpr fun hzero => ?_
      have := congrArg (fun w => w.getLsbD (page % 8)) hzero
      simp [hbit, pageBit_getLsbD] at this
  | false =>
      rw [bne_eq_false_iff_eq]
      apply BitVec.eq_of_getLsbD_eq
      intro i hi
      by_cases h : i = page % 8
      · subst h
        simp [hbit]
      · simp [pageBit_getLsbD, h]

theorem same_page {p q : Nat} (hword : p / 8 = q / 8) (hbit : p % 8 = q % 8) : p = q := by
  omega

-- A word that is written anew changes the bit of one page.
theorem bitmapTest_update {bm : Bitmap} {p : Nat} {w : BitVec 64} {b : Bool}
    (hw : ∀ i < 64, w.getLsbD i = if i = p % 8 then b else (bm (p / 8)).getLsbD i) (q : Nat) :
    bitmapTest (Function.update bm (p / 8) w) q = if q = p then b else bitmapTest bm q := by
  rw [bitmapTest_eq, bitmapTest_eq, Function.update_apply]
  by_cases hword : q / 8 = p / 8
  · rw [if_pos hword, hw (q % 8) (by omega), hword]
    by_cases hbit : q % 8 = p % 8
    · rw [if_pos hbit, if_pos (same_page hword hbit)]
    · rw [if_neg hbit, if_neg fun hsame => hbit (by rw [hsame])]
  · rw [if_neg hword, if_neg fun hsame => hword (by rw [hsame])]

@[simp] theorem bitmapTest_set (bm : Bitmap) (p q : Nat) :
    bitmapTest (bitmapSet bm p) q = (decide (q = p) || bitmapTest bm q) := by
  have hw : ∀ i < 64, (bm (p / 8) ||| pageBit p).getLsbD i =
      if i = p % 8 then true else (bm (p / 8)).getLsbD i := by
    intro i _
    rw [BitVec.getLsbD_or, pageBit_getLsbD]
    by_cases hbit : i = p % 8 <;> simp [hbit]
  rw [bitmapSet, bitmapTest_update hw]
  by_cases hsame : q = p <;> simp [hsame]

@[simp] theorem bitmapTest_clear (bm : Bitmap) (p q : Nat) :
    bitmapTest (bitmapClear bm p) q = (!decide (q = p) && bitmapTest bm q) := by
  have hw : ∀ i < 64, (bm (p / 8) &&& ~~~ pageBit p).getLsbD i =
      if i = p % 8 then false else (bm (p / 8)).getLsbD i := by
    intro i hi
    rw [BitVec.getLsbD_and, BitVec.getLsbD_not, pageBit_getLsbD, decide_eq_true hi]
    by_cases hbit : i = p % 8 <;> simp [hbit]
  rw [bitmapClear, bitmapTest_update hw]
  by_cases hsame : q = p <;> simp [hsame]

theorem bitmapTest_setPages (bm : Bitmap) (first n q : Nat) :
    bitmapTest (setPages bm first n) q = (decide (first ≤ q ∧ q < first + n) || bitmapTest bm q) := by
  induction n generalizing bm first with
  | zero =>
      have h : ¬ (first ≤ q ∧ q < first + 0) := by omega
      rw [setPages, decide_eq_false h, Bool.false_or]
  | succ n ih =>
      rw [setPages, ih, bitmapTest_set, ← Bool.or_assoc, ← Bool.decide_or]
      congr 1
      simp only [decide_eq_decide]
      omega

theorem bitmapTest_clearPages (bm : Bitmap) (first n q : Nat) :
    bitmapTest (clearPages bm first n) q =
      (!decide (first ≤ q ∧ q < first + n) && bitmapTest bm q) := by
  induction n generalizing bm first with
  | zero =>
      have h : ¬ (first ≤ q ∧ q < first + 0) := by omega
      rw [clearPages, decide_eq_false h, Bool.not_false, Bool.true_and]
  | succ n ih =>
      rw [clearPages, ih, bitmapTest_clear, ← Bool.and_assoc, ← Bool.not_or, ← Bool.decide_or]
      congr 2
      simp only [decide_eq_decide]
      omega

theorem firstFree_some {bm : Bitmap} {page n found : Nat} (h : firstFree bm page n = some found) :
    page ≤ found ∧ found < page + n ∧ bitmapTest bm found = false := by
  induction n generalizing page with
  | zero => simp [firstFree] at h
  | succ n ih =>
      unfold firstFree at h
      split at h
      · obtain ⟨hle, hlt, hfree⟩ := ih h
        exact ⟨by omega, by omega, hfree⟩
      · rename_i hclear
        cases h
        exact ⟨Nat.le_refl _, by omega, by simpa using hclear⟩

-- The run found is free, as long as asked for and not in front of `lo`.
theorem firstRun_some {bm : Bitmap} {lo needed page consecutive firstPage n found : Nat}
    (hlo : lo ≤ page) (hstart : 0 < consecutive → lo ≤ firstPage)
    (hrun : ∀ q, firstPage ≤ q → q < page → 0 < consecutive → bitmapTest bm q = false)
    (hlen : 0 < consecutive → firstPage + consecutive = page) (hless : consecutive < needed)
    (h : firstRun bm needed page consecutive firstPage n = some found) :
    lo ≤ found ∧ found + needed ≤ page + n ∧
      ∀ q, found ≤ q → q < found + needed → bitmapTest bm q = false := by
  induction n generalizing page consecutive firstPage with
  | zero => simp [firstRun] at h
  | succ n ih =>
      unfold firstRun at h
      split at h
      · have hnext := ih (by omega) (by omega) (by omega) (by omega) (by omega) h
        exact ⟨hnext.1, by omega, hnext.2.2⟩
      · rename_i hclear
        have hpage : bitmapTest bm page = false := by simpa using hclear
        -- the run now reaches up to and including `page`
        have hrun' : ∀ q, (if consecutive = 0 then page else firstPage) ≤ q → q < page + 1 →
            bitmapTest bm q = false := by
          intro q hle hlt
          by_cases heq : q = page
          · exact heq ▸ hpage
          · split at hle
            · omega
            · exact hrun q hle (by omega) (by omega)
        have hlen' : (if consecutive = 0 then page else firstPage) + (consecutive + 1) = page + 1 := by
          split
          · omega
          · have := hlen (by omega)
            omega
        have hstart' : lo ≤ if consecutive = 0 then page else firstPage := by
          split
          · exact hlo
          · exact hstart (by omega)
        dsimp only at h
        split at h
        · rename_i hdone
          cases h
          exact ⟨hstart', by omega, fun q hle hlt => hrun' q hle (by omega)⟩
        · have hnext := ih (by omega) (fun _ => hstart') (fun q hle hlt _ => hrun' q hle hlt)
            (fun _ => hlen') (by omega) h
          exact ⟨hnext.1, by omega, hnext.2.2⟩

end AosKernel.Mm
