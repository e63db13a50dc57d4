import Mathlib.Algebra.Group.Nat.Defs
import Mathlib.Data.List.Basic

namespace Verif

variable {σ ι : Type}

-- The finite runs of a labelled step relation. The list records, oldest
-- first, each state that was left and the label of the step taken there.
inductive Trace (step : σ → ι → σ → Prop) (start : σ) : List (σ × ι) → σ → Prop
  | nil : Trace step start [] start
  | snoc {past s i t} : Trace step start past s → step s i t →
      Trace step start (past ++ [(s, i)]) t

def Reachable (step : σ → ι → σ → Prop) (start s : σ) : Prop :=
  ∃ past, Trace step start past s

namespace Trace

variable {step : σ → ι → σ → Prop} {start s : σ} {past : List (σ × ι)}

-- Every state a run visits, its last one included, satisfies `P`.
def Always (P : σ → Prop) (past : List (σ × ι)) (s : σ) : Prop :=
  (∀ x ∈ past, P x.1) ∧ P s

-- Every step of a run was taken from a state that admits its label.
def Admits (ok : σ → ι → Prop) (past : List (σ × ι)) : Prop :=
  ∀ x ∈ past, ok x.1 x.2

theorem always_snoc {P : σ → Prop} {i : ι} {t : σ} :
    Always P (past ++ [(s, i)]) t ↔ Always P past s ∧ P t := by
  simp only [Always, List.forall_mem_append, List.forall_mem_singleton, and_assoc]

theorem start_of_always {P : σ → Prop} (h : Trace step start past s) (hall : Always P past s) :
    P start := by
  induction h with
  | nil => exact hall.2
  | snoc _ _ ih => exact ih (always_snoc.mp hall).1

theorem admits_nil {ok : σ → ι → Prop} : Admits ok ([] : List (σ × ι)) :=
  fun _ h => nomatch h

theorem admits_snoc {ok : σ → ι → Prop} {i : ι} :
    Admits ok (past ++ [(s, i)]) ↔ Admits ok past ∧ ok s i := by
  simp only [Admits, List.forall_mem_append, List.forall_mem_singleton]

theorem invariant {I : σ → Prop} (hinit : I start)
    (hstep : ∀ s i t, I s → step s i t → I t) (h : Trace step start past s) : I s := by
  induction h with
  | nil => exact hinit
  | snoc _ hs ih => exact hstep _ _ _ ih hs

-- The same with steps taken only where the label is admitted.
theorem invariant_of_admits {I : σ → Prop} {ok : σ → ι → Prop} (hinit : I start)
    (hstep : ∀ s i t, I s → ok s i → step s i t → I t)
    (h : Trace step start past s) (hok : Admits ok past) : I s := by
  induction h with
  | nil => exact hinit
  | snoc _ hs ih =>
      obtain ⟨hpast, hlast⟩ := admits_snoc.mp hok
      exact hstep _ _ _ (ih hpast) hlast hs

theorem always_of_admits {I P : σ → Prop} {ok : σ → ι → Prop} (hinit : I start)
    (hstep : ∀ s i t, I s → ok s i → step s i t → I t) (hP : ∀ s, I s → P s)
    (h : Trace step start past s) (hok : Admits ok past) : Always P past s := by
  induction h with
  | nil => exact ⟨by simp, hP _ hinit⟩
  | snoc h hs ih =>
      obtain ⟨hpast, hlast⟩ := admits_snoc.mp hok
      have hI := invariant_of_admits hinit hstep h hpast
      exact always_snoc.mpr ⟨ih hpast, hP _ (hstep _ _ _ hI hlast hs)⟩

-- The same for runs that end in a state which is `clean`, where no step mends
-- a state that is not.
theorem always_of_clean {I P clean : σ → Prop} {ok : σ → ι → Prop} (hinit : I start)
    (hback : ∀ s i t, step s i t → clean t → clean s)
    (hstep : ∀ s i t, I s → ok s i → step s i t → clean t → I t) (hP : ∀ s, I s → P s)
    (h : Trace step start past s) (hok : Admits ok past) (hclean : clean s) :
    Always P past s := by
  have hboth : I s ∧ Always P past s := by
    induction h with
    | nil => exact ⟨hinit, by simp, hP _ hinit⟩
    | snoc h hs ih =>
        obtain ⟨hpast, hlast⟩ := admits_snoc.mp hok
        obtain ⟨hI, hall⟩ := ih hpast (hback _ _ _ hs hclean)
        have hI' := hstep _ _ _ hI hlast hs hclean
        exact ⟨hI', always_snoc.mpr ⟨hall, hP _ hI'⟩⟩
  exact hboth.2

-- A property that one step keeps exactly where `ok` admits the label holds
-- throughout a run exactly when every step of the run is admitted. `I` is
-- what the steps keep as long as the property holds.
theorem always_iff_admits {I P : σ → Prop} {ok : σ → ι → Prop} (hinit : I start)
    (hP : P start) (hkeep : ∀ s i t, I s → P s → step s i t → P t → I t)
    (hexact : ∀ s i t, I s → P s → step s i t → (P t ↔ ok s i))
    (h : Trace step start past s) : Always P past s ↔ Admits ok past := by
  have hboth : (Always P past s ↔ Admits ok past) ∧ (Always P past s → I s) := by
    induction h with
    | nil => exact ⟨by simp [Always, Admits, hP], fun _ => hinit⟩
    | @snoc past s i t h hs ih =>
        obtain ⟨hiff, hI⟩ := ih
        constructor
        · rw [always_snoc, admits_snoc, hiff]
          constructor
          · rintro ⟨hok, ht⟩
            have hall := hiff.mpr hok
            exact ⟨hok, (hexact _ _ _ (hI hall) hall.2 hs).mp ht⟩
          · rintro ⟨hok, hi⟩
            have hall := hiff.mpr hok
            exact ⟨hok, (hexact _ _ _ (hI hall) hall.2 hs).mpr hi⟩
        · intro hall
          obtain ⟨hall, ht⟩ := always_snoc.mp hall
          exact hkeep _ _ _ (hI hall) hall.2 hs ht
  exact hboth.1

-- The same for runs in which every state has to satisfy `P` and every step `good`.
theorem always_and_admits_iff {I P : σ → Prop} {good ok : σ → ι → Prop} (hinit : I start)
    (hP : P start) (hkeep : ∀ s i t, I s → ok s i → step s i t → I t)
    (hexact : ∀ s i t, I s → step s i t → (P t ∧ good s i ↔ ok s i))
    (h : Trace step start past s) : Always P past s ∧ Admits good past ↔ Admits ok past := by
  induction h with
  | nil => exact ⟨fun _ => admits_nil, fun _ => ⟨⟨by simp, hP⟩, admits_nil⟩⟩
  | @snoc past s i t h hs ih =>
      rw [always_snoc, admits_snoc, admits_snoc, ← ih]
      constructor
      · rintro ⟨⟨hall, ht⟩, hgood, hi⟩
        have hI := invariant_of_admits hinit hkeep h (ih.mp ⟨hall, hgood⟩)
        exact ⟨⟨hall, hgood⟩, (hexact s i t hI hs).mp ⟨ht, hi⟩⟩
      · rintro ⟨⟨hall, hgood⟩, hi⟩
        have hI := invariant_of_admits hinit hkeep h (ih.mp ⟨hall, hgood⟩)
        obtain ⟨ht, hi⟩ := (hexact s i t hI hs).mpr hi
        exact ⟨⟨hall, ht⟩, hgood, hi⟩

-- The same for the labels only, and for a last one that may not lead to a step.
theorem admits_iff_admits {I : σ → Prop} {allowed good ok : σ → ι → Prop} {i : ι}
    (hinit : I start) (hkeep : ∀ s i t, I s → ok s i → step s i t → I t)
    (hallowed : ∀ s i t, step s i t → allowed s i)
    (hexact : ∀ s i, I s → allowed s i → (good s i ↔ ok s i))
    (h : Trace step start past s) (hi : allowed s i) :
    Admits good (past ++ [(s, i)]) ↔ Admits ok (past ++ [(s, i)]) := by
  induction h generalizing i with
  | nil =>
      rw [admits_snoc, admits_snoc, hexact start i hinit hi]
      simp only [admits_nil]
  | snoc h hs ih =>
      rw [admits_snoc, ih (hallowed _ _ _ hs)]
      refine (and_congr_right fun hok => ?_).trans admits_snoc.symm
      exact hexact _ i (invariant_of_admits hinit hkeep (h.snoc hs) hok) hi

-- The run of a function that takes steps.
theorem of_foldlM {ε : Type} {f : σ → ι → Except ε σ}
    (hf : ∀ s i t, f s i = .ok t → step s i t) (labels : List ι) {t : σ}
    (h : Trace step start past s) (hrun : labels.foldlM f s = .ok t) :
    ∃ later, Trace step start (past ++ later) t ∧ later.map Prod.snd = labels := by
  induction labels generalizing past s with
  | nil =>
      cases hrun
      exact ⟨[], by simpa using h, rfl⟩
  | cons i labels ih =>
      rw [List.foldlM_cons] at hrun
      cases hi : f s i with
      | error e =>
          rw [hi] at hrun
          cases hrun
      | ok u =>
          rw [hi] at hrun
          obtain ⟨later, hlater, hlabels⟩ := ih (h.snoc (hf s i u hi)) hrun
          refine ⟨(s, i) :: later, ?_, ?_⟩
          · simpa only [List.append_assoc, List.singleton_append] using hlater
          · rw [List.map_cons, hlabels]

-- A run of steps that are each admitted.
theorem and_admits {ok : σ → ι → Prop} (h : Trace (fun s i t => ok s i ∧ step s i t) start past s) :
    Trace step start past s ∧ Admits ok past := by
  induction h with
  | nil => exact ⟨.nil, admits_nil⟩
  | snoc _ hs ih => exact ⟨ih.1.snoc hs.2, admits_snoc.mpr ⟨ih.2, hs.1⟩⟩

end Trace

theorem Reachable.invariant {step : σ → ι → σ → Prop} {start s : σ} {I : σ → Prop}
    (hinit : I start) (hstep : ∀ s i t, I s → step s i t → I t)
    (h : Reachable step start s) : I s := by
  obtain ⟨past, h⟩ := h
  exact h.invariant hinit hstep

end Verif
