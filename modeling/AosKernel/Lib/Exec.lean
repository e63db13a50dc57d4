import Mathlib.Algebra.Group.Nat.Defs
import Mathlib.Logic.Basic

namespace Verif

variable {ε σ α β : Type}

-- Sequential code over a state `σ` that either returns or stops for good
-- with a reason of type `ε`.
abbrev Exec (ε σ α : Type) := StateT σ (Except ε) α

namespace Exec

-- Running `m` from `s` ends in a state and value satisfying `Q`, or stops
-- with a reason satisfying `E`.
def Sat (m : Exec ε σ α) (s : σ) (Q : α → σ → Prop) (E : ε → Prop) : Prop :=
  match m.run s with
  | .ok (a, t) => Q a t
  | .error e => E e

-- `m` returns `a` from `s` and leaves `t`.
def Returns (m : Exec ε σ α) (s : σ) (a : α) (t : σ) : Prop :=
  m.run s = .ok (a, t)

-- `m` stops from `s` with the reason `e`.
def Stops (m : Exec ε σ α) (s : σ) (e : ε) : Prop :=
  m.run s = .error e

@[simp] theorem sat_pure (a : α) (s : σ) (Q : α → σ → Prop) (E : ε → Prop) :
    Sat (pure a : Exec ε σ α) s Q E ↔ Q a s :=
  Iff.rfl

@[simp] theorem sat_get (s : σ) (Q : σ → σ → Prop) (E : ε → Prop) :
    Sat (get : Exec ε σ σ) s Q E ↔ Q s s :=
  Iff.rfl

@[simp] theorem sat_set (s t : σ) (Q : PUnit → σ → Prop) (E : ε → Prop) :
    Sat (set t : Exec ε σ PUnit) s Q E ↔ Q ⟨⟩ t :=
  Iff.rfl

@[simp] theorem sat_modify (f : σ → σ) (s : σ) (Q : PUnit → σ → Prop) (E : ε → Prop) :
    Sat (modify f : Exec ε σ PUnit) s Q E ↔ Q ⟨⟩ (f s) :=
  Iff.rfl

@[simp] theorem sat_throw (e : ε) (s : σ) (Q : α → σ → Prop) (E : ε → Prop) :
    Sat (throw e : Exec ε σ α) s Q E ↔ E e :=
  Iff.rfl

@[simp] theorem sat_bind (m : Exec ε σ α) (f : α → Exec ε σ β) (s : σ)
    (Q : β → σ → Prop) (E : ε → Prop) :
    Sat (m >>= f) s Q E ↔ Sat m s (fun a t => Sat (f a) t Q E) E := by
  simp only [Sat, StateT.run_bind]
  cases m.run s with
  | error e => rfl
  | ok r => rfl

theorem sat_ite (c : Prop) [Decidable c] (m n : Exec ε σ α) (s : σ)
    (Q : α → σ → Prop) (E : ε → Prop) :
    Sat (if c then m else n) s Q E ↔ (c → Sat m s Q E) ∧ (¬c → Sat n s Q E) := by
  split <;> simp_all

theorem Sat.ite {c : Prop} [Decidable c] {m n : Exec ε σ α} {s : σ} {Q : α → σ → Prop}
    {E : ε → Prop} (hm : c → Sat m s Q E) (hn : ¬c → Sat n s Q E) :
    Sat (if c then m else n) s Q E :=
  (sat_ite c m n s Q E).mpr ⟨hm, hn⟩

theorem Sat.mono {m : Exec ε σ α} {s : σ} {Q Q' : α → σ → Prop} {E E' : ε → Prop}
    (h : Sat m s Q E) (hQ : ∀ a t, Q a t → Q' a t) (hE : ∀ e, E e → E' e) :
    Sat m s Q' E' := by
  unfold Sat at *
  split at h
  · exact hQ _ _ h
  · exact hE _ h

-- Consequence with the reasons for stopping left as they are.
theorem Sat.imp {m : Exec ε σ α} {s : σ} {Q Q' : α → σ → Prop} {E : ε → Prop}
    (h : Sat m s Q E) (hQ : ∀ a t, Q a t → Q' a t) : Sat m s Q' E :=
  h.mono hQ fun _ he => he

theorem Sat.and {m : Exec ε σ α} {s : σ} {Q Q' : α → σ → Prop} {E : ε → Prop}
    (h : Sat m s Q E) (h' : Sat m s Q' fun _ => True) :
    Sat m s (fun a t => Q a t ∧ Q' a t) E := by
  unfold Sat at *
  split at h
  · rename_i heq
    rw [heq] at h'
    exact ⟨h, h'⟩
  · exact h

-- Sequencing two specifications.
theorem Sat.bind {m : Exec ε σ α} {f : α → Exec ε σ β} {s : σ}
    {R : α → σ → Prop} {Q : β → σ → Prop} {E : ε → Prop}
    (hm : Sat m s R E) (hf : ∀ a t, R a t → Sat (f a) t Q E) : Sat (m >>= f) s Q E :=
  (sat_bind m f s Q E).mpr (hm.imp hf)

theorem Sat.of_returns {m : Exec ε σ α} {s t : σ} {a : α} {Q : α → σ → Prop} {E : ε → Prop}
    (h : Sat m s Q E) (hr : Returns m s a t) : Q a t := by
  unfold Sat at h
  rw [show m.run s = .ok (a, t) from hr] at h
  exact h

theorem Sat.of_stops {m : Exec ε σ α} {s : σ} {e : ε} {Q : α → σ → Prop} {E : ε → Prop}
    (h : Sat m s Q E) (hr : Stops m s e) : E e := by
  unfold Sat at h
  rw [show m.run s = .error e from hr] at h
  exact h

theorem Sat.returns_or_stops {m : Exec ε σ α} {s : σ} {Q : α → σ → Prop} {E : ε → Prop}
    (h : Sat m s Q E) : (∃ a t, Returns m s a t ∧ Q a t) ∨ ∃ e, Stops m s e ∧ E e := by
  unfold Sat at h
  split at h
  · exact .inl ⟨_, _, ‹_›, h⟩
  · exact .inr ⟨_, ‹_›, h⟩

theorem Returns.sat {m : Exec ε σ α} {s t : σ} {a : α} {Q : α → σ → Prop} {E : ε → Prop}
    (hr : Returns m s a t) (hQ : Q a t) : Sat m s Q E := by
  unfold Sat
  rw [show m.run s = .ok (a, t) from hr]
  exact hQ

theorem sat_of_forall_returns {m : Exec ε σ α} {s : σ} {Q : α → σ → Prop}
    (h : ∀ a t, Returns m s a t → Q a t) : Sat m s Q fun _ => True := by
  unfold Sat
  split
  · exact h _ _ ‹_›
  · trivial

@[simp] theorem returns_pure {a b : α} {s t : σ} :
    Returns (pure a : Exec ε σ α) s b t ↔ a = b ∧ s = t := by
  have hrun : (pure a : Exec ε σ α).run s = .ok (a, s) := rfl
  rw [Returns, hrun, Except.ok.injEq, Prod.mk.injEq]

@[simp] theorem returns_get {s t u : σ} :
    Returns (get : Exec ε σ σ) s t u ↔ s = t ∧ s = u := by
  simp [Returns, get, getThe, MonadStateOf.get, StateT.get, StateT.run, pure, Except.pure]

theorem returns_bind {m : Exec ε σ α} {f : α → Exec ε σ β} {s u : σ} {b : β} :
    Returns (m >>= f) s b u ↔ ∃ a t, Returns m s a t ∧ Returns (f a) t b u := by
  simp only [Returns, StateT.run_bind]
  cases hm : m.run s with
  | error e => simp [bind, Except.bind]
  | ok r =>
      obtain ⟨a, t⟩ := r
      simp only [bind, Except.bind, Except.ok.injEq, Prod.mk.injEq]
      constructor
      · intro h
        exact ⟨a, t, ⟨rfl, rfl⟩, h⟩
      · rintro ⟨_, _, ⟨rfl, rfl⟩, h⟩
        exact h

theorem stops_bind {m : Exec ε σ α} {f : α → Exec ε σ β} {s : σ} {e : ε} :
    Stops (m >>= f) s e ↔ Stops m s e ∨ ∃ a t, Returns m s a t ∧ Stops (f a) t e := by
  simp only [Stops, Returns, StateT.run_bind]
  cases hm : m.run s with
  | error e => simp [bind, Except.bind]
  | ok r =>
      obtain ⟨a, t⟩ := r
      simp only [bind, Except.bind, reduceCtorEq, Except.ok.injEq, Prod.mk.injEq, false_or]
      constructor
      · intro h
        exact ⟨a, t, ⟨rfl, rfl⟩, h⟩
      · rintro ⟨_, _, ⟨rfl, rfl⟩, h⟩
        exact h

theorem returns_unique {m : Exec ε σ α} {s t t' : σ} {a a' : α} (h : Returns m s a t)
    (h' : Returns m s a' t') : a = a' ∧ t = t' := by
  have hsame := Except.ok.inj (h.symm.trans h')
  exact ⟨congrArg Prod.fst hsame, congrArg Prod.snd hsame⟩

theorem Stops.not_returns {m : Exec ε σ α} {s t : σ} {a : α} {e : ε} (h : Stops m s e) :
    ¬ Returns m s a t := fun hret => by
  cases h.symm.trans hret

-- The value a run returns, for runs on given states.
def value (m : Exec ε σ α) (s : σ) : Option α :=
  match m.run s with
  | .ok (a, _) => some a
  | .error _ => none

theorem returns_of_value {m : Exec ε σ α} {s : σ} {a : α} (h : m.value s = some a) :
    ∃ t, Returns m s a t := by
  unfold value at h
  split at h
  · rename_i b t heq
    cases h
    exact ⟨t, heq⟩
  · cases h

end Exec

end Verif
