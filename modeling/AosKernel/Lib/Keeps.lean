import Mathlib.Order.Defs.Unbundled
import AosKernel.Lib.Exec

namespace Verif

variable {ε σ α β : Type}

-- Code that starts where `I` holds ends where it holds, or stops for a reason
-- in `E`.
def Maintains (I : σ → Prop) (E : ε → Prop) (m : Exec ε σ α) : Prop :=
  ∀ s, I s → Exec.Sat m s (fun _ t => I t) E

namespace Maintains

variable {I : σ → Prop} {E : ε → Prop}

theorem pure (a : α) : Maintains I E (Pure.pure a : Exec ε σ α) :=
  fun _ hs => hs

theorem throw {e : ε} (h : E e) : Maintains I E (MonadExcept.throw e : Exec ε σ α) :=
  fun _ _ => h

theorem modify {f : σ → σ} (h : ∀ s, I s → I (f s)) :
    Maintains I E (modify f : Exec ε σ PUnit) :=
  h

theorem bind {m : Exec ε σ α} {f : α → Exec ε σ β} (hm : Maintains I E m)
    (hf : ∀ a, Maintains I E (f a)) : Maintains I E (m >>= f) :=
  fun s hs => Exec.Sat.bind (hm s hs) fun a t ht => hf a t ht

-- What is read is a state with `I`.
theorem get_bind {f : σ → Exec ε σ β} (hf : ∀ s, I s → Exec.Sat (f s) s (fun _ t => I t) E) :
    Maintains I E (MonadState.get >>= f) :=
  fun s hs => (Exec.sat_bind _ _ _ _ _).mpr (hf s hs)

theorem ite {c : Prop} [Decidable c] {m n : Exec ε σ α} (hm : Maintains I E m)
    (hn : Maintains I E n) : Maintains I E (if c then m else n) := by
  split
  · exact hm
  · exact hn

end Maintains

-- Whenever `m` returns, the state has moved along the preorder `R`.
def Keeps (R : σ → σ → Prop) (m : Exec ε σ α) : Prop :=
  ∀ s, Exec.Sat m s (fun _ t => R s t) fun _ => True

namespace Keeps

variable {R : σ → σ → Prop} [IsPreorder σ R]

theorem pure (a : α) : Keeps R (Pure.pure a : Exec ε σ α) :=
  fun s => Std.Refl.refl (r := R) s

theorem get : Keeps R (MonadState.get : Exec ε σ σ) :=
  fun s => Std.Refl.refl (r := R) s

omit [IsPreorder σ R] in
theorem throw (e : ε) : Keeps R (MonadExcept.throw e : Exec ε σ α) :=
  fun _ => trivial

omit [IsPreorder σ R] in
theorem modify {f : σ → σ} (h : ∀ s, R s (f s)) :
    Keeps R (modify f : Exec ε σ PUnit) :=
  h

theorem bind {m : Exec ε σ α} {f : α → Exec ε σ β} (hm : Keeps R m) (hf : ∀ a, Keeps R (f a)) :
    Keeps R (m >>= f) :=
  fun s => Exec.Sat.bind (hm s) fun a t ht => (hf a t).imp fun _ u hu =>
    IsTrans.trans s t u ht hu

-- Reading the state commits to nothing.
theorem get_bind {f : σ → Exec ε σ β} (hf : ∀ s, Keeps R (f s)) :
    Keeps R (MonadState.get >>= f) :=
  bind get hf

omit [IsPreorder σ R] in
theorem ite {c : Prop} [Decidable c] {m n : Exec ε σ α} (hm : Keeps R m) (hn : Keeps R n) :
    Keeps R (if c then m else n) := by
  split
  · exact hm
  · exact hn

-- A move along `R` keeps what can be reached from a state.
theorem iff_maintains {m : Exec ε σ α} :
    Keeps R m ↔ ∀ s, Maintains (R s) (fun _ => True) m := by
  constructor
  · intro h s t hst
    exact (h t).imp fun _ u htu => IsTrans.trans s t u hst htu
  · intro h s
    exact h s s (Std.Refl.refl (r := R) s)

omit [IsPreorder σ R] in
theorem returns {m : Exec ε σ α} {s t : σ} {a : α} (h : Keeps R m) (hr : Exec.Returns m s a t) :
    R s t :=
  (h s).of_returns hr

end Keeps

end Verif
