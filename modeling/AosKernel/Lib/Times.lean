import Mathlib.Algebra.Group.Nat.Defs
import Mathlib.Logic.Basic

namespace Verif

variable {ε σ : Type} {step : Nat → σ → Except ε σ} {n : Nat} {s : σ} {e : ε}

-- A loop over 0, .., n - 1 that ends early if one of its steps does.
def times (step : Nat → σ → Except ε σ) : Nat → σ → Except ε σ
  | 0, s => .ok s
  | n + 1, s => do
      let s ← times step n s
      step n s

theorem times_succ_ok {t : σ} (h : times step n s = .ok t) : times step (n + 1) s = step n t := by
  rw [times, h]
  rfl

theorem times_ok (I : σ → Prop)
    (hstep : ∀ k < n, ∀ s, I s → ∃ t, step k s = .ok t ∧ I t) (hs : I s) :
    ∃ t, times step n s = .ok t ∧ I t := by
  induction n with
  | zero => exact ⟨s, rfl, hs⟩
  | succ n ih =>
      obtain ⟨t, ht, hI⟩ := ih fun k hk => hstep k (Nat.lt_succ_of_lt hk)
      rw [times_succ_ok ht]
      exact hstep n (Nat.lt_succ_self n) t hI

-- Where every step either keeps `I` or stops with `e`, the loop stops if one of them does.
theorem times_error_iff (I : σ → Prop) (fine : Nat → Prop) (hs : I s)
    (hfine : ∀ k < n, fine k → ∀ s, I s → ∃ t, step k s = .ok t ∧ I t)
    (hstop : ∀ k < n, ¬ fine k → ∀ s, I s → step k s = .error e) :
    times step n s = .error e ↔ ∃ k < n, ¬ fine k := by
  induction n with
  | zero => exact ⟨fun h => (nomatch h), fun ⟨k, hk, _⟩ => absurd hk (Nat.not_lt_zero k)⟩
  | succ n ih =>
      have hrest := ih (fun k hk => hfine k (Nat.lt_succ_of_lt hk))
        (fun k hk => hstop k (Nat.lt_succ_of_lt hk))
      by_cases hall : ∀ k < n, fine k
      · obtain ⟨t, ht, hI⟩ := times_ok I
          (fun k hk => hfine k (Nat.lt_succ_of_lt hk) (hall k hk)) hs
        rw [times_succ_ok ht]
        by_cases hlast : fine n
        · obtain ⟨u, hu, -⟩ := hfine n (Nat.lt_succ_self n) hlast t hI
          rw [hu]
          refine iff_of_false (fun h => nomatch h) ?_
          rintro ⟨k, hk, hbad⟩
          rcases Nat.lt_succ_iff_lt_or_eq.mp hk with hk | rfl
          · exact hbad (hall k hk)
          · exact hbad hlast
        · exact iff_of_true (hstop n (Nat.lt_succ_self n) hlast t hI) ⟨n, Nat.lt_succ_self n, hlast⟩
      · simp only [not_forall] at hall
        obtain ⟨k, hk, hbad⟩ := hall
        rw [times, hrest.mpr ⟨k, hk, hbad⟩]
        exact iff_of_true rfl ⟨k, Nat.lt_succ_of_lt hk, hbad⟩

end Verif
