import AosKernel.Lib.Copy

namespace Verif

-- What the x86 string moves work on: the registers RDI, RSI and RCX, the
-- direction flag and the memory.
structure StringMove (α : Type) where
  rdi : Nat
  rsi : Nat
  rcx : Nat
  df : Bool
  mem : Nat → α

namespace StringMove

variable {α : Type} {a b n : Nat} {s : StringMove α}

def cld (s : StringMove α) : StringMove α := { s with df := false }

def std (s : StringMove α) : StringMove α := { s with df := true }

-- With the flag set the address registers go down.
def advance (df : Bool) (address : Nat) : Nat :=
  if df then if address = 0 then 2 ^ 64 - 1 else address - 1
  else (address + 1) % 2 ^ 64

def movsb (s : StringMove α) : StringMove α :=
  { s with
    rdi := advance s.df s.rdi
    rsi := advance s.df s.rsi
    mem := Function.update s.mem s.rdi (s.mem s.rsi) }

def repeatMovsb : Nat → StringMove α → StringMove α
  | 0, s => s
  | n + 1, s => repeatMovsb n { s.movsb with rcx := n }

def repMovsb (s : StringMove α) : StringMove α := repeatMovsb s.rcx s

-- The registers are stated modulo 2^64 since they may end one past the last address.
theorem repeatMovsb_up (hdf : s.df = false) (hrcx : s.rcx = n) (hrdi : s.rdi = a % 2 ^ 64)
    (hrsi : s.rsi = b % 2 ^ 64) (ha : a + n ≤ 2 ^ 64) (hb : b + n ≤ 2 ^ 64) :
    repeatMovsb n s =
      ⟨(a + n) % 2 ^ 64, (b + n) % 2 ^ 64, 0, false, copyUp s.mem a b n⟩ := by
  induction n generalizing s a b with
  | zero =>
      rw [repeatMovsb, copyUp, Nat.add_zero, Nat.add_zero, ← hrdi, ← hrsi, ← hrcx, ← hdf]
  | succ n ih =>
      have hat : s.rdi = a := by rw [hrdi, Nat.mod_eq_of_lt (by omega)]
      have hfrom : s.rsi = b := by rw [hrsi, Nat.mod_eq_of_lt (by omega)]
      have hnext (x : Nat) : advance s.df x = (x + 1) % 2 ^ 64 := by rw [advance, hdf]; rfl
      rw [repeatMovsb, copyUp,
        ih (s := { s.movsb with rcx := n }) (a := a + 1) (b := b + 1) hdf rfl]
      · rw [Nat.add_right_comm, Nat.add_right_comm b, movsb, hat, hfrom]
        rfl
      · show advance s.df s.rdi = _
        rw [hat, hnext]
      · show advance s.df s.rsi = _
        rw [hfrom, hnext]
      · omega
      · omega

theorem repeatMovsb_down (hdf : s.df = true) (hrcx : s.rcx = n) (hrdi : s.rdi = a + n - 1)
    (hrsi : s.rsi = b + n - 1) (ha : 0 < a) (hb : 0 < b) :
    repeatMovsb n s = ⟨a - 1, b - 1, 0, true, copyDown s.mem a b n⟩ := by
  induction n generalizing s with
  | zero =>
      rw [Nat.add_zero] at hrdi hrsi
      rw [repeatMovsb, copyDown, ← hrdi, ← hrsi, ← hrcx, ← hdf]
  | succ n ih =>
      have hat : s.rdi = a + n := hrdi
      have hfrom : s.rsi = b + n := hrsi
      have hnext {x : Nat} (hx : 0 < x) : advance s.df x = x - 1 := by
        rw [advance, hdf, if_pos rfl, if_neg (Nat.ne_of_gt hx)]
      rw [repeatMovsb, copyDown, ih (s := { s.movsb with rcx := n }) hdf rfl]
      · rw [movsb, hat, hfrom]
      · show advance s.df s.rdi = _
        rw [hat, hnext (Nat.add_pos_left ha n)]
      · show advance s.df s.rsi = _
        rw [hfrom, hnext (Nat.add_pos_left hb n)]

end StringMove

end Verif
