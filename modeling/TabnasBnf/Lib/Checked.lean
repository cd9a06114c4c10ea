import Mathlib.Algebra.GroupWithZero.Nat
import Mathlib.Order.Basic

/-!
# Checked arithmetic

The operations on unsigned integers of `w` bits that panic out of range: `none` is the panic. A
program is free of them where its checked form is `some` of the exact one (`ExceptT.bind_eq_some`
puts two such steps together).
-/

namespace Checked

/-- `a + b`, which may overflow. -/
def add (w a b : Nat) : Option Nat := if a + b < 2 ^ w then some (a + b) else none

/-- `a - b`, which may underflow. -/
def sub (a b : Nat) : Option Nat := if b ≤ a then some (a - b) else none

/-- `a * b`, which may overflow. -/
def mul (w a b : Nat) : Option Nat := if a * b < 2 ^ w then some (a * b) else none

variable {w a b : Nat}

theorem add_eq (h : a + b < 2 ^ w) : add w a b = some (a + b) := if_pos h

theorem sub_eq (h : b ≤ a) : sub a b = some (a - b) := if_pos h

theorem mul_eq (h : a * b < 2 ^ w) : mul w a b = some (a * b) := if_pos h

/-- What has at least 16 bits holds small numbers. -/
theorem lt_of_sixteen (hw : 16 ≤ w) (h : a < 65536) : a < 2 ^ w :=
  Nat.lt_of_lt_of_le h (Nat.pow_le_pow_right Nat.two_pos hw)

/-- Two steps that do not panic. -/
theorem bind_eq_some {ε α β : Type} {x : ExceptT ε Option α} {f : α → ExceptT ε Option β}
    {r : Except ε α} {g : α → Except ε β} (hx : x = some r)
    (hf : ∀ a, r = .ok a → f a = some (g a)) : (x >>= f) = some (r >>= g) := by
  subst hx
  cases r with
  | error e => rfl
  | ok a => exact hf a rfl

end Checked
