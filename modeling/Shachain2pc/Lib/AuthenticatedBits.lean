import Mathlib.Algebra.Field.ZMod
import Mathlib.Algebra.Module.ZMod
import Mathlib.Algebra.Module.LinearMap.Defs
import Mathlib.Tactic.Module

/-!
# Authenticated bits

Two parties share a bit and authenticate it to each other. The vectors form a module over
the two-element field, and a linear functional reads a party's share bit off its MAC. A
party's MAC is the peer's key, offset by the peer's global Delta where the share bit is
set. Shares are closed under addition, which adds the shared bits.
-/

namespace AuthenticatedBits

variable {V : Type*} [AddCommGroup V] [Module (ZMod 2) V]

/-- One party's part of an authenticated bit: its own MAC and its key for the peer's MAC. -/
structure Share (V : Type*) where
  mac : V
  key : V

/-- Shares are added componentwise. -/
def Share.add (a b : Share V) : Share V := ⟨a.mac + b.mac, a.key + b.key⟩

/-- The two parts of an authenticated bit belong together, and neither key carries a bit. -/
structure Authenticated (bit : V →ₗ[ZMod 2] ZMod 2) (deltaA deltaB : V) (a b : Share V) : Prop where
  mac_left : a.mac = b.key + bit a.mac • deltaB
  mac_right : b.mac = a.key + bit b.mac • deltaA
  key_left : bit a.key = 0
  key_right : bit b.key = 0

variable {bit : V →ₗ[ZMod 2] ZMod 2} {deltaA deltaB : V} {a b c d : Share V}

/-- A vector added twice cancels. -/
theorem add_add_cancel_self (v w : V) : v + (v + w) = w := by
  rw [← add_assoc, ZModModule.add_self, zero_add]

/-- The parties of an authenticated bit may be exchanged. -/
theorem Authenticated.symm (h : Authenticated bit deltaA deltaB a b) :
    Authenticated bit deltaB deltaA b a :=
  ⟨h.mac_right, h.mac_left, h.key_right, h.key_left⟩

/-- A sum of authenticated bits is authenticated. -/
theorem Authenticated.add (h : Authenticated bit deltaA deltaB a b)
    (h' : Authenticated bit deltaA deltaB c d) :
    Authenticated bit deltaA deltaB (a.add c) (b.add d) where
  mac_left := by
    change a.mac + c.mac = b.key + d.key + bit (a.mac + c.mac) • deltaB
    rw [map_add, add_smul, add_add_add_comm, ← h.mac_left, ← h'.mac_left]
  mac_right := by
    change b.mac + d.mac = a.key + c.key + bit (b.mac + d.mac) • deltaA
    rw [map_add, add_smul, add_add_add_comm, ← h.mac_right, ← h'.mac_right]
  key_left := by
    change bit (a.key + c.key) = 0
    rw [map_add, h.key_left, h'.key_left, add_zero]
  key_right := by
    change bit (b.key + d.key) = 0
    rw [map_add, h.key_right, h'.key_right, add_zero]

end AuthenticatedBits
