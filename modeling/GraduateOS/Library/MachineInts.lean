import Mathlib.Algebra.Group.Int.Defs
import Mathlib.Algebra.Group.Nat.Defs

namespace GraduateOS.Library.MachineInts

def toInt32 (x : Int) : Int := Int.bmod x (2 ^ 32)

def toInt64 (x : Int) : Int := Int.bmod x (2 ^ 64)

def toUInt64 (x : Int) : Nat := (x % 2 ^ 64).toNat

theorem toInt32_eq {x : Int} (h0 : -2 ^ 31 ≤ x) (h1 : x < 2 ^ 31) : toInt32 x = x :=
  Int.bmod_eq_of_le (by omega) (by omega)

theorem toUInt64_eq {x : Int} (h0 : 0 ≤ x) (h1 : x < 2 ^ 64) : toUInt64 x = x.toNat := by
  rw [toUInt64, Int.emod_eq_of_lt h0 h1]

end GraduateOS.Library.MachineInts
