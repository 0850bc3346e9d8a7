import GraduateOS.Library.CStrings
import Mathlib.Algebra.Group.Nat.Defs

namespace GraduateOS.Library.Words

open CStrings

/-- The bytes of a 32-bit word, the lowest first. -/
def wordBytes (n : Nat) : Memory :=
  [UInt8.ofNat n, UInt8.ofNat (n / 2 ^ 8), UInt8.ofNat (n / 2 ^ 16), UInt8.ofNat (n / 2 ^ 24)]

def readWord : Memory → Option (Nat × Memory)
  | a :: b :: c :: d :: rest =>
      some (a.toNat + 2 ^ 8 * b.toNat + 2 ^ 16 * c.toNat + 2 ^ 24 * d.toNat, rest)
  | _ => none

theorem readWord_correct {n : Nat} (hn : n < 2 ^ 32) (rest : Memory) :
    readWord (wordBytes n ++ rest) = some (n, rest) := by
  simp only [wordBytes, List.cons_append, List.nil_append, readWord, UInt8.toNat_ofNat']
  congr 2
  omega

end GraduateOS.Library.Words
