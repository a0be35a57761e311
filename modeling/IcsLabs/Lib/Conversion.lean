import Mathlib.Algebra.Ring.Int.Defs
import Mathlib.Algebra.Ring.Nat

namespace Libc

-- an integer as an int and as a size_t, and the operations of int
def toInt (n : Int) : Int := (BitVec.ofInt 32 n).toInt
def toSizeT (n : Int) : Nat := (n % 2 ^ 64).toNat
def intAdd (a b : Int) : Int := toInt (a + b)
def intSub (a b : Int) : Int := toInt (a - b)
def intMul (a b : Int) : Int := toInt (a * b)

theorem toInt_bmod (n : Int) : toInt n = n.bmod (2 ^ 32) := BitVec.toInt_ofInt n

theorem toInt_eq {n : Nat} (hn : n < 2 ^ 31) : toInt n = n := by
  rw [toInt_bmod,Int.bmod_eq_of_le (by omega) (by omega)]

theorem toInt_neg {n : Nat} (h1 : 2 ^ 31 ≤ n) (h2 : n < 2 ^ 32) : toInt n < 0 := by
  rw [toInt_bmod,Int.bmod]
  omega

theorem toInt_mod (n : Nat) : toInt n = toInt (n % 2 ^ 32 : Nat) := by
  rw [toInt_bmod,toInt_bmod,Int.natCast_emod]
  exact (Int.emod_bmod _ _).symm

theorem toSizeT_eq {n : Int} (h0 : 0 ≤ n) (hn : n < 2 ^ 64) : toSizeT n = n.toNat := by
  rw [toSizeT,Int.emod_eq_of_lt h0 hn]

end Libc
