import Mathlib.Data.Nat.Basic
import Mathlib.Tactic.Ring

namespace Bytes

abbrev Byte := BitVec 8

def readLE (m : Nat → Byte) (a : Nat) : Nat → Nat
  | 0 => 0
  | n + 1 => (m a).toNat + 256 * readLE m (a + 1) n

def writeLE (m : Nat → Byte) (a n v : Nat) : Nat → Byte :=
  fun x => if a ≤ x ∧ x < a + n then BitVec.ofNat 8 (v / 256 ^ (x - a)) else m x

def copy (m : Nat → Byte) (dst src n : Nat) : Nat → Byte :=
  fun x => if dst ≤ x ∧ x < dst + n then m (src + (x - dst)) else m x

theorem readLE_lt (m : Nat → Byte) (a n : Nat) : readLE m a n < 256 ^ n := by
  induction n generalizing a with
  | zero => simp [readLE]
  | succ n ih =>
    have hb := (m a).isLt
    have ht := ih (a + 1)
    rw [readLE, Nat.pow_succ]
    omega

theorem readLE_congr {m m' : Nat → Byte} {a b n : Nat}
    (h : ∀ i, i < n → m (a + i) = m' (b + i)) : readLE m a n = readLE m' b n := by
  induction n generalizing a b with
  | zero => rfl
  | succ n ih =>
    have h0 : m a = m' b := by simpa using h 0 (by omega)
    have hs : readLE m (a + 1) n = readLE m' (b + 1) n := by
      refine ih fun i hi => ?_
      have := h (i + 1) (by omega)
      rwa [show a + (i + 1) = a + 1 + i by omega, show b + (i + 1) = b + 1 + i by omega] at this
    rw [readLE, readLE, h0, hs]

theorem writeLE_outside {m : Nat → Byte} {a n v x : Nat} (h : x < a ∨ a + n ≤ x) :
    writeLE m a n v x = m x := by
  rw [writeLE, if_neg (by omega)]

theorem writeLE_inside {m : Nat → Byte} {a n v i : Nat} (h : i < n) :
    writeLE m a n v (a + i) = BitVec.ofNat 8 (v / 256 ^ i) := by
  rw [writeLE, if_pos (by omega), Nat.add_sub_cancel_left]

theorem copy_outside {m : Nat → Byte} {dst src n x : Nat} (h : x < dst ∨ dst + n ≤ x) :
    copy m dst src n x = m x := by
  rw [copy, if_neg (by omega)]

theorem copy_inside {m : Nat → Byte} {dst src n i : Nat} (h : i < n) :
    copy m dst src n (dst + i) = m (src + i) := by
  rw [copy, if_pos (by omega), Nat.add_sub_cancel_left]

theorem readLE_of_digits {m : Nat → Byte} {a n v : Nat}
    (h : ∀ i, i < n → m (a + i) = BitVec.ofNat 8 (v / 256 ^ i)) :
    readLE m a n = v % 256 ^ n := by
  induction n generalizing a v with
  | zero => simp [readLE, Nat.mod_one]
  | succ n ih =>
    have h0 : m a = BitVec.ofNat 8 v := by simpa using h 0 (by omega)
    have hs : readLE m (a + 1) n = v / 256 % 256 ^ n := by
      refine ih fun i hi => ?_
      have := h (i + 1) (by omega)
      rwa [show a + (i + 1) = a + 1 + i by omega, Nat.pow_succ', ← Nat.div_div_eq_div_mul] at this
    have hv : v % 256 ^ (n + 1) = v % 256 + 256 * (v / 256 % 256 ^ n) := by
      rw [Nat.pow_succ', Nat.mod_mul]
    rw [readLE, h0, hs, BitVec.toNat_ofNat, hv]

theorem readLE_digit (m : Nat → Byte) {a n i : Nat} (h : i < n) :
    BitVec.ofNat 8 (readLE m a n / 256 ^ i) = m (a + i) := by
  induction n generalizing a i with
  | zero => omega
  | succ n ih =>
    have hb := (m a).isLt
    refine BitVec.eq_of_toNat_eq ?_
    rw [readLE, BitVec.toNat_ofNat]
    cases i with
    | zero =>
      rw [Nat.pow_zero, Nat.div_one, show a + 0 = a from rfl]
      omega
    | succ i =>
      have hd : ((m a).toNat + 256 * readLE m (a + 1) n) / 256 = readLE m (a + 1) n := by omega
      rw [Nat.pow_succ', ← Nat.div_div_eq_div_mul, hd, ← BitVec.toNat_ofNat, ih (by omega),
        show a + 1 + i = a + (i + 1) by omega]

theorem readLE_writeLE_same (m : Nat → Byte) (a n v : Nat) :
    readLE (writeLE m a n v) a n = v % 256 ^ n :=
  readLE_of_digits fun _ hi => writeLE_inside hi

theorem readLE_writeLE_disjoint {m : Nat → Byte} {a n v b k : Nat}
    (h : b + k ≤ a ∨ a + n ≤ b) : readLE (writeLE m a n v) b k = readLE m b k :=
  readLE_congr fun i hi => writeLE_outside (by omega)

theorem readLE_copy_same {m : Nat → Byte} {dst src n i k : Nat} (h : i + k ≤ n) :
    readLE (copy m dst src n) (dst + i) k = readLE m (src + i) k := by
  refine readLE_congr fun j hj => ?_
  rw [Nat.add_assoc, copy_inside (by omega), Nat.add_assoc]

theorem readLE_copy_disjoint {m : Nat → Byte} {dst src n b k : Nat}
    (h : b + k ≤ dst ∨ dst + n ≤ b) : readLE (copy m dst src n) b k = readLE m b k :=
  readLE_congr fun i hi => copy_outside (by omega)

end Bytes
