import Mathlib.Algebra.Ring.Nat

namespace Popcount

variable {a b k m y : Nat}

theorem and_split (y m : Nat) (ha : a < 2 ^ k) :
    y &&& (2 ^ k * m + a) = 2 ^ k * ((y / 2 ^ k) &&& m) + (y &&& a) := by
  refine Nat.eq_of_testBit_eq fun j => ?_
  rw [Nat.testBit_and,Nat.testBit_two_pow_mul_add m ha,
    Nat.testBit_two_pow_mul_add _ (Nat.and_lt_two_pow y ha)]
  by_cases hj : j < k
  · rw [if_pos hj,if_pos hj,Nat.testBit_and]
  · rw [if_neg hj,if_neg hj,Nat.testBit_and,Nat.testBit_div_two_pow,Nat.sub_add_cancel (by omega)]

-- the ones among the first k bits
def ones : Nat → Nat → Nat
  | 0, _ => 0
  | k + 1, n => n % 2 + ones k (n / 2)

theorem ones_add (a b n : Nat) : ones (a + b) n = ones a n + ones b (n / 2 ^ a) := by
  induction a generalizing n with
  | zero => simp [ones]
  | succ a ih =>
    rw [Nat.succ_add,ones,ih,ones,Nat.div_div_eq_div_mul,← Nat.pow_succ',Nat.add_assoc]

theorem ones_le (k n : Nat) : ones k n ≤ k := by
  induction k generalizing n with
  | zero => exact Nat.le_refl 0
  | succ k ih =>
    have := ih (n / 2)
    rw [ones]
    omega

theorem ones_eq_zero {n : Nat} (hn : n < 2 ^ k) : ones k n = 0 ↔ n = 0 := by
  induction k generalizing n with
  | zero =>
    rw [Nat.lt_one_iff.mp hn]
    simp [ones]
  | succ k ih =>
    have := @ih (n / 2) (by omega)
    rw [ones]
    omega

theorem ones_eq_one {n : Nat} (hn : n < 2 ^ k) : ones k n = 1 ↔ ∃ i, i < k ∧ n = 2 ^ i := by
  induction k generalizing n with
  | zero => simp [ones]
  | succ k ih =>
    have h0 := @ones_eq_zero k (n / 2) (by omega)
    have h1 := @ih (n / 2) (by omega)
    rw [ones]
    constructor
    · intro h
      by_cases hodd : n % 2 = 1
      · exact ⟨0,Nat.succ_pos k,by rw [Nat.pow_zero]; omega⟩
      · obtain ⟨i,hi,he⟩ := h1.mp (by omega)
        exact ⟨i + 1,Nat.succ_lt_succ hi,by rw [Nat.pow_succ]; omega⟩
    · rintro ⟨i,hi,rfl⟩
      cases i with
      | zero =>
        have := h0.mpr rfl
        omega
      | succ i =>
        have hdiv : 2 ^ (i + 1) / 2 = 2 ^ i := by
          rw [Nat.pow_succ]
          omega
        have := h1.mpr ⟨i,Nat.lt_of_succ_lt_succ hi,hdiv⟩
        omega

-- one bit of every nibble, m nibbles
def nibbleMask : Nat → Nat
  | 0 => 0
  | m + 1 => 2 ^ 4 * nibbleMask m + 1

-- the count of every nibble in its place
def counts : Nat → Nat → Nat
  | 0, _ => 0
  | m + 1, n => 16 * counts m (n / 16) + ones 4 n

theorem and_nibbleMask (y m : Nat) :
    y &&& nibbleMask (m + 1) = 16 * ((y / 16) &&& nibbleMask m) + y % 2 := by
  have h := @and_split 1 4 y (nibbleMask m) (by decide)
  rw [Nat.and_one_is_mod] at h
  exact h

theorem counts_eq (m n : Nat) : (n &&& nibbleMask m) + (n / 2 &&& nibbleMask m) +
    (n / 4 &&& nibbleMask m) + (n / 8 &&& nibbleMask m) = counts m n := by
  induction m generalizing n with
  | zero => simp [nibbleMask,counts]
  | succ m ih =>
    have h := ih (n / 16)
    have hc (d : Nat) : n / d / 16 = n / 16 / d := Nat.div_right_comm n d 16
    have h4 : ones 4 n = n % 2 + n / 2 % 2 + n / 4 % 2 + n / 8 % 2 := by
      simp only [ones]
      omega
    rw [and_nibbleMask,and_nibbleMask,and_nibbleMask,and_nibbleMask,hc,hc,hc,counts,← h,h4]
    omega

end Popcount
