import IcsLabs.Bits.Signs
import IcsLabs.Lib.Popcount

namespace Bits

open Popcount

variable {x n : Word}

theorem toNat_bit (x : Word) {i : Nat} (hi : i < 32) :
    (x.sshiftRight i &&& 1).toNat = x.toNat / 2 ^ i % 2 := by
  have hb : (x.sshiftRight i).getLsbD 0 = x.getLsbD i := by
    rw [BitVec.getLsbD_sshiftRight]
    simp [hi]
  rw [and_one,hb,BitVec.getLsbD,Nat.testBit_eq_decide_div_mod_eq]
  rcases Nat.mod_two_eq_zero_or_one (x.toNat / 2 ^ i) with h | h <;> rw [h] <;> rfl

theorem toNat_bitCountLoop (x : Word) {i : Nat} (hi : i ≤ 32) :
    (bitCountLoop x i).toNat = ones i x.toNat := by
  induction i with
  | zero => rfl
  | succ i ih =>
    have hle := ones_le i x.toNat
    have hone : ones (i + 1) x.toNat = ones i x.toNat + x.toNat / 2 ^ i % 2 := ones_add i 1 x.toNat
    rw [bitCountLoop,BitVec.toNat_add,ih (by omega),show (0x1 : Word) = 1 from rfl,
      toNat_bit x (by omega),hone]
    omega

theorem toNat_testBitCount (x : Word) : (testBitCount x).toNat = ones 32 x.toNat :=
  toNat_bitCountLoop x (Nat.le_refl 32)

theorem toNat_sar (h : x.toNat < 2 ^ 31) : (sar x n).toNat = x.toNat / 2 ^ n.toNat := by
  have hm : x.msb = false := by
    rw [BitVec.msb_eq_decide,decide_eq_false_iff_not]
    omega
  rw [sar,BitVec.sshiftRight_eq_of_msb_false hm,BitVec.toNat_ushiftRight,Nat.shiftRight_eq_div_pow]

-- the sign bits shifted in miss the mask
theorem toNat_sar_mask {k : Nat} (x : Word) (hk : k < 4) :
    (x.sshiftRight k &&& 0x11111111).toNat = x.toNat / 2 ^ k &&& nibbleMask 8 := by
  have h : x.sshiftRight k &&& 0x11111111 = x >>> k &&& 0x11111111 := by
    refine BitVec.eq_of_getLsbD_eq fun i hi => ?_
    rw [BitVec.getLsbD_and,BitVec.getLsbD_and,BitVec.getLsbD_sshiftRight,BitVec.getLsbD_ushiftRight]
    by_cases hin : k + i < 32
    · simp [hin,show ¬32 ≤ i by omega]
    · have hmask : (0x11111111 : Word).getLsbD i = false := by
        obtain rfl | rfl | rfl : i = 29 ∨ i = 30 ∨ i = 31 := by omega
        · rfl
        · rfl
        · rfl
      rw [hmask,Bool.and_false,Bool.and_false]
  rw [h,BitVec.toNat_and,BitVec.toNat_ushiftRight,Nat.shiftRight_eq_div_pow]
  rfl

-- the sum of the four masked words
def nibbleSum (x : Word) : Word :=
  (x &&& 0x11111111) + (sar x 1 &&& 0x11111111) + (sar x 2 &&& 0x11111111) + (sar x 3 &&& 0x11111111)

theorem toNat_nibbleSum (x : Word) : (nibbleSum x).toNat = counts 8 x.toNat := by
  have h0 : (x &&& 0x11111111).toNat = x.toNat &&& nibbleMask 8 := by
    rw [BitVec.toNat_and]
    rfl
  have h1 := toNat_sar_mask x (k := 1) (by decide)
  have h2 := toNat_sar_mask x (k := 2) (by decide)
  have h3 := toNat_sar_mask x (k := 3) (by decide)
  have hle (y : Nat) : y &&& nibbleMask 8 ≤ 0x11111111 := Nat.and_le_right
  have hc := counts_eq 8 x.toNat
  have b0 := hle x.toNat
  have b1 := hle (x.toNat / 2)
  have b2 := hle (x.toNat / 4)
  have b3 := hle (x.toNat / 8)
  rw [Nat.pow_one] at h1
  rw [show 2 ^ 2 = 4 from rfl] at h2
  rw [show 2 ^ 3 = 8 from rfl] at h3
  rw [nibbleSum,BitVec.toNat_add,BitVec.toNat_add,BitVec.toNat_add,h0,show sar x 1 = x.sshiftRight 1 from rfl,
    show sar x 2 = x.sshiftRight 2 from rfl,show sar x 3 = x.sshiftRight 3 from rfl,h1,h2,h3]
  omega

theorem fold_bytes {d0 d1 d2 d3 : Nat} (h0 : d0 ≤ 8) (h1 : d1 ≤ 8) (h2 : d2 ≤ 8) (h3 : d3 ≤ 8) :
    ((256 * d2 + d0) + (256 * d3 + d1) + ((256 * d2 + d0) + (256 * d3 + d1)) / 256) % 64 =
      d0 + d1 + d2 + d3 := by
  have hdiv : ((256 * d2 + d0) + (256 * d3 + d1)) / 256 = d2 + d3 := by omega
  rw [hdiv]
  omega

-- four nibbles of at most 8, below a rest that is masked away, added up in two rounds
theorem fold_nibbles {d0 d1 d2 d3 r t u : Nat} (h0 : d0 ≤ 8) (h1 : d1 ≤ 8) (h2 : d2 ≤ 8) (h3 : d3 ≤ 8)
    (ht : t = 65536 * r + 4096 * d3 + 256 * d2 + 16 * d1 + d0)
    (hu : u = (256 * (t / 256 % 16) + t % 16) + (256 * (t / 16 / 256 % 16) + t / 16 % 16)) :
    (u + u / 256) % 64 = d0 + d1 + d2 + d3 := by
  have e0 : t % 16 = d0 := by omega
  have e1 : t / 16 % 16 = d1 := by omega
  have e2 : t / 256 % 16 = d2 := by omega
  have e3 : t / 16 / 256 % 16 = d3 := by omega
  rw [hu,e0,e1,e2,e3]
  exact fold_bytes h0 h1 h2 h3

theorem counts_halves (n : Nat) : ∃ c0 c1 c2 c3 c4 c5 c6 c7 : Nat,
    (c0 ≤ 4 ∧ c1 ≤ 4 ∧ c2 ≤ 4 ∧ c3 ≤ 4 ∧ c4 ≤ 4 ∧ c5 ≤ 4 ∧ c6 ≤ 4 ∧ c7 ≤ 4) ∧
      counts 8 n = 65536 * (4096 * c7 + 256 * c6 + 16 * c5 + c4) +
        (4096 * c3 + 256 * c2 + 16 * c1 + c0) ∧
      ones 32 n = c0 + c1 + c2 + c3 + c4 + c5 + c6 + c7 := by
  have hle (y : Nat) : ones 4 y ≤ 4 := ones_le 4 y
  have hones (k : Nat) (y : Nat) : ones (4 + k) y = ones 4 y + ones k (y / 16) := ones_add 4 k y
  refine ⟨_,_,_,_,_,_,_,_,⟨hle n,hle (n / 16),hle (n / 16 / 16),hle (n / 16 / 16 / 16),
    hle (n / 16 / 16 / 16 / 16),hle (n / 16 / 16 / 16 / 16 / 16),hle (n / 16 / 16 / 16 / 16 / 16 / 16),
    hle (n / 16 / 16 / 16 / 16 / 16 / 16 / 16)⟩,?_,?_⟩
  · simp only [counts]
    omega
  · rw [hones 28,hones 24,hones 20,hones 16,hones 12,hones 8,hones 4]
    omega

theorem add_high {h l : Nat} (hl : l < 2 ^ 16) (hh : h < 2 ^ 15) :
    (65536 * h + l + (65536 * h + l) / 2 ^ 16) % 2 ^ 32 = 65536 * h + (l + h) := by
  have hdiv : (65536 * h + l) / 2 ^ 16 = h := by omega
  rw [hdiv]
  omega

theorem nibbles_mask (y : Nat) : y &&& 0x0F0F = 256 * (y / 256 % 16) + y % 16 := by
  have h := @and_split 0xF 8 y 0xF (by decide)
  rw [Nat.and_two_pow_sub_one_eq_mod (y / 2 ^ 8) 4,Nat.and_two_pow_sub_one_eq_mod y 4] at h
  exact h

-- the second round on the sum t of the first, and the last one
def bytesSum (t : Word) : Word := (t &&& 0x0F0F) + (sar t 4 &&& 0x0F0F)

theorem toNat_bytesSum {t : Word} (h : t.toNat < 2 ^ 31) : (bytesSum t).toNat =
    (256 * (t.toNat / 256 % 16) + t.toNat % 16) +
      (256 * (t.toNat / 16 / 256 % 16) + t.toNat / 16 % 16) := by
  have hlt (a b c d : Nat) : 256 * (a % 16) + b % 16 + (256 * (c % 16) + d % 16) < 2 ^ 32 := by omega
  rw [bytesSum,BitVec.toNat_add,BitVec.toNat_and,BitVec.toNat_and,toNat_sar h,
    show (0x0F0F : Word).toNat = 0x0F0F from rfl,show 2 ^ (4 : Word).toNat = 16 from rfl,nibbles_mask,
    nibbles_mask,Nat.mod_eq_of_lt (hlt _ _ _ _)]

theorem toNat_lastRound {u : Word} (h : u.toNat < 2 ^ 31) :
    ((u + sar u 8) &&& 0x3F).toNat = (u.toNat + u.toNat / 256) % 64 := by
  rw [BitVec.toNat_and,BitVec.toNat_add,toNat_sar h,show (0x3F : Word).toNat = 2 ^ 6 - 1 from rfl,
    show 2 ^ (8 : Word).toNat = 256 from rfl,Nat.and_two_pow_sub_one_eq_mod,
    Nat.mod_mod_of_dvd _ (by decide)]

theorem nibbleMask_eq : ((0x11 ||| shl 0x11 8) ||| shl (0x11 ||| shl 0x11 8) 16 : Word) = 0x11111111 := by
  decide

theorem bytesMask_eq : (0xF ||| shl 0xF 8 : Word) = 0x0F0F := by
  decide

theorem bitCount_rounds (x : Word) : bitCount x =
    (bytesSum (nibbleSum x + sar (nibbleSum x) 16) +
      sar (bytesSum (nibbleSum x + sar (nibbleSum x) 16)) 8) &&& 0x3F := by
  simp only [bitCount,nibbleMask_eq,bytesMask_eq,bytesSum,nibbleSum]

theorem toNat_rounds {c0 c1 c2 c3 c4 c5 c6 c7 : Nat} {s : Word} (h0 : c0 ≤ 4) (h1 : c1 ≤ 4)
    (h2 : c2 ≤ 4) (h3 : c3 ≤ 4) (h4 : c4 ≤ 4) (h5 : c5 ≤ 4) (h6 : c6 ≤ 4) (h7 : c7 ≤ 4)
    (hs : s.toNat = 65536 * (4096 * c7 + 256 * c6 + 16 * c5 + c4) +
      (4096 * c3 + 256 * c2 + 16 * c1 + c0)) :
    ((bytesSum (s + sar s 16) + sar (bytesSum (s + sar s 16)) 8) &&& 0x3F).toNat =
      c0 + c1 + c2 + c3 + c4 + c5 + c6 + c7 := by
  have hs31 : s.toNat < 2 ^ 31 := by omega
  have ht : (s + sar s 16).toNat = 65536 * (4096 * c7 + 256 * c6 + 16 * c5 + c4) +
      (4096 * c3 + 256 * c2 + 16 * c1 + c0 + (4096 * c7 + 256 * c6 + 16 * c5 + c4)) := by
    rw [BitVec.toNat_add,toNat_sar hs31,hs]
    exact add_high (by omega) (by omega)
  obtain ⟨t,hte⟩ : ∃ t, s + sar s 16 = t := ⟨_,rfl⟩
  rw [hte] at ht ⊢
  have hu := @toNat_bytesSum t (by omega)
  have hlt (a b c d : Nat) : 256 * (a % 16) + b % 16 + (256 * (c % 16) + d % 16) < 2 ^ 31 := by omega
  rw [toNat_lastRound (hu ▸ hlt _ _ _ _)]
  rw [@fold_nibbles (c0 + c4) (c1 + c5) (c2 + c6) (c3 + c7) (4096 * c7 + 256 * c6 + 16 * c5 + c4)
    t.toNat (bytesSum t).toNat (by omega) (by omega) (by omega) (by omega) (by omega) hu]
  omega

theorem toNat_bitCount (x : Word) : (bitCount x).toNat = ones 32 x.toNat := by
  obtain ⟨c0,c1,c2,c3,c4,c5,c6,c7,hle,hcounts,hones⟩ := counts_halves x.toNat
  obtain ⟨h0,h1,h2,h3,h4,h5,h6,h7⟩ := hle
  rw [bitCount_rounds,hones]
  exact toNat_rounds h0 h1 h2 h3 h4 h5 h6 h7 ((toNat_nibbleSum x).trans hcounts)

theorem bitCount_eq (x : Word) : bitCount x = testBitCount x :=
  BitVec.eq_of_toNat_eq ((toNat_bitCount x).trans (toNat_testBitCount x).symm)

theorem isPower2_bitCount (x : Word) :
    isPower2 x = lnot (lnot (shl x 1)) &&& lnot (bitCount x + ~~~1 + 1) := by
  simp only [isPower2,bitCount]

theorem and_lnot (a b : Word) : lnot (lnot a) &&& lnot b = ofProp (a ≠ 0 ∧ b = 0) := by
  rw [lnot_lnot]
  by_cases ha : a = 0 <;> by_cases hb : b = 0 <;>
    simp only [ofProp,lnot,ha,hb,ne_eq,not_true,not_false_eq_true,if_true,if_false,and_true,and_false]
    <;> rfl

theorem sub_one_eq_zero (b : Word) : b + ~~~1 + 1 = 0 ↔ b.toNat = 1 := by
  have hb := b.isLt
  rw [← BitVec.toNat_inj,BitVec.toNat_add,BitVec.toNat_add,show (~~~1 : Word).toNat = 2 ^ 32 - 2 from rfl,
    show (1 : Word).toNat = 1 from rfl,show (0 : Word).toNat = 0 from rfl]
  omega

theorem toNat_one_shl {i : Nat} (hi : i < 32) : (1 <<< i : Word).toNat = 2 ^ i := by
  rw [show (1 <<< i : Word) = BitVec.twoPow 32 i from (BitVec.twoPow_eq 32 i).symm,
    BitVec.toNat_twoPow_of_lt hi]

theorem shl_one_eq_zero {i : Nat} (hi : i < 32) (hx : x.toNat = 2 ^ i) : shl x 1 = 0 ↔ i = 31 := by
  have hs : (shl x 1).toNat = 2 ^ (i + 1) % 2 ^ 32 := by
    rw [shl,show (1 : Word).toNat = 1 from rfl,BitVec.toNat_shiftLeft,Nat.shiftLeft_eq,hx,← Nat.pow_add]
  rw [← BitVec.toNat_inj,hs]
  constructor
  · intro h
    by_contra hne
    rw [Nat.mod_eq_of_lt (Nat.pow_lt_pow_right (by decide) (by omega))] at h
    exact Nat.ne_of_gt (Nat.two_pow_pos (i + 1)) h
  · rintro rfl
    rfl

theorem isPower2Loop_eq (x : Word) (k i : Nat) [Decidable (∃ j, i ≤ j ∧ j < i + k ∧ x = 1 <<< j)] :
    isPower2Loop x k i = ofProp (∃ j, i ≤ j ∧ j < i + k ∧ x = 1 <<< j) := by
  induction k generalizing i with
  | zero =>
    refine (if_neg ?_).symm
    rintro ⟨j,h1,h2,-⟩
    omega
  | succ k ih =>
    rw [isPower2Loop]
    split
    · rename_i h
      exact (if_pos ⟨i,Nat.le_refl i,by omega,h⟩).symm
    · rename_i h
      have : Decidable (∃ j, i + 1 ≤ j ∧ j < i + 1 + k ∧ x = 1 <<< j) := Classical.propDecidable _
      rw [ih (i + 1)]
      refine ite_congr (propext ?_) (fun _ => rfl) fun _ => rfl
      constructor
      · rintro ⟨j,h1,h2,hx⟩
        exact ⟨j,by omega,by omega,hx⟩
      · rintro ⟨j,h1,h2,hx⟩
        have hne : j ≠ i := by
          rintro rfl
          exact h hx
        exact ⟨j,by omega,by omega,hx⟩

theorem isPower2_eq (x : Word) : isPower2 x = testIsPower2 x := by
  have hiff : (shl x 1 ≠ 0 ∧ bitCount x + ~~~1 + 1 = 0) ↔ ∃ j, 0 ≤ j ∧ j < 0 + 31 ∧ x = 1 <<< j := by
    rw [sub_one_eq_zero,toNat_bitCount,ones_eq_one x.isLt]
    constructor
    · rintro ⟨hs,i,hi,hx⟩
      have hne : i ≠ 31 := fun h => hs ((shl_one_eq_zero hi hx).mpr h)
      exact ⟨i,Nat.zero_le i,by omega,BitVec.eq_of_toNat_eq (hx.trans (toNat_one_shl hi).symm)⟩
    · rintro ⟨i,-,hi,rfl⟩
      have h32 : i < 32 := by omega
      have hx := toNat_one_shl h32
      exact ⟨mt (shl_one_eq_zero h32 hx).mp (by omega),i,h32,hx⟩
  have : Decidable (∃ j, 0 ≤ j ∧ j < 0 + 31 ∧ x = 1 <<< j) := Classical.propDecidable _
  rw [isPower2_bitCount,and_lnot,testIsPower2,isPower2Loop_eq]
  exact ite_congr (propext hiff) (fun _ => rfl) fun _ => rfl

theorem evenBits_eq : evenBits = testEvenBits := by
  decide

theorem solutions_match (little : Bool) (t : TestRec) (ht : t ∈ testSet little) (x y : Word)
    (hd : t.Declares x y) : some (t.solution x y) = t.test x y := by
  have hrange := hd.2
  simp only [testSet,List.mem_cons,List.not_mem_nil,or_false] at ht
  rcases ht with rfl | rfl | rfl | rfl | rfl | rfl | rfl | rfl | rfl | rfl | rfl | rfl | rfl | rfl | rfl
  · exact congrArg some (bang_eq x)
  · exact congrArg some (bitCount_eq x)
  · exact congrArg some (copyLSB_eq x)
  · obtain ⟨h0,h30⟩ := hrange (Nat.le_refl 2)
    exact congrArg some (divpwr2_eq h0 h30)
  · exact congrArg some evenBits_eq
  · obtain ⟨h1,h32⟩ := hrange (Nat.le_refl 2)
    exact congrArg some (fitsBits_eq h1 h32)
  · obtain ⟨h0,h3⟩ := hrange (Nat.le_refl 2)
    exact congrArg some (getByte_eq little h0 h3)
  · exact congrArg some (isGreater_eq x y)
  · exact congrArg some (isNonNegative_eq x)
  · exact congrArg some (isNotEqual_eq x y)
  · exact congrArg some (isPower2_eq x)
  · exact leastBitPos_eq x
  · obtain ⟨h1,h31⟩ := hrange (Nat.le_refl 2)
    exact congrArg some (logicalShift_eq h1 h31)
  · exact congrArg some (satAdd_eq x y)
  · exact congrArg some (tc2sm_eq x)

theorem solutions_match_divpwr2 : ∃ t, t ∈ testSet true ∧ t.Declares (-33) 4 ∧
    t.solution (-33) 4 = -2 ∧ some (t.solution (-33) 4) = t.test (-33) 4 := by
  have ht : ⟨"divpwr2",divpwr2,fun x n => some (testDivpwr2 x n),2,(tMin,tMax),(0,30)⟩ ∈ testSet true := by
    simp [testSet]
  exact ⟨_,ht,by decide,by decide,solutions_match true _ ht (-33) 4 (by decide)⟩

end Bits
