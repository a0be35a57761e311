import IcsLabs.Sim.Machine

namespace Sim
open Bytes

def OutOfRange (n : Int) : Prop := n < -2 ^ 63 ∨ 2 ^ 63 ≤ n

instance (n : Int) : Decidable (OutOfRange n) := inferInstanceAs (Decidable (_ ∨ _))

-- what the flags mean: the sign of the 64-bit result, and whether the exact one fits
def trueCc (op : Nat) (argA argB val : Word) : Byte :=
  packCc (decide (val = 0)) (decide (val.toInt < 0)) (decide
    (op = aAdd ∧ OutOfRange (argA.toInt + argB.toInt) ∨
      op = aSub ∧ OutOfRange (argB.toInt - argA.toInt)))

-- the sign pattern of an overflow, read at bit i
def overflowsAt (i op : Nat) (argA argB val : Word) : Bool :=
  if op = aAdd then argA.getLsbD i == argB.getLsbD i && val.getLsbD i != argA.getLsbD i
  else if op = aSub then argA.getLsbD i != argB.getLsbD i && val.getLsbD i != argB.getLsbD i
  else false

-- the low words whose overflow the strict comparisons miss
def missed (op : Nat) (argA argB : Word) : Bool :=
  int argA == -2 ^ 31 && (op == aAdd && int argB == -2 ^ 31 || op == aSub && int argB == 0)

def SignsAgree (op : Nat) (argA argB val : Word) : Prop :=
  val.getLsbD 31 = val.getLsbD 63 ∧
    (overflowsAt 31 op argA argB val && !missed op argA argB) = overflowsAt 63 op argA argB val

section Signs

variable {op : Nat} {argA argB val : Word}

theorem packCc_inj {z s o z' s' o' : Bool} :
    packCc z s o = packCc z' s' o' ↔ z = z' ∧ s = s' ∧ o = o' := by
  revert z s o z' s' o'
  decide

theorem int_neg (v : Word) : v.getLsbD 31 = decide (int v < 0) := by
  rw [int,← BitVec.msb_eq_toInt,BitVec.msb_setWidth]
  rfl

theorem toInt_neg (v : Word) : v.getLsbD 63 = decide (v.toInt < 0) := by
  rw [← BitVec.msb_eq_toInt,BitVec.msb_eq_getLsbD_last]

theorem int_range (v : Word) : -2 ^ 31 ≤ int v ∧ int v < 2 ^ 31 :=
  ⟨BitVec.le_toInt _,BitVec.toInt_lt⟩

theorem toInt_range (v : Word) : -2 ^ 63 ≤ v.toInt ∧ v.toInt < 2 ^ 63 :=
  ⟨BitVec.le_toInt _,BitVec.toInt_lt⟩

theorem int_add (a b : Word) : ∃ k : Int, int (a + b) = int a + int b + 2 ^ 32 * k := by
  rw [int,BitVec.setWidth_add _ _ (by decide),BitVec.toInt_add,Int.bmod_eq_self_sub_mul_bdiv]
  exact ⟨-_,by rw [Int.mul_neg]; rfl⟩

theorem toInt_add (a b : Word) : ∃ k : Int, (a + b).toInt = a.toInt + b.toInt + 2 ^ 64 * k := by
  rw [BitVec.toInt_add,Int.bmod_eq_self_sub_mul_bdiv]
  exact ⟨-_,by rw [Int.mul_neg]; rfl⟩

theorem int_sub (a b : Word) : ∃ k : Int, int (b - a) = int b - int a + 2 ^ 32 * k := by
  obtain ⟨k,hk⟩ := int_add (b - a) a
  rw [BitVec.sub_add_cancel] at hk
  exact ⟨-k,by omega⟩

theorem toInt_sub (a b : Word) : ∃ k : Int, (b - a).toInt = b.toInt - a.toInt + 2 ^ 64 * k := by
  obtain ⟨k,hk⟩ := toInt_add (b - a) a
  rw [BitVec.sub_add_cancel] at hk
  exact ⟨-k,by omega⟩

theorem overflowsAt_add (i : Nat) (a b v : Word) : overflowsAt i aAdd a b v =
    (a.getLsbD i == b.getLsbD i && v.getLsbD i != a.getLsbD i) := rfl

theorem overflowsAt_sub (i : Nat) (a b v : Word) : overflowsAt i aSub a b v =
    (a.getLsbD i != b.getLsbD i && v.getLsbD i != b.getLsbD i) := rfl

theorem add_out (a b : Word) :
    OutOfRange (a.toInt + b.toInt) ↔ overflowsAt 63 aAdd a b (a + b) = true := by
  obtain ⟨k,hk⟩ := toInt_add a b
  have ha := toInt_range a
  have hb := toInt_range b
  have hv := toInt_range (a + b)
  rw [overflowsAt_add,toInt_neg,toInt_neg,toInt_neg,OutOfRange,Bool.and_eq_true,beq_iff_eq,
    bne_iff_ne,decide_eq_decide,ne_eq,decide_eq_decide]
  omega

theorem sub_out (a b : Word) :
    OutOfRange (b.toInt - a.toInt) ↔ overflowsAt 63 aSub a b (b - a) = true := by
  obtain ⟨k,hk⟩ := toInt_sub a b
  have ha := toInt_range a
  have hb := toInt_range b
  have hv := toInt_range (b - a)
  rw [overflowsAt_sub,toInt_neg,toInt_neg,toInt_neg,OutOfRange,Bool.and_eq_true,bne_iff_ne,
    bne_iff_ne,ne_eq,decide_eq_decide,ne_eq,decide_eq_decide]
  omega

theorem add_test (a b : Word) :
    ((int a < 0 ∧ int b < 0 ∧ int (a + b) > 0) ∨ (int a > 0 ∧ int b > 0 ∧ int (a + b) < 0)) ↔
      (overflowsAt 31 aAdd a b (a + b) && !missed aAdd a b) = true := by
  obtain ⟨k,hk⟩ := int_add a b
  have ha := int_range a
  have hb := int_range b
  have hv := int_range (a + b)
  have hm : missed aAdd a b = true ↔ int a = -2 ^ 31 ∧ int b = -2 ^ 31 := by
    simp [missed,aAdd,aSub]
  rw [overflowsAt_add,int_neg,int_neg,int_neg,Bool.and_eq_true,Bool.and_eq_true,beq_iff_eq,
    bne_iff_ne,decide_eq_decide,ne_eq,decide_eq_decide,Bool.not_eq_true',← Bool.not_eq_true,hm]
  omega

theorem sub_test (a b : Word) :
    ((int a < 0 ∧ int b > 0 ∧ int (b - a) < 0) ∨ (int a > 0 ∧ int b < 0 ∧ int (b - a) > 0)) ↔
      (overflowsAt 31 aSub a b (b - a) && !missed aSub a b) = true := by
  obtain ⟨k,hk⟩ := int_sub a b
  have ha := int_range a
  have hb := int_range b
  have hv := int_range (b - a)
  have hm : missed aSub a b = true ↔ int a = -2 ^ 31 ∧ int b = 0 := by
    simp [missed,aAdd,aSub]
  rw [overflowsAt_sub,int_neg,int_neg,int_neg,Bool.and_eq_true,Bool.and_eq_true,bne_iff_ne,
    bne_iff_ne,ne_eq,decide_eq_decide,ne_eq,decide_eq_decide,Bool.not_eq_true',← Bool.not_eq_true,hm]
  omega

theorem overflowsAt_other {i op : Nat} (h0 : op ≠ aAdd) (h1 : op ≠ aSub) (a b v : Word) :
    overflowsAt i op a b v = false := by
  rw [overflowsAt,if_neg h0,if_neg h1]

theorem computeCc_eq (op : Nat) (a b : Word) : computeCc op a b (computeAlu op a b) =
    packCc (decide (computeAlu op a b = 0)) ((computeAlu op a b).getLsbD 31)
      (overflowsAt 31 op a b (computeAlu op a b) && !missed op a b) := by
  rw [computeCc,int_neg]
  refine packCc_inj.mpr ⟨rfl,rfl,?_⟩
  by_cases h0 : op = aAdd
  · subst h0
    exact Bool.eq_iff_iff.mpr (decide_eq_true_iff.trans (add_test a b))
  · by_cases h1 : op = aSub
    · subst h1
      exact Bool.eq_iff_iff.mpr (decide_eq_true_iff.trans (sub_test a b))
    · rw [if_neg h0,if_neg h1,overflowsAt_other h0 h1,Bool.false_and]

theorem trueCc_eq (op : Nat) (a b : Word) : trueCc op a b (computeAlu op a b) =
    packCc (decide (computeAlu op a b = 0)) ((computeAlu op a b).getLsbD 63)
      (overflowsAt 63 op a b (computeAlu op a b)) := by
  rw [trueCc,toInt_neg]
  refine packCc_inj.mpr ⟨rfl,rfl,?_⟩
  rw [Bool.eq_iff_iff,decide_eq_true_iff]
  by_cases h0 : op = aAdd
  · subst h0
    exact (or_iff_left (fun h => absurd h.1 (by decide))).trans
      ((and_iff_right rfl).trans (add_out a b))
  · by_cases h1 : op = aSub
    · subst h1
      exact (or_iff_right (fun h => absurd h.1 (by decide))).trans
        ((and_iff_right rfl).trans (sub_out a b))
    · rw [overflowsAt_other h0 h1]
      simp [h0,h1]

end Signs

theorem computeCc_true (op : Nat) (argA argB : Word) :
    computeCc op argA argB (computeAlu op argA argB) =
      trueCc op argA argB (computeAlu op argA argB) ↔
    SignsAgree op argA argB (computeAlu op argA argB) := by
  rw [computeCc_eq,trueCc_eq,packCc_inj,SignsAgree]
  exact and_iff_right rfl

-- adding 0 to 2^31: a positive sum with the sign flag set
theorem computeCc_true_two_pow : ¬ (computeCc aAdd 0x80000000 0 (computeAlu aAdd 0x80000000 0) =
    trueCc aAdd 0x80000000 0 (computeAlu aAdd 0x80000000 0)) := by
  decide +kernel

section Conditions

@[simp] theorem getZf_packCc (z s o : Bool) : getZf (packCc z s o) = z := by
  revert z s o
  decide

@[simp] theorem getSf_packCc (z s o : Bool) : getSf (packCc z s o) = s := by
  revert z s o
  decide

@[simp] theorem getOf_packCc (z s o : Bool) : getOf (packCc z s o) = o := by
  revert z s o
  decide

variable {a b : Word}

theorem sub_zero_iff : b - a = 0 ↔ b.toInt = a.toInt := by
  obtain ⟨k,hk⟩ := toInt_sub a b
  have ha := toInt_range a
  have hb := toInt_range b
  have hv := toInt_range (b - a)
  rw [← BitVec.toInt_inj,show (0 : Word).toInt = 0 from rfl]
  omega

theorem trueCc_sub : trueCc aSub a b (b - a) = packCc (decide (b.toInt = a.toInt))
    (decide ((b - a).toInt < 0)) (decide (OutOfRange (b.toInt - a.toInt))) := by
  rw [trueCc]
  refine packCc_inj.mpr ⟨?_,rfl,?_⟩
  · exact decide_eq_decide.mpr sub_zero_iff
  · refine decide_eq_decide.mpr ((or_iff_right fun h => ?_).trans (and_iff_right rfl))
    exact absurd h.1 (by decide)

theorem sign_xor_overflow : (decide ((b - a).toInt < 0) ^^
    decide (OutOfRange (b.toInt - a.toInt))) = decide (b.toInt < a.toInt) := by
  obtain ⟨k,hk⟩ := toInt_sub a b
  have ha := toInt_range a
  have hb := toInt_range b
  have hv := toInt_range (b - a)
  rw [Bool.eq_iff_iff,Bool.xor_iff_ne,ne_eq,decide_eq_decide,decide_eq_true_iff,OutOfRange]
  omega

end Conditions

theorem condDoit_signed (a b : Word) : let cc := trueCc aSub a b (b - a)
    (condDoit cc cLe = true ↔ b.toInt ≤ a.toInt) ∧
    (condDoit cc cL = true ↔ b.toInt < a.toInt) ∧
    (condDoit cc cE = true ↔ b.toInt = a.toInt) ∧
    (condDoit cc cNe = true ↔ b.toInt ≠ a.toInt) ∧
    (condDoit cc cGe = true ↔ b.toInt ≥ a.toInt) ∧
    (condDoit cc cG = true ↔ b.toInt > a.toInt) ∧
    condDoit cc cYes = true := by
  intro cc
  have hz : getZf cc = decide (b.toInt = a.toInt) := by
    rw [show cc = _ from trueCc_sub,getZf_packCc]
  have hl : (getSf cc ^^ getOf cc) = decide (b.toInt < a.toInt) := by
    rw [show cc = _ from trueCc_sub,getSf_packCc,getOf_packCc,sign_xor_overflow]
  refine ⟨?le,?l,?e,?ne,?ge,?g,rfl⟩
  case le =>
    have h : condDoit cc cLe = ((getSf cc ^^ getOf cc) || getZf cc) := rfl
    rw [h,hl,hz,Bool.or_eq_true,decide_eq_true_iff,decide_eq_true_iff]
    exact le_iff_lt_or_eq.symm
  case l =>
    have h : condDoit cc cL = (getSf cc ^^ getOf cc) := rfl
    rw [h,hl,decide_eq_true_iff]
  case e =>
    have h : condDoit cc cE = getZf cc := rfl
    rw [h,hz,decide_eq_true_iff]
  case ne =>
    have h : condDoit cc cNe = !getZf cc := rfl
    rw [h,hz,Bool.not_eq_true',decide_eq_false_iff_not]
  case ge =>
    have h : condDoit cc cGe = !(getSf cc ^^ getOf cc) := rfl
    rw [h,hl,Bool.not_eq_true',decide_eq_false_iff_not,not_lt]
  case g =>
    have h : condDoit cc cG = (!(getSf cc ^^ getOf cc) && !getZf cc) := rfl
    rw [h,hl,hz,Bool.and_eq_true,Bool.not_eq_true',Bool.not_eq_true',decide_eq_false_iff_not,
      decide_eq_false_iff_not,not_lt]
    exact lt_iff_le_and_ne'.symm

end Sim
