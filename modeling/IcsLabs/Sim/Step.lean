import IcsLabs.Lib.Y86
import IcsLabs.Sim.Machine
import Mathlib.Algebra.Ring.Nat

namespace Sim
open Bytes

section Longs

variable {data : Nat → Byte} {addr val : Word} {m : Mem}

theorem readLE_snoc (data : Nat → Byte) (a n : Nat) :
    readLE data a (n + 1) = readLE data a n + 256 ^ n * (data (a + n)).toNat := by
  induction n generalizing a with
  | zero => simp [readLE]
  | succ n ih =>
    rw [readLE,ih,readLE,show a + 1 + n = a + (n + 1) by omega,Nat.pow_succ]
    ring

theorem toNat_add_index {n : Nat} (h : addr.toNat + n < 2 ^ 64) :
    (addr + BitVec.ofNat 64 n).toNat = addr.toNat + n := by
  rw [BitVec.toNat_add,BitVec.toNat_ofNat]
  omega

theorem longBytes_toNat {n : Nat} (h : addr.toNat + n ≤ 2 ^ 64) (hn : n ≤ 8) :
    (longBytes data addr n).toNat = readLE data addr.toNat n := by
  induction n with
  | zero => rfl
  | succ n ih =>
    have hb := (data (addr.toNat + n)).isLt
    have hr := readLE_lt data addr.toNat n
    have hp : 256 ^ n = 2 ^ (8 * n) := by rw [Nat.pow_mul]
    have hs : (data (addr.toNat + n)).toNat <<< (8 * n) < 2 ^ 64 := by
      have hle : (data (addr.toNat + n)).toNat * 2 ^ (8 * n) < 2 ^ 8 * 2 ^ (8 * n) :=
        (Nat.mul_lt_mul_right (Nat.two_pow_pos _)).mpr hb
      have hle' : 2 ^ 8 * 2 ^ (8 * n) ≤ 2 ^ 64 := by
        rw [← Nat.pow_add]
        exact Nat.pow_le_pow_right (by omega) (by omega)
      rw [Nat.shiftLeft_eq]
      omega
    rw [longBytes,BitVec.toNat_or,BitVec.toNat_shiftLeft,BitVec.toNat_setWidth,ih (by omega) (by omega),
      toNat_add_index (by omega),Nat.mod_eq_of_lt (by omega : (data (addr.toNat + n)).toNat < 2 ^ 64),
      Nat.mod_eq_of_lt hs,Nat.or_comm,← Nat.shiftLeft_add_eq_or_of_lt (hp ▸ hr),readLE_snoc,
      Nat.shiftLeft_eq,hp]
    ring

theorem longBytes_eq (h : addr.toNat + 8 ≤ 2 ^ 64) :
    longBytes data addr 8 = BitVec.ofNat 64 (readLE data addr.toNat 8) := by
  rw [← longBytes_toNat h (Nat.le_refl 8),BitVec.ofNat_toNat,BitVec.setWidth_eq]

-- the byte set_long_val stores in turn i: the sign bits shifted in have not reached it
theorem sshiftRight_byte (val : Word) {i : Nat} (hi : i < 8) :
    ((val.sshiftRight (8 * i)) &&& 0xff).setWidth 8 = BitVec.ofNat 8 (val.toNat / 256 ^ i) := by
  refine BitVec.eq_of_getLsbD_eq fun j hj => ?_
  have hp : 256 ^ i = 2 ^ (8 * i) := by rw [Nat.pow_mul]
  have hff : (0xff : Word).getLsbD j = true := by
    have : j = 0 ∨ j = 1 ∨ j = 2 ∨ j = 3 ∨ j = 4 ∨ j = 5 ∨ j = 6 ∨ j = 7 := by omega
    obtain rfl | rfl | rfl | rfl | rfl | rfl | rfl | rfl := this <;> decide
  rw [BitVec.getLsbD_setWidth,BitVec.getLsbD_and,hff,BitVec.getLsbD_sshiftRight,hp,
    BitVec.getLsbD_ofNat,Nat.testBit_div_two_pow]
  simp only [hj,show ¬ 64 ≤ j by omega,show 8 * i + j < 64 by omega,BitVec.getLsbD,decide_true,
    decide_false,Bool.not_false,Bool.true_and,Bool.and_true,if_true,Nat.add_comm j]

theorem putBytes_apply {n i : Nat} (h : addr.toNat + 8 ≤ 2 ^ 64) (hi : i + n ≤ 8) (x : Nat) :
    putBytes addr n i (val.sshiftRight (8 * i)) data x =
      if addr.toNat + i ≤ x ∧ x < addr.toNat + i + n
        then BitVec.ofNat 8 (val.toNat / 256 ^ (x - addr.toNat)) else data x := by
  induction n generalizing i data with
  | zero => rw [putBytes,if_neg (by omega)]
  | succ n ih =>
    have hs : (val.sshiftRight (8 * i)).sshiftRight 8 = val.sshiftRight (8 * (i + 1)) := by
      rw [← BitVec.sshiftRight_add]
      rfl
    rw [putBytes,hs,ih (by omega),sshiftRight_byte val (by omega),toNat_add_index (by omega)]
    by_cases hx : x = addr.toNat + i
    · subst hx
      rw [if_neg (by omega),Function.update_self,if_pos (by omega),Nat.add_sub_cancel_left]
    · rw [Function.update_of_ne hx]
      by_cases hin : addr.toNat + (i + 1) ≤ x ∧ x < addr.toNat + (i + 1) + n
      · rw [if_pos hin,if_pos (by omega)]
      · rw [if_neg hin,if_neg (by omega)]

theorem putBytes_eq (h : addr.toNat + 8 ≤ 2 ^ 64) :
    putBytes addr 8 0 val data = writeLE data addr.toNat 8 val.toNat := by
  funext x
  have hp := @putBytes_apply data addr val 8 0 h (by omega) x
  rwa [BitVec.sshiftRight_zero] at hp

end Longs

def regAt (r : Mem) (id : Y86.Reg) : Word := BitVec.ofNat 64 (readLE r.data (id * 8) 8)

-- the simulator's state as the instruction set sees it
def view (sim : Y64sim) : Y86.State := ⟨sim.pc,regAt sim.r,sim.m.data⟩

def flags (cc : Byte) : Y86.Flags := ⟨getZf cc,getSf cc,getOf cc⟩

def InBounds (m : Mem) (addr : Word) (n : Nat) : Prop := 0 ≤ addr.toInt ∧ addr.toInt + n ≤ m.len

-- new_y64sim gives the register file at least REG_SIZE bytes, and a length is an int
structure Fits (sim : Y64sim) : Prop where
  regs : 120 ≤ sim.r.len
  mem : sim.m.len < 2 ^ 31

section Access

variable {m r : Mem} {addr val : Word} {n : Nat}

theorem InBounds.toNat (hb : InBounds m addr n) :
    (addr.toNat : Int) + n ≤ m.len := by
  obtain ⟨h1,h2⟩ := hb
  have := addr.isLt
  rw [BitVec.toInt_eq_toNat_cond] at h1 h2
  split at h1 <;> omega

theorem InBounds.sub {k : Nat} (hb : InBounds m addr n) (hl : m.len < 2 ^ 31) {j : Nat}
    (hj : j + k ≤ n) : InBounds m (addr + BitVec.ofNat 64 j) k := by
  have h := hb.toNat
  have ha : (addr + BitVec.ofNat 64 j).toNat = addr.toNat + j := toNat_add_index (by omega)
  rw [InBounds,BitVec.toInt_eq_toNat_of_lt (by omega),ha]
  omega

theorem not_outside (h1 : (addr.toNat : Int) + 8 ≤ m.len) (hn : addr.toNat + 8 < 2 ^ 63) :
    ¬ (addr.toInt < 0 ∨ (addr + 8).toInt > m.len) := by
  have ha : (addr + 8).toNat = addr.toNat + 8 := toNat_add_index (n := 8) (by omega)
  rw [BitVec.toInt_eq_toNat_of_lt (by omega : 2 * addr.toNat < 2 ^ 64),
    BitVec.toInt_eq_toNat_of_lt (by omega),ha]
  omega

theorem getLongVal_eq (hb : InBounds m addr 8) (hl : m.len < 2 ^ 31) :
    getLongVal m addr = some (Y86.load m.data addr) := by
  have h := hb.toNat
  rw [getLongVal,if_neg (not_outside h (by omega)),longBytes_eq (by omega),Y86.load]

theorem setLongVal_eq (hb : InBounds m addr 8) (hl : m.len < 2 ^ 31) :
    setLongVal m addr val = some { m with data := Y86.store m.data addr val } := by
  have h := hb.toNat
  rw [setLongVal,if_neg (not_outside h (by omega)),putBytes_eq (by omega),Y86.store]

theorem getByteVal_eq (hb : InBounds m addr 1) : getByteVal m addr = some (m.data addr.toNat) := by
  rw [getByteVal,if_neg]
  have h1 := hb.1
  have h2 := hb.2
  omega

theorem reg_toNat (id : Y86.Reg) : (BitVec.ofNat 64 (id * 8)).toNat = id * 8 := by
  have := id.isLt
  rw [BitVec.toNat_ofNat]
  omega

theorem getRegVal_eq (hr : 120 ≤ r.len) (id : Y86.Reg) : getRegVal r id = regAt r id := by
  have hid := id.isLt
  have ha := reg_toNat id
  rw [getRegVal,if_neg (by simp only [regNone]; omega),getLongVal,
    if_neg (not_outside (by omega) (by omega)),longBytes_eq (by omega),ha]
  rfl

theorem setRegVal_spec (hr : 120 ≤ r.len) (id : Y86.Reg) (val : Word) :
    regAt (setRegVal r id val) = Function.update (regAt r) id val ∧
      (setRegVal r id val).len = r.len := by
  have hid := id.isLt
  have ha := reg_toNat id
  have hv : val.toNat < 256 ^ 8 := val.isLt
  rw [setRegVal,if_pos (by simp only [regNone]; omega),setLongVal,
    if_neg (not_outside (by omega) (by omega)),putBytes_eq (by omega),ha]
  refine ⟨?_,rfl⟩
  funext x
  rw [Option.getD_some,regAt]
  by_cases hx : x = id
  · subst hx
    rw [Function.update_self,readLE_writeLE_same,Nat.mod_eq_of_lt hv,BitVec.ofNat_toNat,
      BitVec.setWidth_eq]
  · rw [Function.update_of_ne hx,readLE_writeLE_disjoint,regAt]
    have hne : (x : Nat) ≠ id := fun e => hx (Fin.ext e)
    omega

theorem condDoit_eq (cc : Byte) (k : Y86.Cond) : condDoit cc k.code = k.holds (flags cc) := by
  cases k <;> rfl

theorem computeAlu_eq (k : Y86.Alu) (a b : Word) : computeAlu k.code a b = k.eval a b := by
  cases k with
  | add => exact BitVec.add_comm a b
  | sub => rfl
  | and => exact BitVec.and_comm a b
  | xor => exact BitVec.xor_comm a b

end Access

section Fetch

theorem high_eq (b : Byte) : high b = Y86.hi b := by
  have := b.isLt
  rw [high,Y86.hi,Nat.shiftRight_eq_div_pow,show (0xf : Nat) = 2 ^ 4 - 1 from rfl,
    Nat.and_two_pow_sub_one_eq_mod]
  omega

theorem low_eq (b : Byte) : low b = Y86.lo b := by
  rw [low,Y86.lo,show (0xf : Nat) = 2 ^ 4 - 1 from rfl,Nat.and_two_pow_sub_one_eq_mod]

theorem hasRegs_eq (icode : Nat) : Y86.hasRegs icode = !noRegs icode := rfl

variable {sim : Y64sim} {i : Y86.Instr}

def regBytes (icode : Nat) : Nat := if noRegs icode then 0 else 1

def immBytes (icode : Nat) : Nat := if hasImm icode then 8 else 0

theorem length_spelled {icode ifun rA rB : Nat} {c : Word}
    (hs : Y86.Instr.Spells icode ifun rA rB c i) : i.length = 1 + regBytes icode + immBytes icode := by
  cases i with
  | halt | nop | ret | rrmovq k a b | irmovq v b | rmmovq a b d | mrmovq d b a | opq k a b | jxx k d
  | call d | pushq a | popq a =>
    obtain ⟨rfl,_⟩ := hs
    rfl

-- the register fields matter only where there is a register byte, the constant where there is one
theorem spells_read {icode ifun rA rB : Nat} {c : Word}
    (hs : Y86.Instr.Spells icode ifun rA rB c i) :
    Y86.Instr.Spells icode ifun (if noRegs icode then 0 else rA) (if noRegs icode then 0 else rB)
      (if hasImm icode then c else 0) i := by
  cases i with
  | halt | nop | ret | rrmovq k a b | irmovq v b | rmmovq a b d | mrmovq d b a | opq k a b | jxx k d
  | call d | pushq a | popq a =>
    obtain ⟨rfl,hs⟩ := hs
    exact ⟨rfl,hs⟩

theorem fetchRegs_eq {m : Mem} {icode : Nat} {pc : Word} (hb : InBounds m pc (regBytes icode)) :
    fetchRegs m icode pc = .ok (if noRegs icode then 0 else Y86.hi (m.data pc.toNat),
      if noRegs icode then 0 else Y86.lo (m.data pc.toNat),pc + BitVec.ofNat 64 (regBytes icode)) := by
  rw [fetchRegs]
  rw [regBytes] at hb ⊢
  split
  · simp
  · rename_i h
    rw [if_neg h] at hb
    rw [getByteVal_eq hb]
    simp only [high_eq,low_eq]
    rfl

theorem fetchImm_eq {m : Mem} {icode : Nat} {pc : Word} (hb : InBounds m pc (immBytes icode))
    (hl : m.len < 2 ^ 31) : fetchImm m icode pc =
      .ok (if hasImm icode then Y86.constAt m.data pc.toNat else 0,
        pc + BitVec.ofNat 64 (immBytes icode)) := by
  rw [fetchImm]
  rw [immBytes] at hb ⊢
  split
  · rename_i h
    rw [if_pos h] at hb
    rw [getLongVal_eq hb hl]
    rfl
  · simp

theorem fetch_eq (hl : sim.m.len < 2 ^ 31) (hd : Y86.decode sim.m.data sim.pc.toNat = some i)
    (hc : InBounds sim.m sim.pc i.length) : ∃ icode ifun rA rB c,
      fetch sim = .ok ⟨icode,ifun,rA,rB,c,sim.pc + BitVec.ofNat 64 i.length⟩ ∧
      Y86.Instr.Spells icode ifun rA rB c i := by
  have hs := Y86.Instr.ofFields_eq_some.mp hd
  have hlen := length_spelled hs
  obtain ⟨icode,hic⟩ : ∃ icode, Y86.hi (sim.m.data sim.pc.toNat) = icode := ⟨_,rfl⟩
  rw [hic] at hs hlen
  have hr : regBytes icode ≤ 1 := by
    rw [regBytes]
    split <;> omega
  have hn := hc.toNat
  have h1 : (sim.pc + 1).toNat = sim.pc.toNat + 1 := toNat_add_index (n := 1) (by omega)
  have h2 : (sim.pc + 1 + BitVec.ofNat 64 (regBytes icode)).toNat =
      sim.pc.toNat + if Y86.hasRegs icode then 2 else 1 := by
    rw [toNat_add_index (by omega),h1,hasRegs_eq,regBytes]
    cases noRegs icode <;> rfl
  have e0 : getByteVal sim.m sim.pc = some (sim.m.data sim.pc.toNat) :=
    getByteVal_eq ⟨hc.1,by have := hc.2; omega⟩
  have hb1 : InBounds sim.m (sim.pc + 1) (regBytes icode) := hc.sub hl (j := 1) (by omega)
  have hb2 : InBounds sim.m (sim.pc + 1 + BitVec.ofNat 64 (regBytes icode)) (immBytes icode) := by
    rw [show (1 : Word) = BitVec.ofNat 64 1 from rfl,BitVec.add_assoc,← BitVec.ofNat_add]
    exact hc.sub hl (by omega)
  have hnext : sim.pc + 1 + BitVec.ofNat 64 (regBytes icode) + BitVec.ofNat 64 (immBytes icode) =
      sim.pc + BitVec.ofNat 64 i.length := by
    rw [hlen,BitVec.ofNat_add,BitVec.ofNat_add,← BitVec.add_assoc,← BitVec.add_assoc]
    rfl
  refine ⟨_,_,_,_,_,?_,spells_read hs⟩
  simp only [fetch,e0,high_eq,low_eq,hic,fetchRegs_eq hb1,bind,Except.bind,fetchImm_eq hb2 hl,hnext,
    h1,h2]
  rfl

end Fetch

-- what one call of nexti has to show for the instruction i
structure Refines (sim : Y64sim) (i : Y86.Instr) (out : Stat × Y64sim) : Prop where
  stat : out.1 = if i = .halt then .hlt else .aok
  view : view out.2 = i.exec (flags sim.cc) (view sim)
  halt : i = .halt → out.2 = sim
  fits : Fits out.2

section Execute

variable {sim : Y64sim} {i : Y86.Instr} {next : Word}

theorem Refines.of_aok {sim' : Y64sim} (hi : i ≠ .halt)
    (hv : Sim.view sim' = i.exec (flags sim.cc) (Sim.view sim)) (hf : Fits sim') :
    Refines sim i (.aok,sim') :=
  ⟨(if_neg hi).symm,hv,fun h => absurd h hi,hf⟩

theorem regRsp_eq : regRsp = (Y86.rsp : Nat) := rfl

theorem execute_spec (hf : Fits sim) {f : Fetched}
    (hs : Y86.Instr.Spells f.icode f.ifun f.raid f.rbid f.addr i)
    (hp : f.nextPc = sim.pc + BitVec.ofNat 64 i.length)
    (ha : ∀ a, i.dataAddr (view sim) = some a → InBounds sim.m a 8) :
    Refines sim i (execute f sim) := by
  obtain ⟨icode,ifun,rA,rB,c,next⟩ := f
  simp only at hs hp
  have hget (id : Y86.Reg) := getRegVal_eq hf.regs id
  have hset (id : Y86.Reg) (v : Word) := setRegVal_spec hf.regs id v
  cases i with
  | halt =>
    obtain ⟨rfl,rfl⟩ := hs
    exact ⟨rfl,rfl,fun _ => rfl,hf⟩
  | nop =>
    obtain ⟨rfl,rfl⟩ := hs
    exact .of_aok (by simp) (by subst hp; rfl) ⟨hf.regs,hf.mem⟩
  | rrmovq k a b =>
    obtain ⟨rfl,rfl,rfl,rfl⟩ := hs
    have he : execute ⟨2,k.code,a,b,c,next⟩ sim = (.aok,{ sim with
      r := if condDoit sim.cc k.code then setRegVal sim.r b (getRegVal sim.r a) else sim.r
      pc := next }) := rfl
    rw [he,condDoit_eq,hget]
    refine .of_aok (by simp) ?_ ⟨?_,hf.mem⟩
    · subst hp
      cases hk : k.holds (flags sim.cc) with
      | true => simp [view,Y86.Instr.exec,hk,(hset b (regAt sim.r a)).1]
      | false => simp [view,Y86.Instr.exec,hk]
    · cases k.holds (flags sim.cc) with
      | true => exact ((hset b _).2).symm ▸ hf.regs
      | false => exact hf.regs
  | irmovq v b =>
    obtain ⟨rfl,rfl,rfl,rfl⟩ := hs
    have he : execute ⟨3,0,rA,b,c,next⟩ sim =
        (.aok,{ sim with r := setRegVal sim.r b c, pc := next }) := rfl
    rw [he]
    refine .of_aok (by simp) ?_ ⟨((hset b c).2).symm ▸ hf.regs,hf.mem⟩
    subst hp
    simp only [view,Y86.Instr.exec,(hset b c).1]
  | rmmovq a b d =>
    obtain ⟨rfl,rfl,rfl,rfl,rfl⟩ := hs
    have hb := ha _ rfl
    simp only [view] at hb
    rw [execute_rmmovq,hget,hget,setLongVal_eq hb hf.mem]
    refine .of_aok (by simp) ?_ ⟨hf.regs,hf.mem⟩
    subst hp
    rfl
  | mrmovq d b a =>
    obtain ⟨rfl,rfl,rfl,rfl,rfl⟩ := hs
    have hb := ha _ rfl
    simp only [view] at hb
    rw [execute_mrmovq,hget,getLongVal_eq hb hf.mem]
    refine .of_aok (by simp) ?_ ⟨((hset a _).2).symm ▸ hf.regs,hf.mem⟩
    subst hp
    simp only [view,Y86.Instr.exec,(hset a _).1]
  | opq k a b =>
    obtain ⟨rfl,rfl,rfl,rfl⟩ := hs
    have hk : ¬ aNone ≤ k.code := by cases k <;> decide
    have he : execute ⟨6,k.code,a,b,c,next⟩ sim =
        if aNone ≤ k.code then (.ins,sim)
        else (.aok,{ sim with
          cc := computeCc k.code (getRegVal sim.r a) (getRegVal sim.r b)
            (computeAlu k.code (getRegVal sim.r a) (getRegVal sim.r b))
          r := setRegVal sim.r b (computeAlu k.code (getRegVal sim.r a) (getRegVal sim.r b))
          pc := next }) := rfl
    rw [he,if_neg hk,hget,hget,computeAlu_eq]
    refine .of_aok (by simp) ?_ ⟨((hset b _).2).symm ▸ hf.regs,hf.mem⟩
    subst hp
    simp only [view,Y86.Instr.exec,(hset b _).1]
  | jxx k d =>
    obtain ⟨rfl,rfl,rfl⟩ := hs
    have hk : ¬ cG < k.code := by cases k <;> decide
    have he : execute ⟨7,k.code,rA,rB,c,next⟩ sim =
        if cG < k.code then (.ins,sim)
        else (.aok,{ sim with pc := if condDoit sim.cc k.code then c else next }) := rfl
    rw [he,if_neg hk,condDoit_eq]
    refine .of_aok (by simp) ?_ ⟨hf.regs,hf.mem⟩
    subst hp
    rfl
  | call d =>
    obtain ⟨rfl,rfl,rfl⟩ := hs
    have hb := ha _ rfl
    simp only [view] at hb
    rw [execute_call,regRsp_eq,hget,setLongVal_eq hb hf.mem]
    refine .of_aok (by simp) ?_ ⟨((hset Y86.rsp _).2).symm ▸ hf.regs,hf.mem⟩
    subst hp
    simp only [view,Y86.Instr.exec,(hset Y86.rsp _).1]
  | ret =>
    obtain ⟨rfl,rfl⟩ := hs
    have hb := ha _ rfl
    simp only [view] at hb
    rw [execute_ret,regRsp_eq,hget,getLongVal_eq hb hf.mem]
    refine .of_aok (by simp) ?_ ⟨((hset Y86.rsp _).2).symm ▸ hf.regs,hf.mem⟩
    simp only [view,Y86.Instr.exec,(hset Y86.rsp _).1,BitVec.add_comm]
  | pushq a =>
    obtain ⟨rfl,rfl,rfl⟩ := hs
    have hb := ha _ rfl
    simp only [view] at hb
    rw [execute_pushq,regRsp_eq,hget,hget,setLongVal_eq hb hf.mem]
    refine .of_aok (by simp) ?_ ⟨((hset Y86.rsp _).2).symm ▸ hf.regs,hf.mem⟩
    subst hp
    simp only [view,Y86.Instr.exec,(hset Y86.rsp _).1]
  | popq a =>
    obtain ⟨rfl,rfl,rfl⟩ := hs
    have hb := ha _ rfl
    simp only [view] at hb
    rw [execute_popq,regRsp_eq,hget,getLongVal_eq hb hf.mem]
    -- the popped value is written last, so popq %rsp keeps it
    obtain ⟨h1,h2⟩ := hset Y86.rsp (8 + regAt sim.r Y86.rsp)
    obtain ⟨h3,h4⟩ := setRegVal_spec (h2.symm ▸ hf.regs) a
      (Y86.load sim.m.data (regAt sim.r Y86.rsp))
    refine .of_aok (by simp) ?_ ⟨(h4.trans h2).symm ▸ hf.regs,hf.mem⟩
    subst hp
    simp only [view,Y86.Instr.exec,h3,h1,BitVec.add_comm]

end Execute

theorem nexti_exec {sim : Y64sim} {i : Y86.Instr} (hf : Fits sim)
    (hd : Y86.decode sim.m.data sim.pc.toNat = some i) (hc : InBounds sim.m sim.pc i.length)
    (ha : ∀ a, i.dataAddr (view sim) = some a → InBounds sim.m a 8) :
    (nexti sim).1 = (if i = .halt then .hlt else .aok) ∧
      view (nexti sim).2 = i.exec (flags sim.cc) (view sim) ∧
      (i = .halt → (nexti sim).2 = sim) ∧ Fits (nexti sim).2 := by
  obtain ⟨icode,ifun,rA,rB,c,he,hs⟩ := fetch_eq hf.mem hd hc
  have hr := execute_spec (f := ⟨icode,ifun,rA,rB,c,_⟩) hf hs rfl ha
  rw [nexti,he]
  exact ⟨hr.stat,hr.view,hr.halt,hr.fits⟩

-- popq %rsp at address 0, with %rsp = 16 and the word 77 there
def popRsp : Y64sim where
  pc := 0
  r := ⟨128,fun x => if x = 32 then 16 else 0⟩
  m := ⟨64,fun x => if x = 0 then 0xb0 else if x = 1 then 0x4f else if x = 16 then 77 else 0⟩
  cc := 4

theorem nexti_exec_popq_rsp : (nexti popRsp).1 = .aok ∧
    view (nexti popRsp).2 = (Y86.Instr.popq Y86.rsp).exec (flags 4) (view popRsp) := by
  have h := @nexti_exec popRsp (.popq Y86.rsp) ⟨by decide,by decide⟩ (by decide +kernel)
    ⟨by decide,by decide⟩ fun a ha => by
      obtain rfl := Option.some.inj ha
      exact ⟨by decide +kernel,by decide +kernel⟩
  exact ⟨h.1,h.2.1⟩

end Sim
