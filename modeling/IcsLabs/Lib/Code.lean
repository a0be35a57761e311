import IcsLabs.Lib.Y86
import Mathlib.Logic.Relation

namespace Y86
open Bytes

inductive Op where
  | base (i : Instr)
  | iaddq (v : Word) (rB : Reg)
deriving DecidableEq

structure Machine extends State where
  cc : Flags

namespace Op

def length : Op → Nat
  | base i => i.length
  | iaddq .. => 10

def exec (op : Op) (s : Machine) : Machine :=
  match op with
  | base i => { i.exec s.cc s.toState with cc := i.flags s.cc s.toState }
  | iaddq v r =>
    { pc := s.pc + 10
      reg := Function.update s.reg r (s.reg r + v)
      mem := s.mem
      cc := Flags.ofAlu .add v (s.reg r) }

end Op

def decodeOp (m : Nat → Byte) (a : Nat) : Option Op :=
  if hi (m a) = 12 ∧ lo (m a) = 0 then
    (Instr.regOf (lo (m (a + 1)))).map (Op.iaddq (constAt m (a + 2)))
  else (decode m a).map Op.base

def encodeOp : Op → List Byte
  | .base i => encode i
  | .iaddq v r => pack 12 0 :: pack 15 r :: bytesOf 8 v.toNat

inductive Step : Machine → Machine → Prop where
  | op {s : Machine} {op : Op} (hd : decodeOp s.mem s.pc.toNat = some op) (hh : op ≠ .base .halt) :
    Step s (op.exec s)

abbrev Reaches : Machine → Machine → Prop := Relation.ReflTransGen Step

theorem length_encodeOp (op : Op) : (encodeOp op).length = op.length := by
  cases op with
  | base i => exact i.length_encode
  | iaddq v r => simp [encodeOp,Op.length,length_bytesOf]

theorem Op.length_pos (op : Op) : 0 < op.length := by
  cases op with
  | base i => cases i <;> simp [Op.length,Instr.length]
  | iaddq v r => simp [Op.length]

theorem Instr.Spells.icode_lt {icode ifun rA rB : Nat} {c : Word} {i : Instr}
    (h : Spells icode ifun rA rB c i) : icode < 12 := by
  cases i <;> simp only [Spells] at h <;> omega

theorem decodeOp_encode {m : Nat → Byte} {a : Nat} {op : Op} (h : Holds m a (encodeOp op)) :
    decodeOp m a = some op := by
  cases op with
  | base i =>
    have hd : decode m a = some i := decode_encode h
    have hi : hi (m a) < 12 := (Instr.ofFields_eq_some.mp hd).icode_lt
    rw [decodeOp,if_neg (by omega),hd]
    rfl
  | iaddq v r =>
    obtain ⟨h1,h2⟩ := holds_cons.mp h
    obtain ⟨h2,h3⟩ := holds_cons.mp h2
    rw [decodeOp,h1,h2,if_pos ⟨hi_pack (by decide) (by decide),lo_pack (by decide)⟩,lo_pack r.lt,
      Instr.regOf_eq_some.mpr rfl,constAt_of_holds h3]
    rfl

section Conditions

theorem toInt_add_cases (a b : Word) :
    (b + a).toInt = b.toInt + a.toInt ∨
      ((a.toInt < 0 ↔ b.toInt < 0) ∧ ((b + a).toInt < 0 ↔ ¬ b.toInt < 0)) := by
  have ha := a.isLt
  have hb := b.isLt
  simp only [BitVec.toInt_eq_toNat_cond,BitVec.toNat_add]
  omega

theorem holds_l_add (a b : Word) :
    Cond.l.holds (Flags.ofAlu .add a b) = decide (b.toInt + a.toInt < 0) := by
  simp only [Cond.holds,Flags.ofAlu,Alu.eval,BitVec.msb_eq_toInt]
  obtain h | ⟨h1,h2⟩ := toInt_add_cases a b
  · rw [h]
    by_cases ha : a.toInt < 0 <;> by_cases hb : b.toInt < 0 <;> simp [ha,hb] <;> omega
  · simp only [h1,h2]
    by_cases hb : b.toInt < 0 <;> simp [hb] <;> omega

theorem holds_ge (f : Flags) : Cond.ge.holds f = !Cond.l.holds f := rfl

theorem holds_le_and (a : Word) :
    Cond.le.holds (Flags.ofAlu .and a a) = decide (a.toInt ≤ 0) := by
  simp only [Cond.holds,Flags.ofAlu,Alu.eval,BitVec.and_self,BitVec.msb_eq_toInt,Bool.xor_false]
  by_cases h : a = 0
  · subst h
    decide
  · have h0 : a.toInt ≠ 0 := fun h' => h (BitVec.eq_of_toInt_eq h')
    rw [beq_false_of_ne h,Bool.or_false,decide_eq_decide]
    omega

end Conditions

section Programs

def size (ops : List Op) : Nat := (ops.map Op.length).sum

def code (ops : List Op) : List Byte := ops.flatMap encodeOp

def addr (start : Word) (ops : List Op) : Word := start + BitVec.ofNat 64 (size ops)

structure Ready (prog : List Op) (start : Word) (m : Nat → Byte) : Prop where
  fits : start.toNat + size prog ≤ 2 ^ 64
  holds : Holds m start.toNat (code prog)

theorem size_append (xs ys : List Op) : size (xs ++ ys) = size xs + size ys := by
  simp [size]

theorem length_code (ops : List Op) : (code ops).length = size ops := by
  induction ops with
  | nil => rfl
  | cons op ops ih =>
    have h := length_encodeOp op
    simp only [code,size,List.flatMap_cons,List.length_append,List.map_cons,List.sum_cons] at ih ⊢
    omega

theorem addr_append (start : Word) (xs ys : List Op) :
    addr start (xs ++ ys) = addr start xs + BitVec.ofNat 64 (size ys) := by
  rw [addr,addr,size_append,BitVec.ofNat_add,BitVec.add_assoc]

theorem holds_append {m : Nat → Byte} {a : Nat} {xs ys : List Byte} :
    Holds m a (xs ++ ys) ↔ Holds m a xs ∧ Holds m (a + xs.length) ys := by
  induction xs generalizing a with
  | nil => simp [Holds]
  | cons x xs ih =>
    rw [List.cons_append,holds_cons,ih,holds_cons,List.length_cons,and_assoc,
      show a + (xs.length + 1) = a + 1 + xs.length by omega]

variable {prog pre post : List Op} {op : Op} {start : Word} {m m' : Nat → Byte} {s : Machine}

theorem Ready.congr (h : Ready prog start m)
    (hm : ∀ x, start.toNat ≤ x → x < start.toNat + size prog → m' x = m x) :
    Ready prog start m' := by
  refine ⟨h.fits,fun k hk => ?_⟩
  have hk' : k < size prog := length_code prog ▸ hk
  rw [hm _ (by omega) (by omega)]
  exact h.holds k hk

theorem Ready.decode (h : Ready prog start m) (hp : prog = pre ++ op :: post) :
    decodeOp m (addr start pre).toNat = some op := by
  subst hp
  have hl := op.length_pos
  have hf := h.fits
  have hs : size (op :: post) = op.length + size post := by simp [size]
  rw [size_append,hs] at hf
  have ha : (addr start pre).toNat = start.toNat + (code pre).length := by
    rw [length_code,addr,BitVec.toNat_add,BitVec.toNat_ofNat]
    omega
  have hc := h.holds
  rw [code,List.flatMap_append,holds_append] at hc
  have ho := hc.2
  rw [List.flatMap_cons,holds_append] at ho
  exact decodeOp_encode (ha ▸ ho.1)

theorem Ready.step (post : List Op) (h : Ready prog start s.mem) (hp : prog = pre ++ op :: post)
    (hpc : s.pc = addr start pre) (hh : op ≠ .base .halt) : Reaches s (op.exec s) := by
  have hd : decodeOp s.mem s.pc.toNat = some op := hpc ▸ h.decode hp
  exact .single (.op hd hh)

end Programs

end Y86
