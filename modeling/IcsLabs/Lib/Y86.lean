import IcsLabs.Lib.Bytes
import Mathlib.Logic.Function.Basic

namespace Y86
open Bytes

abbrev Word := BitVec 64

abbrev Reg := Fin 15

def rax : Reg := 0
def rdx : Reg := 2
def rbx : Reg := 3
def rsp : Reg := 4
def rsi : Reg := 6
def rdi : Reg := 7
def r8 : Reg := 8
def r9 : Reg := 9
def r10 : Reg := 10
def r11 : Reg := 11
def r12 : Reg := 12
def r13 : Reg := 13
def r14 : Reg := 14

inductive Cond where
  | yes
  | le
  | l
  | e
  | ne
  | ge
  | g
deriving DecidableEq

inductive Alu where
  | add
  | sub
  | and
  | xor
deriving DecidableEq

inductive Instr where
  | halt
  | nop
  | rrmovq (c : Cond) (rA rB : Reg)
  | irmovq (v : Word) (rB : Reg)
  | rmmovq (rA rB : Reg) (d : Word)
  | mrmovq (d : Word) (rB rA : Reg)
  | opq (op : Alu) (rA rB : Reg)
  | jxx (c : Cond) (dest : Word)
  | call (dest : Word)
  | ret
  | pushq (rA : Reg)
  | popq (rA : Reg)
deriving DecidableEq

structure Flags where
  zf : Bool
  sf : Bool
  of : Bool

structure State where
  pc : Word
  reg : Reg → Word
  mem : Nat → Byte

namespace Cond

def holds (f : Flags) : Cond → Bool
  | yes => true
  | le => (f.sf ^^ f.of) || f.zf
  | l => f.sf ^^ f.of
  | e => f.zf
  | ne => !f.zf
  | ge => !(f.sf ^^ f.of)
  | g => !(f.sf ^^ f.of) && !f.zf

def code : Cond → Nat
  | yes => 0
  | le => 1
  | l => 2
  | e => 3
  | ne => 4
  | ge => 5
  | g => 6

def ofCode : Nat → Option Cond
  | 0 => some yes
  | 1 => some le
  | 2 => some l
  | 3 => some e
  | 4 => some ne
  | 5 => some ge
  | 6 => some g
  | _ => none

end Cond

namespace Alu

def eval (a b : Word) : Alu → Word
  | add => b + a
  | sub => b - a
  | and => b &&& a
  | xor => b ^^^ a

def code : Alu → Nat
  | add => 0
  | sub => 1
  | and => 2
  | xor => 3

def ofCode : Nat → Option Alu
  | 0 => some add
  | 1 => some sub
  | 2 => some and
  | 3 => some xor
  | _ => none

end Alu

-- the flags of a 64-bit operation
def Flags.ofAlu (op : Alu) (a b : Word) : Flags :=
  let r := op.eval a b
  { zf := r == 0
    sf := r.msb
    of := match op with
      | .add => a.msb == b.msb && r.msb != b.msb
      | .sub => a.msb != b.msb && r.msb != b.msb
      | .and | .xor => false }

def load (m : Nat → Byte) (a : Word) : Word := BitVec.ofNat 64 (readLE m a.toNat 8)

def store (m : Nat → Byte) (a v : Word) : Nat → Byte := writeLE m a.toNat 8 v.toNat

namespace Instr

def length : Instr → Nat
  | halt | nop | ret => 1
  | rrmovq .. | opq .. | pushq _ | popq _ => 2
  | jxx .. | call _ => 9
  | irmovq .. | rmmovq .. | mrmovq .. => 10

-- the address of the eight data bytes an instruction reads or writes
def dataAddr (s : State) : Instr → Option Word
  | rmmovq _ rB d => some (s.reg rB + d)
  | mrmovq d rB _ => some (s.reg rB + d)
  | call _ | pushq _ => some (s.reg rsp - 8)
  | ret | popq _ => some (s.reg rsp)
  | _ => none

def exec (f : Flags) (i : Instr) (s : State) : State :=
  let next := s.pc + BitVec.ofNat 64 i.length
  match i with
  | halt => s
  | nop => { s with pc := next }
  | rrmovq c rA rB =>
    { s with pc := next, reg := if c.holds f then Function.update s.reg rB (s.reg rA) else s.reg }
  | irmovq v rB => { s with pc := next, reg := Function.update s.reg rB v }
  | rmmovq rA rB d => { s with pc := next, mem := store s.mem (s.reg rB + d) (s.reg rA) }
  | mrmovq d rB rA =>
    { s with pc := next, reg := Function.update s.reg rA (load s.mem (s.reg rB + d)) }
  | opq op rA rB =>
    { s with pc := next, reg := Function.update s.reg rB (op.eval (s.reg rA) (s.reg rB)) }
  | jxx c dest => { s with pc := if c.holds f then dest else next }
  | call dest =>
    { pc := dest
      reg := Function.update s.reg rsp (s.reg rsp - 8)
      mem := store s.mem (s.reg rsp - 8) next }
  | ret =>
    { s with pc := load s.mem (s.reg rsp), reg := Function.update s.reg rsp (s.reg rsp + 8) }
  | pushq rA =>
    { pc := next
      reg := Function.update s.reg rsp (s.reg rsp - 8)
      mem := store s.mem (s.reg rsp - 8) (s.reg rA) }
  | popq rA =>
    { s with
      pc := next
      reg := Function.update (Function.update s.reg rsp (s.reg rsp + 8)) rA
        (load s.mem (s.reg rsp)) }

def flags (f : Flags) (i : Instr) (s : State) : Flags :=
  match i with
  | .opq op rA rB => Flags.ofAlu op (s.reg rA) (s.reg rB)
  | _ => f

def regOf (n : Nat) : Option Reg := if h : n < 15 then some ⟨n,h⟩ else none

-- the instruction with these code nibbles, register nibbles and constant word
def ofFields (icode ifun rA rB : Nat) (c : Word) : Option Instr :=
  match icode,ifun with
  | 0,0 => some halt
  | 1,0 => some nop
  | 2,fn => (Cond.ofCode fn).bind fun k =>
      (regOf rA).bind fun a => (regOf rB).map fun b => rrmovq k a b
  | 3,0 => (regOf rB).map fun b => irmovq c b
  | 4,0 => (regOf rA).bind fun a => (regOf rB).map fun b => rmmovq a b c
  | 5,0 => (regOf rA).bind fun a => (regOf rB).map fun b => mrmovq c b a
  | 6,fn => (Alu.ofCode fn).bind fun k =>
      (regOf rA).bind fun a => (regOf rB).map fun b => opq k a b
  | 7,fn => (Cond.ofCode fn).map fun k => jxx k c
  | 8,0 => some (call c)
  | 9,0 => some ret
  | 10,0 => (regOf rA).map pushq
  | 11,0 => (regOf rA).map popq
  | _,_ => none

end Instr

def hi (b : Byte) : Nat := b.toNat / 16
def lo (b : Byte) : Nat := b.toNat % 16

-- a register byte stands between the opcode and the constant
def hasRegs (icode : Nat) : Bool := !(icode == 0 || icode == 1 || icode == 7 || icode == 8 || icode == 9)

def constAt (m : Nat → Byte) (a : Nat) : Word := BitVec.ofNat 64 (readLE m a 8)

def decode (m : Nat → Byte) (a : Nat) : Option Instr :=
  Instr.ofFields (hi (m a)) (lo (m a)) (hi (m (a + 1))) (lo (m (a + 1)))
    (constAt m (a + if hasRegs (hi (m a)) then 2 else 1))

def pack (h l : Nat) : Byte := BitVec.ofNat 8 (16 * h + l)

def bytesOf (n v : Nat) : List Byte := (List.range n).map fun k => BitVec.ofNat 8 (v / 256 ^ k)

def encode : Instr → List Byte
  | .halt => [pack 0 0]
  | .nop => [pack 1 0]
  | .rrmovq k a b => [pack 2 k.code,pack a b]
  | .irmovq v b => pack 3 0 :: pack 15 b :: bytesOf 8 v.toNat
  | .rmmovq a b d => pack 4 0 :: pack a b :: bytesOf 8 d.toNat
  | .mrmovq d b a => pack 5 0 :: pack a b :: bytesOf 8 d.toNat
  | .opq k a b => [pack 6 k.code,pack a b]
  | .jxx k d => pack 7 k.code :: bytesOf 8 d.toNat
  | .call d => pack 8 0 :: bytesOf 8 d.toNat
  | .ret => [pack 9 0]
  | .pushq a => [pack 10 0,pack a 15]
  | .popq a => [pack 11 0,pack a 15]

def Holds (m : Nat → Byte) (a : Nat) (bs : List Byte) : Prop :=
  ∀ k (hk : k < bs.length), m (a + k) = bs[k]

section Fields

theorem Cond.ofCode_eq_some {n : Nat} {k : Cond} : ofCode n = some k ↔ n = k.code := by
  constructor
  · intro h
    unfold ofCode at h
    split at h <;> cases h <;> rfl
  · rintro rfl
    cases k <;> rfl

theorem Alu.ofCode_eq_some {n : Nat} {k : Alu} : ofCode n = some k ↔ n = k.code := by
  constructor
  · intro h
    unfold ofCode at h
    split at h <;> cases h <;> rfl
  · rintro rfl
    cases k <;> rfl

namespace Instr

theorem regOf_eq_some {n : Nat} {r : Reg} : regOf n = some r ↔ n = r := by
  simp only [regOf]
  split
  · simp [Fin.ext_iff]
  · constructor
    · simp
    · rintro rfl
      exact absurd r.isLt (by assumption)

-- what the nibbles and the constant of each instruction are
def Spells (icode ifun rA rB : Nat) (c : Word) : Instr → Prop
  | halt => icode = 0 ∧ ifun = 0
  | nop => icode = 1 ∧ ifun = 0
  | rrmovq k a b => icode = 2 ∧ ifun = k.code ∧ rA = a ∧ rB = b
  | irmovq v b => icode = 3 ∧ ifun = 0 ∧ rB = b ∧ c = v
  | rmmovq a b d => icode = 4 ∧ ifun = 0 ∧ rA = a ∧ rB = b ∧ c = d
  | mrmovq d b a => icode = 5 ∧ ifun = 0 ∧ rA = a ∧ rB = b ∧ c = d
  | opq k a b => icode = 6 ∧ ifun = k.code ∧ rA = a ∧ rB = b
  | jxx k d => icode = 7 ∧ ifun = k.code ∧ c = d
  | call d => icode = 8 ∧ ifun = 0 ∧ c = d
  | ret => icode = 9 ∧ ifun = 0
  | pushq a => icode = 10 ∧ ifun = 0 ∧ rA = a
  | popq a => icode = 11 ∧ ifun = 0 ∧ rA = a

theorem ofFields_eq_some {icode ifun rA rB : Nat} {c : Word} {i : Instr} :
    ofFields icode ifun rA rB c = some i ↔ Spells icode ifun rA rB c i := by
  constructor
  · intro h
    unfold ofFields at h
    split at h
    all_goals
      simp only [Option.some.injEq,Option.map_eq_some_iff,Option.bind_eq_some_iff,
        Cond.ofCode_eq_some,Alu.ofCode_eq_some,regOf_eq_some,reduceCtorEq] at h
    · subst h
      exact ⟨rfl,rfl⟩
    · subst h
      exact ⟨rfl,rfl⟩
    · obtain ⟨k,rfl,a,rfl,b,rfl,rfl⟩ := h
      exact ⟨rfl,rfl,rfl,rfl⟩
    · obtain ⟨b,rfl,rfl⟩ := h
      exact ⟨rfl,rfl,rfl,rfl⟩
    · obtain ⟨a,rfl,b,rfl,rfl⟩ := h
      exact ⟨rfl,rfl,rfl,rfl,rfl⟩
    · obtain ⟨a,rfl,b,rfl,rfl⟩ := h
      exact ⟨rfl,rfl,rfl,rfl,rfl⟩
    · obtain ⟨k,rfl,a,rfl,b,rfl,rfl⟩ := h
      exact ⟨rfl,rfl,rfl,rfl⟩
    · obtain ⟨k,rfl,rfl⟩ := h
      exact ⟨rfl,rfl,rfl⟩
    · subst h
      exact ⟨rfl,rfl,rfl⟩
    · subst h
      exact ⟨rfl,rfl⟩
    · obtain ⟨a,rfl,rfl⟩ := h
      exact ⟨rfl,rfl,rfl⟩
    · obtain ⟨a,rfl,rfl⟩ := h
      exact ⟨rfl,rfl,rfl⟩
  · intro h
    have hr (r : Reg) : regOf r = some r := regOf_eq_some.mpr rfl
    have hc (k : Cond) : Cond.ofCode k.code = some k := Cond.ofCode_eq_some.mpr rfl
    have ha (k : Alu) : Alu.ofCode k.code = some k := Alu.ofCode_eq_some.mpr rfl
    cases i with
    | halt | nop | ret =>
      obtain ⟨rfl,rfl⟩ := h
      rfl
    | call d =>
      obtain ⟨rfl,rfl,rfl⟩ := h
      rfl
    | rrmovq k a b | opq k a b =>
      obtain ⟨rfl,rfl,rfl,rfl⟩ := h
      simp [ofFields,hr,hc,ha]
    | irmovq v b =>
      obtain ⟨rfl,rfl,rfl,rfl⟩ := h
      simp [ofFields,hr]
    | rmmovq a b d | mrmovq d b a =>
      obtain ⟨rfl,rfl,rfl,rfl,rfl⟩ := h
      simp [ofFields,hr]
    | jxx k d =>
      obtain ⟨rfl,rfl,rfl⟩ := h
      simp [ofFields,hc]
    | pushq a | popq a =>
      obtain ⟨rfl,rfl,rfl⟩ := h
      simp [ofFields,hr]

end Instr

theorem Cond.code_lt (k : Cond) : k.code < 16 := by cases k <;> decide

theorem Alu.code_lt (k : Alu) : k.code < 16 := by cases k <;> decide

theorem hi_pack {h l : Nat} (hh : h < 16) (hl : l < 16) : hi (pack h l) = h := by
  rw [hi,pack,BitVec.toNat_ofNat]
  omega

theorem lo_pack {h l : Nat} (hl : l < 16) : lo (pack h l) = l := by
  rw [lo,pack,BitVec.toNat_ofNat]
  omega

theorem length_bytesOf (n v : Nat) : (bytesOf n v).length = n := by simp [bytesOf]

theorem Instr.length_encode (i : Instr) : (encode i).length = i.length := by
  cases i <;> simp [encode,Instr.length,length_bytesOf]

variable {m : Nat → Byte} {a : Nat} {b : Byte} {bs : List Byte} {v : Word}

theorem holds_cons : Holds m a (b :: bs) ↔ m a = b ∧ Holds m (a + 1) bs := by
  constructor
  · intro h
    refine ⟨h 0 (by simp),fun k hk => ?_⟩
    have := h (k + 1) (by simpa using hk)
    rwa [show a + (k + 1) = a + 1 + k by omega] at this
  · rintro ⟨h1,h2⟩ k hk
    cases k with
    | zero => exact h1
    | succ k =>
      have := h2 k (by simpa using hk)
      rwa [show a + 1 + k = a + (k + 1) by omega] at this

theorem constAt_of_holds (h : Holds m a (bytesOf 8 v.toNat)) : constAt m a = v := by
  have hr := readLE_of_digits (m := m) (a := a) (n := 8) (v := v.toNat) fun i hi => by
    rw [h i (by simpa [bytesOf] using hi)]
    simp [bytesOf]
  have hv : v.toNat < 256 ^ 8 := v.isLt
  rw [constAt,hr,Nat.mod_eq_of_lt hv,BitVec.ofNat_toNat,BitVec.setWidth_eq]

theorem Reg.lt (r : Reg) : (r : Nat) < 16 := r.isLt.trans (by decide)

theorem decode_encode {i : Instr} (h : Holds m a (encode i)) : decode m a = some i := by
  rw [decode,Instr.ofFields_eq_some]
  cases i with
  | halt | nop | ret =>
    obtain ⟨h1,_⟩ := holds_cons.mp h
    rw [h1]
    exact ⟨hi_pack (by decide) (by decide),lo_pack (by decide)⟩
  | rrmovq k x y | opq k x y =>
    obtain ⟨h1,h2⟩ := holds_cons.mp h
    rw [h1,(holds_cons.mp h2).1]
    exact ⟨hi_pack (by decide) k.code_lt,lo_pack k.code_lt,hi_pack x.lt y.lt,
      lo_pack y.lt⟩
  | irmovq d y =>
    obtain ⟨h1,h2⟩ := holds_cons.mp h
    obtain ⟨h2,h3⟩ := holds_cons.mp h2
    rw [h1,h2]
    exact ⟨hi_pack (by decide) (by decide),lo_pack (by decide),lo_pack y.lt,
      constAt_of_holds h3⟩
  | rmmovq x y d | mrmovq d y x =>
    obtain ⟨h1,h2⟩ := holds_cons.mp h
    obtain ⟨h2,h3⟩ := holds_cons.mp h2
    rw [h1,h2]
    exact ⟨hi_pack (by decide) (by decide),lo_pack (by decide),hi_pack x.lt y.lt,
      lo_pack y.lt,constAt_of_holds h3⟩
  | jxx k d =>
    obtain ⟨h1,h2⟩ := holds_cons.mp h
    rw [h1]
    refine ⟨hi_pack (by decide) k.code_lt,lo_pack k.code_lt,?_⟩
    rw [hi_pack (by decide) k.code_lt]
    exact constAt_of_holds h2
  | call d =>
    obtain ⟨h1,h2⟩ := holds_cons.mp h
    rw [h1]
    exact ⟨hi_pack (by decide) (by decide),lo_pack (by decide),constAt_of_holds h2⟩
  | pushq x | popq x =>
    obtain ⟨h1,h2⟩ := holds_cons.mp h
    rw [h1,(holds_cons.mp h2).1]
    exact ⟨hi_pack (by decide) (by decide),lo_pack (by decide),
      hi_pack x.lt (by decide)⟩

end Fields

end Y86
