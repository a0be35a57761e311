import IcsLabs.Lib.Libc
import IcsLabs.Lib.Bytes

namespace Asm
open Bytes

-- word_t
abbrev Word := BitVec 64

-- a C string without its end mark
abbrev Text := List Char

def regNone : Nat := 15

structure Reg where
  name : Text
  id : Nat
  namelen : Nat

def regTable : List Reg :=
  [⟨"%rax".toList,0,4⟩,
    ⟨"%rcx".toList,1,4⟩,
    ⟨"%rdx".toList,2,4⟩,
    ⟨"%rbx".toList,3,4⟩,
    ⟨"%rsp".toList,4,4⟩,
    ⟨"%rbp".toList,5,4⟩,
    ⟨"%rsi".toList,6,4⟩,
    ⟨"%rdi".toList,7,4⟩,
    ⟨"%r8".toList,8,3⟩,
    ⟨"%r9".toList,9,3⟩,
    ⟨"%r10".toList,10,4⟩,
    ⟨"%r11".toList,11,4⟩,
    ⟨"%r12".toList,12,4⟩,
    ⟨"%r13".toList,13,4⟩,
    ⟨"%r14".toList,14,4⟩]

-- strncmp(a,b,n) == 0
def strncmp (a b : Text) (n : Nat) : Bool := a.take n == b.take n

def findRegister (name : Text) : Option Reg :=
  regTable.find? fun r => strncmp name r.name r.namelen

def iHalt : Nat := 0
def iNop : Nat := 1
def iRrmovq : Nat := 2
def iIrmovq : Nat := 3
def iRmmovq : Nat := 4
def iMrmovq : Nat := 5
def iAlu : Nat := 6
def iJmp : Nat := 7
def iCall : Nat := 8
def iRet : Nat := 9
def iPushq : Nat := 10
def iPopq : Nat := 11
def iDirective : Nat := 12

def fNone : Nat := 0

def aAdd : Nat := 0
def aSub : Nat := 1
def aAnd : Nat := 2
def aXor : Nat := 3

def cYes : Nat := 0
def cLe : Nat := 1
def cL : Nat := 2
def cE : Nat := 3
def cNe : Nat := 4
def cGe : Nat := 5
def cG : Nat := 6

def dData : Nat := 0
def dPos : Nat := 1
def dAlign : Nat := 2

def hpack (hi lo : Nat) : Byte := BitVec.ofNat 8 ((hi &&& 0xf) <<< 4 ||| (lo &&& 0xf))
def high (pack : Byte) : Nat := (pack.toNat >>> 4) &&& 0xf
def low (pack : Byte) : Nat := pack.toNat &&& 0xf

structure Instr where
  name : Text
  len : Nat
  code : Byte
  bytes : Nat
deriving DecidableEq

def instrSet : List Instr :=
  [⟨"nop".toList,3,hpack iNop fNone,1⟩,
    ⟨"halt".toList,4,hpack iHalt fNone,1⟩,
    ⟨"rrmovq".toList,6,hpack iRrmovq fNone,2⟩,
    ⟨"cmovle".toList,6,hpack iRrmovq cLe,2⟩,
    ⟨"cmovl".toList,5,hpack iRrmovq cL,2⟩,
    ⟨"cmove".toList,5,hpack iRrmovq cE,2⟩,
    ⟨"cmovne".toList,6,hpack iRrmovq cNe,2⟩,
    ⟨"cmovge".toList,6,hpack iRrmovq cGe,2⟩,
    ⟨"cmovg".toList,5,hpack iRrmovq cG,2⟩,
    ⟨"irmovq".toList,6,hpack iIrmovq fNone,10⟩,
    ⟨"rmmovq".toList,6,hpack iRmmovq fNone,10⟩,
    ⟨"mrmovq".toList,6,hpack iMrmovq fNone,10⟩,
    ⟨"addq".toList,4,hpack iAlu aAdd,2⟩,
    ⟨"subq".toList,4,hpack iAlu aSub,2⟩,
    ⟨"andq".toList,4,hpack iAlu aAnd,2⟩,
    ⟨"xorq".toList,4,hpack iAlu aXor,2⟩,
    ⟨"jmp".toList,3,hpack iJmp cYes,9⟩,
    ⟨"jle".toList,3,hpack iJmp cLe,9⟩,
    ⟨"jl".toList,2,hpack iJmp cL,9⟩,
    ⟨"je".toList,2,hpack iJmp cE,9⟩,
    ⟨"jne".toList,3,hpack iJmp cNe,9⟩,
    ⟨"jge".toList,3,hpack iJmp cGe,9⟩,
    ⟨"jg".toList,2,hpack iJmp cG,9⟩,
    ⟨"call".toList,4,hpack iCall fNone,9⟩,
    ⟨"ret".toList,3,hpack iRet fNone,1⟩,
    ⟨"pushq".toList,5,hpack iPushq fNone,2⟩,
    ⟨"popq".toList,4,hpack iPopq fNone,2⟩,
    ⟨".byte".toList,5,hpack iDirective dData,1⟩,
    ⟨".word".toList,5,hpack iDirective dData,2⟩,
    ⟨".long".toList,5,hpack iDirective dData,4⟩,
    ⟨".quad".toList,5,hpack iDirective dData,8⟩,
    ⟨".pos".toList,4,hpack iDirective dPos,0⟩,
    ⟨".align".toList,6,hpack iDirective dAlign,0⟩]

def findInstr (name : Text) : Option Instr :=
  instrSet.find? fun inst => strncmp inst.name name inst.len

def isDigit (c : Char) : Bool := '0' ≤ c ∧ c ≤ '9' ∨ c = '-' ∨ c = '+'
def isLetter (c : Char) : Bool := 'a' ≤ c ∧ c ≤ 'z' ∨ 'A' ≤ c ∧ c ≤ 'Z'
def isBlank (c : Char) : Bool := c = ' ' ∨ c = '\t'

-- the test of *s; no test holds of the end mark
def starts (p : Char → Bool) (s : Text) : Bool := s.head?.any p

def skipBlank (s : Text) : Text := s.dropWhile isBlank

def parseInstr (s : Text) : Option (Instr × Text) :=
  let s := skipBlank s
  (findInstr s).map fun inst => (inst,s.drop inst.len)

def parseDelim (delim : Char) (s : Text) : Option Text :=
  let s := skipBlank s
  if starts (· == delim) s then some s.tail else none

def parseReg (s : Text) : Option (Nat × Text) :=
  let s := skipBlank s
  if starts (· == '%') s then (findRegister s).map fun r => (r.id,s.drop r.namelen) else none

def word (s : Text) : Text := s.takeWhile fun c => isLetter c || isDigit c
def afterWord (s : Text) : Text := s.dropWhile fun c => isLetter c || isDigit c

def parseSymbol (s : Text) : Option (Text × Text) :=
  let s := skipBlank s
  if starts isLetter s then some (word s,afterWord s) else none

def parseDigit (s : Text) : Option (Word × Text) :=
  let s := skipBlank s
  if starts isDigit s then some (Libc.strtoull s) else none

inductive Operand where
  | digit (value : Word)
  | symbol (name : Text)
deriving DecidableEq

-- after a $ without a number ptr goes back to the $ or to a blank, where no symbol starts
def parseImm (s : Text) : Option (Operand × Text) :=
  let s := skipBlank s
  if starts (· == '$') s then (parseDigit s.tail).map fun (v,s) => (.digit v,s)
  else if starts isLetter s then (parseSymbol s).map fun (name,s) => (.symbol name,s)
  else none

-- the displacement where one is written, and the register
def parseMem (s : Text) : Option ((Option Word × Nat) × Text) := do
  let s := skipBlank s
  let disp := if starts isDigit s then (parseDigit s).map fun (v,s) => (some v,s) else some (none,s)
  let (value,s) ← disp
  let s ← parseDelim '(' s
  if starts (· == '%') s then
    let (regid,s) ← parseReg s
    let s ← parseDelim ')' s
    return ((value,regid),s)
  else none

def parseData (s : Text) : Option (Operand × Text) :=
  let s := skipBlank s
  if starts isDigit s then (parseDigit s).map fun (v,s) => (.digit v,s)
  else if starts isLetter s then (parseSymbol s).map fun (name,s) => (.symbol name,s)
  else none

def parseLabel (s : Text) : Option (Text × Text) :=
  let s := skipBlank s
  if starts isLetter s then (parseDelim ':' (afterWord s)).map fun t => (word s,t) else none

example : parseMem " -8 (%rbp) ,%rax".toList = some ((some (-8),5)," ,%rax".toList) := by
  decide +kernel

section Progress

variable {s t : Text}

theorem skipBlank_suffix (s : Text) : skipBlank s <:+ s := List.dropWhile_suffix _

theorem parseDelim_suffix {d : Char} (h : parseDelim d s = some t) : t <:+ s := by
  simp only [parseDelim] at h
  split at h
  · obtain rfl := Option.some.inj h
    exact (List.tail_suffix _).trans (skipBlank_suffix s)
  · cases h

theorem parseReg_suffix {r : Nat} (h : parseReg s = some (r,t)) : t <:+ s := by
  simp only [parseReg] at h
  split at h
  · obtain ⟨r',-,he⟩ := Option.map_eq_some_iff.mp h
    cases he
    exact (List.drop_suffix _ _).trans (skipBlank_suffix s)
  · cases h

theorem parseSymbol_suffix {name : Text} (h : parseSymbol s = some (name,t)) : t <:+ s := by
  simp only [parseSymbol] at h
  split at h
  · cases h
    exact (List.dropWhile_suffix _).trans (skipBlank_suffix s)
  · cases h

theorem parseDigit_suffix {v : Word} (h : parseDigit s = some (v,t)) : t <:+ s := by
  simp only [parseDigit] at h
  split at h
  · have ht : t = (Libc.strtoull (skipBlank s)).2 := by rw [Option.some.inj h]
    exact ht ▸ (Libc.strtoull_suffix _).trans (skipBlank_suffix s)
  · cases h

theorem parseImm_suffix {i : Operand} (h : parseImm s = some (i,t)) : t <:+ s := by
  simp only [parseImm] at h
  split at h
  · obtain ⟨⟨v,t'⟩,hd,he⟩ := Option.map_eq_some_iff.mp h
    cases he
    exact (parseDigit_suffix hd).trans ((List.tail_suffix _).trans (skipBlank_suffix s))
  · split at h
    · obtain ⟨⟨name,t'⟩,hs,he⟩ := Option.map_eq_some_iff.mp h
      cases he
      exact (parseSymbol_suffix hs).trans (skipBlank_suffix s)
    · cases h

theorem parseData_suffix {i : Operand} (h : parseData s = some (i,t)) : t <:+ s := by
  simp only [parseData] at h
  split at h
  · obtain ⟨⟨v,t'⟩,hd,he⟩ := Option.map_eq_some_iff.mp h
    cases he
    exact (parseDigit_suffix hd).trans (skipBlank_suffix s)
  · split at h
    · obtain ⟨⟨name,t'⟩,hs,he⟩ := Option.map_eq_some_iff.mp h
      cases he
      exact (parseSymbol_suffix hs).trans (skipBlank_suffix s)
    · cases h

theorem parseReg_lt {r : Nat} (h : parseReg s = some (r,t)) : r < regNone := by
  simp only [parseReg] at h
  split at h
  · obtain ⟨r',hf,he⟩ := Option.map_eq_some_iff.mp h
    cases he
    have hall : ∀ r ∈ regTable, r.id < regNone := by decide
    exact hall r' (List.mem_of_find?_eq_some hf)
  · cases h

theorem parseMem_spec {d : Option Word} {r : Nat} (h : parseMem s = some ((d,r),t)) :
    t <:+ s ∧ r < regNone := by
  simp only [parseMem,bind] at h
  obtain ⟨⟨d',s1⟩,h1,h⟩ := Option.bind_eq_some_iff.mp h
  obtain ⟨s2,h2,h⟩ := Option.bind_eq_some_iff.mp h
  have hs1 : s1 <:+ s := by
    split at h1
    · obtain ⟨⟨v,s'⟩,hd,he⟩ := Option.map_eq_some_iff.mp h1
      cases he
      exact (parseDigit_suffix hd).trans (skipBlank_suffix s)
    · cases h1
      exact skipBlank_suffix s
  split at h
  · obtain ⟨⟨r',s3⟩,h3,h⟩ := Option.bind_eq_some_iff.mp h
    obtain ⟨s4,h4,h⟩ := Option.bind_eq_some_iff.mp h
    cases h
    exact ⟨(parseDelim_suffix h4).trans ((parseReg_suffix h3).trans
      ((parseDelim_suffix h2).trans hs1)),parseReg_lt h3⟩
  · cases h

theorem parseLabel_spec {name : Text} (h : parseLabel s = some (name,t)) :
    t <:+ s ∧ t.length < s.length := by
  simp only [parseLabel] at h
  split at h
  · obtain ⟨u,hd,he⟩ := Option.map_eq_some_iff.mp h
    cases he
    simp only [parseDelim] at hd
    split at hd
    · rename_i hc
      obtain rfl := Option.some.inj hd
      have h1 : skipBlank (afterWord (skipBlank s)) <:+ s :=
        (skipBlank_suffix _).trans ((List.dropWhile_suffix _).trans (skipBlank_suffix s))
      have hne : skipBlank (afterWord (skipBlank s)) ≠ [] := fun he => by simp [he,starts] at hc
      have hpos := List.length_pos_iff.mpr hne
      have hle := h1.length_le
      refine ⟨(List.tail_suffix _).trans h1,?_⟩
      rw [List.length_tail]
      omega
    · cases hd
  · cases h

end Progress

end Asm
