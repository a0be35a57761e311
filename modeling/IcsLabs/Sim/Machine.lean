import IcsLabs.Lib.Bytes
import Mathlib.Logic.Function.Basic

namespace Sim
open Bytes

-- long_t
abbrev Word := BitVec 64

inductive Stat where
  | aok
  | hlt
  | adr
  | ins
deriving DecidableEq

structure Mem where
  len : Int
  data : Nat → Byte

structure Y64sim where
  pc : Word
  r : Mem
  m : Mem
  cc : Byte

def getByteVal (m : Mem) (addr : Word) : Option Byte :=
  if addr.toInt < 0 ∨ addr.toInt ≥ m.len then none else some (m.data addr.toNat)

-- the loop of get_long_val after its first n turns
def longBytes (data : Nat → Byte) (addr : Word) : Nat → Word
  | 0 => 0
  | i + 1 => longBytes data addr i |||
      (data (addr + BitVec.ofNat 64 i).toNat).setWidth 64 <<< (8 * i)

def getLongVal (m : Mem) (addr : Word) : Option Word :=
  if addr.toInt < 0 ∨ (addr + 8).toInt > m.len then none else some (longBytes m.data addr 8)

-- the loop of set_long_val from turn i on, n turns left
def putBytes (addr : Word) : Nat → Nat → Word → (Nat → Byte) → Nat → Byte
  | 0, _, _, data => data
  | n + 1, i, val, data =>
    putBytes addr n (i + 1) (val.sshiftRight 8)
      (Function.update data (addr + BitVec.ofNat 64 i).toNat ((val &&& 0xff).setWidth 8))

def setLongVal (m : Mem) (addr val : Word) : Option Mem :=
  if addr.toInt < 0 ∨ (addr + 8).toInt > m.len then none
  else some { m with data := putBytes addr 8 0 val m.data }

def regNone : Nat := 15
def regRsp : Nat := 4

def getRegVal (r : Mem) (id : Nat) : Word :=
  if id ≥ regNone then 0 else (getLongVal r (BitVec.ofNat 64 (id * 8))).getD 0

def setRegVal (r : Mem) (id : Nat) (val : Word) : Mem :=
  if id < regNone then (setLongVal r (BitVec.ofNat 64 (id * 8)) val).getD r else r

-- (int)val
def int (val : Word) : Int := (val.setWidth 32).toInt

def aAdd : Nat := 0
def aSub : Nat := 1
def aAnd : Nat := 2
def aXor : Nat := 3
def aNone : Nat := 4

def computeAlu (op : Nat) (argA argB : Word) : Word :=
  if op = aAdd then argA + argB
  else if op = aSub then argB - argA
  else if op = aAnd then argA &&& argB
  else if op = aXor then argA ^^^ argB
  else 0

def packCc (z s o : Bool) : Byte :=
  BitVec.ofNat 8 (z.toNat <<< 2 ||| s.toNat <<< 1 ||| o.toNat <<< 0)

def computeCc (op : Nat) (argA argB val : Word) : Byte :=
  let zero := val == 0
  let sign := decide (int val < 0)
  let ovf :=
    if op = aAdd then
      decide ((int argA < 0 ∧ int argB < 0 ∧ int val > 0) ∨
        (int argA > 0 ∧ int argB > 0 ∧ int val < 0))
    else if op = aSub then
      decide ((int argA < 0 ∧ int argB > 0 ∧ int val < 0) ∨
        (int argA > 0 ∧ int argB < 0 ∧ int val > 0))
    else false
  packCc zero sign ovf

def getZf (cc : Byte) : Bool := cc >>> 2 &&& 1 == 1
def getSf (cc : Byte) : Bool := cc >>> 1 &&& 1 == 1
def getOf (cc : Byte) : Bool := cc >>> 0 &&& 1 == 1

def cYes : Nat := 0
def cLe : Nat := 1
def cL : Nat := 2
def cE : Nat := 3
def cNe : Nat := 4
def cGe : Nat := 5
def cG : Nat := 6

def condDoit (cc : Byte) (cond : Nat) : Bool :=
  let zf := getZf cc
  let sf := getSf cc
  let of := getOf cc
  if cond = cYes then true
  else if cond = cLe then (sf ^^ of) || zf
  else if cond = cL then sf ^^ of
  else if cond = cE then zf
  else if cond = cNe then !zf
  else if cond = cGe then !(sf ^^ of)
  else if cond = cG then !(sf ^^ of) && !zf
  else false

def high (pack : Byte) : Nat := (pack.toNat >>> 4) &&& 0xf
def low (pack : Byte) : Nat := pack.toNat &&& 0xf

def iHalt : Nat := 0
def iNop : Nat := 1
def iRrmovq : Nat := 2
def iIrmovq : Nat := 3
def iRmmovq : Nat := 4
def iMrmovq : Nat := 5
def iAlu : Nat := 6
def iJmp : Nat := 7
def iCall : Nat := 8
def iRet : Nat := 9
def iPushq : Nat := 10
def iPopq : Nat := 11

-- the locals of nexti once the instruction is read; a field not read keeps 0
structure Fetched where
  icode : Nat
  ifun : Nat
  raid : Nat
  rbid : Nat
  addr : Word
  nextPc : Word

def noRegs (icode : Nat) : Bool :=
  icode == iHalt || icode == iNop || icode == iJmp || icode == iCall || icode == iRet

def hasImm (icode : Nat) : Bool :=
  icode == iIrmovq || icode == iRmmovq || icode == iMrmovq || icode == iJmp || icode == iCall

def fetchRegs (m : Mem) (icode : Nat) (nextPc : Word) : Except Stat (Nat × Nat × Word) :=
  if noRegs icode then .ok (0,0,nextPc)
  else
    match getByteVal m nextPc with
    | none => .error .adr
    | some codefun => .ok (high codefun,low codefun,nextPc + 1)

def fetchImm (m : Mem) (icode : Nat) (nextPc : Word) : Except Stat (Word × Word) :=
  if hasImm icode then
    match getLongVal m nextPc with
    | none => .error .adr
    | some addr => .ok (addr,nextPc + 8)
  else .ok (0,nextPc)

def fetch (sim : Y64sim) : Except Stat Fetched :=
  match getByteVal sim.m sim.pc with
  | none => .error .adr
  | some codefun => do
    let icode := high codefun
    let (raid,rbid,nextPc) ← fetchRegs sim.m icode (sim.pc + 1)
    let (addr,nextPc) ← fetchImm sim.m icode nextPc
    return ⟨icode,low codefun,raid,rbid,addr,nextPc⟩

def execute (f : Fetched) (sim : Y64sim) : Stat × Y64sim :=
  if f.icode = iHalt then (.hlt,sim)
  else if f.icode = iNop then (.aok,{ sim with pc := f.nextPc })
  else if f.icode = iRrmovq then
    let r := if condDoit sim.cc f.ifun then setRegVal sim.r f.rbid (getRegVal sim.r f.raid) else sim.r
    (.aok,{ sim with r := r, pc := f.nextPc })
  else if f.icode = iIrmovq then
    (.aok,{ sim with r := setRegVal sim.r f.rbid f.addr, pc := f.nextPc })
  else if f.icode = iRmmovq then
    let rAVal := getRegVal sim.r f.raid
    let rBVal := getRegVal sim.r f.rbid
    let rEVal := computeAlu aAdd rBVal f.addr
    match setLongVal sim.m rEVal rAVal with
    | none => (.adr,sim)
    | some m => (.aok,{ sim with m := m, pc := f.nextPc })
  else if f.icode = iMrmovq then
    let rBVal := getRegVal sim.r f.rbid
    let rEVal := computeAlu aAdd rBVal f.addr
    match getLongVal sim.m rEVal with
    | none => (.adr,sim)
    | some rBMval => (.aok,{ sim with r := setRegVal sim.r f.raid rBMval, pc := f.nextPc })
  else if f.icode = iAlu then
    if aNone ≤ f.ifun then (.ins,sim)
    else
      let rAVal := getRegVal sim.r f.raid
      let rBVal := getRegVal sim.r f.rbid
      let rEVal := computeAlu f.ifun rAVal rBVal
      (.aok,{ sim with
        cc := computeCc f.ifun rAVal rBVal rEVal
        r := setRegVal sim.r f.rbid rEVal
        pc := f.nextPc })
  else if f.icode = iJmp then
    if cG < f.ifun then (.ins,sim)
    else (.aok,{ sim with pc := if condDoit sim.cc f.ifun then f.addr else f.nextPc })
  else if f.icode = iCall then
    let rsp := getRegVal sim.r regRsp
    let rEVal := computeAlu aSub 8 rsp
    let sim := { sim with r := setRegVal sim.r regRsp rEVal }
    match setLongVal sim.m rEVal f.nextPc with
    | none => (.adr,sim)
    | some m => (.aok,{ sim with m := m, pc := f.addr })
  else if f.icode = iRet then
    let rsp := getRegVal sim.r regRsp
    match getLongVal sim.m rsp with
    | none => (.adr,sim)
    | some nextPc =>
      let rEVal := computeAlu aAdd 8 rsp
      (.aok,{ sim with r := setRegVal sim.r regRsp rEVal, pc := nextPc })
  else if f.icode = iPushq then
    let rAVal := getRegVal sim.r f.raid
    let rsp := getRegVal sim.r regRsp
    let rEVal := computeAlu aSub 8 rsp
    let sim := { sim with r := setRegVal sim.r regRsp rEVal }
    match setLongVal sim.m rEVal rAVal with
    | none => (.adr,sim)
    | some m => (.aok,{ sim with m := m, pc := f.nextPc })
  else if f.icode = iPopq then
    let rsp := getRegVal sim.r regRsp
    match getLongVal sim.m rsp with
    | none => (.adr,sim)
    | some rspMval =>
      let rEVal := computeAlu aAdd 8 rsp
      let r := setRegVal sim.r regRsp rEVal
      (.aok,{ sim with r := setRegVal r f.raid rspMval, pc := f.nextPc })
  else (.ins,sim)

section Execute

-- the operations that touch memory, with their operand in front
variable (sim : Y64sim) (ifun a b : Nat) (c next : Word)

theorem execute_rmmovq : execute ⟨4,ifun,a,b,c,next⟩ sim =
    match setLongVal sim.m (getRegVal sim.r b + c) (getRegVal sim.r a) with
    | none => (.adr,sim)
    | some m => (.aok,{ sim with m := m, pc := next }) := by rfl

theorem execute_mrmovq : execute ⟨5,ifun,a,b,c,next⟩ sim =
    match getLongVal sim.m (getRegVal sim.r b + c) with
    | none => (.adr,sim)
    | some v => (.aok,{ sim with r := setRegVal sim.r a v, pc := next }) := by rfl

theorem execute_call : execute ⟨8,ifun,a,b,c,next⟩ sim =
    match setLongVal sim.m (getRegVal sim.r regRsp - 8) next with
    | none => (.adr,{ sim with r := setRegVal sim.r regRsp (getRegVal sim.r regRsp - 8) })
    | some m => (.aok,{ sim with
        r := setRegVal sim.r regRsp (getRegVal sim.r regRsp - 8)
        m := m
        pc := c }) := by rfl

theorem execute_ret : execute ⟨9,ifun,a,b,c,next⟩ sim =
    match getLongVal sim.m (getRegVal sim.r regRsp) with
    | none => (.adr,sim)
    | some pc => (.aok,{ sim with
        r := setRegVal sim.r regRsp (8 + getRegVal sim.r regRsp)
        pc := pc }) := by rfl

theorem execute_pushq : execute ⟨10,ifun,a,b,c,next⟩ sim =
    match setLongVal sim.m (getRegVal sim.r regRsp - 8) (getRegVal sim.r a) with
    | none => (.adr,{ sim with r := setRegVal sim.r regRsp (getRegVal sim.r regRsp - 8) })
    | some m => (.aok,{ sim with
        r := setRegVal sim.r regRsp (getRegVal sim.r regRsp - 8)
        m := m
        pc := next }) := by rfl

theorem execute_popq : execute ⟨11,ifun,a,b,c,next⟩ sim =
    match getLongVal sim.m (getRegVal sim.r regRsp) with
    | none => (.adr,sim)
    | some v => (.aok,{ sim with
        r := setRegVal (setRegVal sim.r regRsp (8 + getRegVal sim.r regRsp)) a v
        pc := next }) := by rfl

end Execute

def nexti (sim : Y64sim) : Stat × Y64sim :=
  match fetch sim with
  | .error stat => (stat,sim)
  | .ok f => execute f sim

end Sim
