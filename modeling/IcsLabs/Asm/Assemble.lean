import IcsLabs.Asm.Token
import Mathlib.Logic.Function.Basic

namespace Asm
open Bytes

inductive LineType where
  | comm
  | ins
deriving DecidableEq

structure Bin where
  addr : Word
  codes : Nat → Byte
  bytes : Nat

structure Line where
  type : LineType
  y64bin : Bin
  y64asm : Text

structure Symbol where
  name : Text
  addr : Word
deriving DecidableEq

-- y64bin is the place of its line in the list of lines
structure Reloc where
  name : Text
  y64bin : Nat
deriving DecidableEq

-- an err_print and a -1, or the trap of an integer division
inductive Stop where
  | err (text : String)
  | trap
deriving DecidableEq

def orErr {α : Type} (text : String) : Option α → Except Stop α
  | some a => .ok a
  | none => .error (.err text)

def findSymbol (name : Text) (symtab : List Symbol) : Option Symbol :=
  symtab.find? fun s => s.name = name

def addSymbol (name : Text) (vmaddr : Word) (symtab : List Symbol) : Option (List Symbol) :=
  if (findSymbol name symtab).isSome then none else some (⟨name,vmaddr⟩ :: symtab)

def addReloc (name : Text) (bin : Nat) (reltab : List Reloc) : List Reloc := ⟨name,bin⟩ :: reltab

def addressMemory (codes : Nat → Byte) (ptr : Nat) (value : Word) (bytes : Nat) : Nat → Byte :=
  writeLE codes ptr bytes value.toNat

-- the locals of parse_line that live from one turn to the next, its line and the globals
structure Parse where
  value : Word
  line : Line
  vmaddr : Word
  symtab : List Symbol
  reltab : List Reloc

namespace Parse

def setCode (s : Parse) (i : Nat) (code : Byte) : Parse :=
  { s with line.y64bin.codes := Function.update s.line.y64bin.codes i code }

def putValue (s : Parse) (i bytes : Nat) : Parse :=
  { s with line.y64bin.codes := addressMemory s.line.y64bin.codes i s.value bytes }

def operand (k : Nat) (s : Parse) : Operand → Parse
  | .digit v => { s with value := v }
  | .symbol name => { s with reltab := addReloc name k s.reltab }

-- the line takes the item in, with its size and the first code byte
def place (s : Parse) (inst : Instr) : Parse :=
  let codes := Function.update s.line.y64bin.codes 0 inst.code
  { s with
    line := ⟨.ins,⟨s.vmaddr,codes,inst.bytes⟩,s.line.y64asm⟩
    vmaddr := s.vmaddr + BitVec.ofNat 64 inst.bytes }

end Parse

-- the quotient of two longs; no quotient traps
def quot (a b : Word) : Except Stop Word :=
  if b = 0 ∨ a = BitVec.intMin 64 ∧ b = -1 then .error .trap else .ok (a.sdiv b)

-- the switch of parse_line; k is the place of the line
def parseOperands (k : Nat) (inst : Instr) (ptr : Text) (s : Parse) : Except Stop (Text × Parse) :=
  let itype := high inst.code
  if itype = iNop ∨ itype = iHalt ∨ itype = iRet then .ok (ptr,s)
  else if itype = iIrmovq then do
    let (imm,ptr) ← orErr "Invalid Immediate" (parseImm ptr)
    let s := s.operand k imm
    let ptr ← orErr "Invalid ','" (parseDelim ',' ptr)
    let (regB,ptr) ← orErr "Invalid REG" (parseReg ptr)
    return (ptr,(s.setCode 1 (hpack 0xf regB)).putValue 2 8)
  else if itype = iRmmovq then do
    let (regA,ptr) ← orErr "Invalid REG" (parseReg ptr)
    let ptr ← orErr "Invalid ','" (parseDelim ',' ptr)
    let ((value,regB),ptr) ← orErr "Invalid MEM" (parseMem ptr)
    let s := { s with value := value.getD s.value }
    return (ptr,(s.setCode 1 (hpack regA regB)).putValue 2 8)
  else if itype = iMrmovq then do
    let ((value,regB),ptr) ← orErr "Invalid MEM" (parseMem ptr)
    let s := { s with value := value.getD s.value }
    let ptr ← orErr "Invalid ','" (parseDelim ',' ptr)
    let (regA,ptr) ← orErr "Invalid REG" (parseReg ptr)
    return (ptr,(s.setCode 1 (hpack regA regB)).putValue 2 8)
  else if itype = iRrmovq ∨ itype = iAlu then do
    let (regA,ptr) ← orErr "Invalid REG" (parseReg ptr)
    let ptr ← orErr "Invalid ','" (parseDelim ',' ptr)
    let (regB,ptr) ← orErr "Invalid REG" (parseReg ptr)
    return (ptr,s.setCode 1 (hpack regA regB))
  else if itype = iJmp ∨ itype = iCall then do
    let (imm,ptr) ← orErr "Invalid DEST" (parseImm ptr)
    return (ptr,(s.operand k imm).putValue 1 8)
  else if itype = iPushq ∨ itype = iPopq then do
    let (regA,ptr) ← orErr "Invalid REG" (parseReg ptr)
    return (ptr,s.setCode 1 (hpack regA 0xf))
  else if low inst.code = dData then do
    let (data,ptr) ← orErr "Invalid DATA" (parseData ptr)
    return (ptr,(s.operand k data).putValue 0 inst.bytes)
  else if low inst.code = dPos then do
    let (value,ptr) ← orErr "Invalid POS" (parseDigit ptr)
    return (ptr,{ s with value := value, vmaddr := value, line.y64bin.addr := value })
  else do
    let (value,ptr) ← orErr "Invalid ALIGN" (parseDigit ptr)
    let q ← quot (s.vmaddr + value - 1) value
    let vmaddr := q * value
    return (ptr,{ s with value := value, vmaddr := vmaddr, line.y64bin.addr := vmaddr })

-- one turn of the loop of parse_line, past its blanks and its end test
def parseTurn (k : Nat) (ptr : Text) (s : Parse) : Except Stop (Text × Parse) :=
  match parseLabel ptr with
  | some (name,ptr) => do
    let symtab ← orErr ("Dup symbol:" ++ String.ofList name) (addSymbol name s.vmaddr s.symtab)
    return (ptr,{ s with symtab := symtab, line.type := .ins, line.y64bin.addr := s.vmaddr })
  | none => do
    let (inst,ptr) ← orErr "Invalid instr" (parseInstr ptr)
    parseOperands k inst ptr (s.place inst)

def atEnd (s : Text) : Bool := s = [] || starts (· == '#') s

-- every turn reads something, so one turn more than there are characters is enough
def parseLoop (k : Nat) : Nat → Text → Parse → Except Stop Parse
  | 0, _, s => .ok s
  | n + 1, ptr, s =>
    let ptr := skipBlank ptr
    if atEnd ptr then .ok s else (parseTurn k ptr s).bind fun (ptr,s) => parseLoop k n ptr s

def parseLine (k : Nat) (s : Parse) : Except Stop Parse :=
  parseLoop k (s.line.y64asm.length + 1) s.line.y64asm s

-- the globals
structure State where
  vmaddr : Word
  symtab : List Symbol
  reltab : List Reloc
  lines : List Line

def State.init : State := ⟨0,[],[],[]⟩

def assembleLine (st : State) (y64asm : Text) : Except Stop State := do
  let line : Line := ⟨.comm,⟨0,fun _ => 0,0⟩,y64asm⟩
  let s ← parseLine st.lines.length ⟨0,line,st.vmaddr,st.symtab,st.reltab⟩
  return ⟨s.vmaddr,s.symtab,s.reltab,st.lines ++ [s.line]⟩

def maxInslen : Nat := 512

-- asm_buf up to its end mark, less the line ends; asm_buf[-1] is taken to be none
def asmBuf (s : Text) : Text :=
  ((s.takeWhile (· ≠ '\x00')).reverse.dropWhile fun c => c = '\n' ∨ c = '\r').reverse

def readLines : Nat → Text → List Text
  | 0, _ => []
  | n + 1, s =>
    if s = [] then []
    else
      let (line,rest) := Libc.fgets (maxInslen - 1) s
      asmBuf line :: readLines n rest

def sourceLines (file : Text) : List Text := readLines file.length file

def assemble (file : Text) : Except Stop State := (sourceLines file).foldlM assembleLine State.init

def Bin.relocate (addr : Word) (y64bin : Bin) : Bin :=
  let itype := high (y64bin.codes 0)
  let value := if itype = iIrmovq then 2 else if itype = iCall ∨ itype = iJmp then 1 else 0
  { y64bin with codes := addressMemory y64bin.codes value addr 8 }

def relocateLoop (symtab : List Symbol) : List Reloc → List Line → Except Stop (List Line)
  | [], lines => .ok lines
  | r :: rs, lines => do
    let s ← orErr ("Unknown symbol:'" ++ String.ofList r.name ++ "'") (findSymbol r.name symtab)
    relocateLoop symtab rs
      (lines.modify r.y64bin fun l => { l with y64bin := l.y64bin.relocate s.addr })

def relocate (st : State) : Except Stop (List Line) := relocateLoop st.symtab st.reltab st.lines

-- a file by offset, none where nothing was written
abbrev File := Nat → Option Byte

def fwrite (y64bin : Bin) (out : File) : File := fun x =>
  let addr := y64bin.addr.toNat
  if addr ≤ x ∧ x < addr + y64bin.bytes then some (y64bin.codes (x - addr)) else out x

-- fseek refuses a negative offset
def binfile : List Line → File → Option File
  | [], out => some out
  | l :: ls, out =>
    if l.type ≠ .ins then binfile ls out
    else if l.y64bin.addr.toInt < 0 then none
    else binfile ls (fwrite l.y64bin out)

end Asm
