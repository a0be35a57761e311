import IcsLabs.Asm.Assemble
import IcsLabs.Lib.CString
import IcsLabs.Lib.Fueled

-- parse_line as it walks over the line in memory
namespace Asm.Cursor
open CString Fueled

-- a character that is read, and a place that a pointer into the line is set to
inductive Access where
  | read (i : Nat)
  | ptr (i : Nat)
deriving DecidableEq

section Parsers

variable {α β : Type} (mem : Nat → Char)

def get (p : Nat) : Fueled Access Char := fun _ => ⟨some (mem p),[.read p]⟩

def move (p : Nat) : Fueled Access Nat := fun _ => ⟨some p,[.ptr p]⟩

def skipWhile (test : Char → Bool) (p : Nat) : Fueled Access Nat :=
  loop (fun p => do
    if test (← get mem p) then return .inl (← move (p + 1)) else return .inr p) p

-- SKIP_BLANK
def skipBlank : Nat → Fueled Access Nat := skipWhile mem fun c => c ≠ nul && isBlank c

-- while (IS_LETTER(ptr) || IS_DIGIT(ptr)) ptr++
def skipWord : Nat → Fueled Access Nat := skipWhile mem fun c => isLetter c || isDigit c

-- strncmp(name,s,n) == 0 for an s in the line
def strncmp : Text → Nat → Nat → Fueled Access Bool
  | _, 0, _ => return true
  | name, n + 1, p => do
    let c ← get mem p
    if c ≠ name.headD nul then return false
    else if c = nul then return true
    else strncmp name.tail n (p + 1)

-- the loops of find_register and find_instr
def find (name : α → Text) (len : α → Nat) (p : Nat) : List α → Fueled Access (Option α)
  | [] => return none
  | a :: as => do
    if ← strncmp mem (name a) (len a) p then return some a else find name len p as

def findRegister (p : Nat) : Fueled Access (Option Reg) := find mem Reg.name Reg.namelen p regTable

def findInstr (p : Nat) : Fueled Access (Option Instr) := find mem Instr.name Instr.len p instrSet

def memcpy : Nat → Nat → Fueled Access Text
  | _, 0 => return []
  | p, n + 1 => do
    let c ← get mem p
    let cs ← memcpy (p + 1) n
    return c :: cs

-- the C string at p
def readString (p : Nat) : Fueled Access Text :=
  loop (fun (p,s) => do
    let c ← get mem p
    if c = nul then return .inr (List.reverse s) else return .inl (p + 1,c :: s)) (p,[])

-- strtoull may look at all of its string
def strtoull (p : Nat) : Fueled Access (Word × Nat) := do
  let s ← readString mem p
  let (v,rest) := Libc.strtoull s
  return (v,← move (p + (s.length - rest.length)))

-- a parser gives its token, none: PARSE_ERR, and where ptr is then
def after (x : Fueled Access (Option α × Nat)) (f : α → Nat → Fueled Access (Option β × Nat)) :
    Fueled Access (Option β × Nat) := do
  match ← x with
  | (none,p) => return (none,p)
  | (some a,p) => f a p

def parseInstr (p : Nat) : Fueled Access (Option Instr × Nat) := do
  let p ← skipBlank mem p
  match ← findInstr mem p with
  | none => return (none,p)
  | some inst => return (some inst,← move (p + inst.len))

def parseDelim (delim : Char) (p : Nat) : Fueled Access (Option Unit × Nat) := do
  let p ← skipBlank mem p
  if (← get mem p) ≠ delim then return (none,p)
  else return (some (),← move (p + 1))

def parseReg (p : Nat) : Fueled Access (Option Nat × Nat) := do
  let p ← skipBlank mem p
  if (← get mem p) ≠ '%' then return (none,p)
  else
    match ← findRegister mem p with
    | none => return (none,p)
    | some r => return (some r.id,← move (p + r.namelen))

def parseSymbol (p : Nat) : Fueled Access (Option Text × Nat) := do
  let p ← skipBlank mem p
  if isLetter (← get mem p) then
    let q ← skipWord mem p
    return (some (← memcpy mem p (q - p)),q)
  else return (none,p)

def parseDigit (p : Nat) : Fueled Access (Option Word × Nat) := do
  let p ← skipBlank mem p
  if isDigit (← get mem p) then
    let (v,p) ← strtoull mem p
    return (some v,p)
  else return (none,p)

-- what parse_imm and parse_data do when there may have been a number
def orSymbol (v : Option Word) (p : Nat) : Fueled Access (Option Operand × Nat) := do
  match v with
  | some v => return (some (.digit v),p)
  | none =>
    if isLetter (← get mem p) then
      let (name,p) ← parseSymbol mem p
      return (name.map .symbol,p)
    else return (none,p)

def parseImm (p : Nat) : Fueled Access (Option Operand × Nat) := do
  let p ← skipBlank mem p
  let c ← get mem p
  if c = nul then return (none,p)
  else if c = '$' then
    let p ← move (p + 1)
    match ← parseDigit mem p with
    | (some v,p) => orSymbol mem (some v) p
    | (none,p) => orSymbol mem none (← move (p - 1))
  else orSymbol mem none p

def parseMem (p : Nat) : Fueled Access (Option (Option Word × Nat) × Nat) := do
  let p ← skipBlank mem p
  let disp : Fueled Access (Option (Option Word) × Nat) :=
    if isDigit (← get mem p) then do
      let (v,p) ← parseDigit mem p
      return (v.map some,p)
    else return (some none,p)
  after disp fun value p => after (parseDelim mem '(' p) fun _ p => do
    if (← get mem p) ≠ '%' then return (none,p)
    else after (parseReg mem p) fun regid p => after (parseDelim mem ')' p) fun _ p =>
      return (some (value,regid),p)

def parseData (p : Nat) : Fueled Access (Option Operand × Nat) := do
  let p ← skipBlank mem p
  let c ← get mem p
  if c = nul then return (none,p)
  else if isDigit c then
    let (v,p) ← parseDigit mem p
    orSymbol mem v p
  else orSymbol mem none p

def parseLabel (p : Nat) : Fueled Access (Option Text × Nat) := do
  let p ← skipBlank mem p
  if isLetter (← get mem p) then
    let temp ← skipWord mem p
    let lname ← memcpy mem p (temp - p)
    match ← parseDelim mem ':' temp with
    | (none,_) => return (none,p)
    | (some _,temp) => return (some lname,← move temp)
  else return (none,p)

-- a turn of parse_line goes on, or ends it
abbrev Step := ExceptT Stop (Fueled Access)

def orErr (text : String) (x : Fueled Access (Option α × Nat)) : Step (α × Nat) := ExceptT.mk do
  match ← x with
  | (none,_) => return .error (.err text)
  | (some a,p) => return .ok (a,p)

def parseOperands (k : Nat) (inst : Instr) (ptr : Nat) (s : Parse) : Step (Nat × Parse) :=
  let itype := high inst.code
  if itype = iNop ∨ itype = iHalt ∨ itype = iRet then return (ptr,s)
  else if itype = iIrmovq then do
    let (imm,ptr) ← orErr "Invalid Immediate" (parseImm mem ptr)
    let s := s.operand k imm
    let (_,ptr) ← orErr "Invalid ','" (parseDelim mem ',' ptr)
    let (regB,ptr) ← orErr "Invalid REG" (parseReg mem ptr)
    return (ptr,(s.setCode 1 (hpack 0xf regB)).putValue 2 8)
  else if itype = iRmmovq then do
    let (regA,ptr) ← orErr "Invalid REG" (parseReg mem ptr)
    let (_,ptr) ← orErr "Invalid ','" (parseDelim mem ',' ptr)
    let ((value,regB),ptr) ← orErr "Invalid MEM" (parseMem mem ptr)
    let s := { s with value := value.getD s.value }
    return (ptr,(s.setCode 1 (hpack regA regB)).putValue 2 8)
  else if itype = iMrmovq then do
    let ((value,regB),ptr) ← orErr "Invalid MEM" (parseMem mem ptr)
    let s := { s with value := value.getD s.value }
    let (_,ptr) ← orErr "Invalid ','" (parseDelim mem ',' ptr)
    let (regA,ptr) ← orErr "Invalid REG" (parseReg mem ptr)
    return (ptr,(s.setCode 1 (hpack regA regB)).putValue 2 8)
  else if itype = iRrmovq ∨ itype = iAlu then do
    let (regA,ptr) ← orErr "Invalid REG" (parseReg mem ptr)
    let (_,ptr) ← orErr "Invalid ','" (parseDelim mem ',' ptr)
    let (regB,ptr) ← orErr "Invalid REG" (parseReg mem ptr)
    return (ptr,s.setCode 1 (hpack regA regB))
  else if itype = iJmp ∨ itype = iCall then do
    let (imm,ptr) ← orErr "Invalid DEST" (parseImm mem ptr)
    return (ptr,(s.operand k imm).putValue 1 8)
  else if itype = iPushq ∨ itype = iPopq then do
    let (regA,ptr) ← orErr "Invalid REG" (parseReg mem ptr)
    return (ptr,s.setCode 1 (hpack regA 0xf))
  else if low inst.code = dData then do
    let (data,ptr) ← orErr "Invalid DATA" (parseData mem ptr)
    return (ptr,(s.operand k data).putValue 0 inst.bytes)
  else if low inst.code = dPos then do
    let (value,ptr) ← orErr "Invalid POS" (parseDigit mem ptr)
    return (ptr,{ s with value := value, vmaddr := value, line.y64bin.addr := value })
  else do
    let (value,ptr) ← orErr "Invalid ALIGN" (parseDigit mem ptr)
    let q ← ExceptT.mk (return quot (s.vmaddr + value - 1) value)
    let vmaddr := q * value
    return (ptr,{ s with value := value, vmaddr := vmaddr, line.y64bin.addr := vmaddr })

def parseTurn (k : Nat) (ptr : Nat) (s : Parse) : Step (Nat × Parse) := do
  match ← ExceptT.lift (parseLabel mem ptr) with
  | (some name,ptr) =>
    let added := Asm.orErr ("Dup symbol:" ++ String.ofList name) (addSymbol name s.vmaddr s.symtab)
    let symtab ← ExceptT.mk (return added)
    return (ptr,{ s with symtab := symtab, line.type := .ins, line.y64bin.addr := s.vmaddr })
  | (none,ptr) =>
    let (inst,ptr) ← orErr "Invalid instr" (parseInstr mem ptr)
    parseOperands mem k inst ptr (s.place inst)

-- one turn of the while (TRUE)
def turn (k : Nat) (r : Nat × Parse) : Fueled Access ((Nat × Parse) ⊕ Except Stop Parse) := do
  let ptr ← skipBlank mem r.1
  let c ← get mem ptr
  if c = nul ∨ c = '#' then return .inr (.ok r.2)
  else
    match ← (parseTurn mem k ptr r.2).run with
    | .ok r => return .inl r
    | .error e => return .inr (.error e)

-- the line is at 0
def parseLine (k : Nat) (s : Parse) : Fueled Access (Except Stop Parse) := loop (turn mem k) (0,s)

end Parsers

end Asm.Cursor
