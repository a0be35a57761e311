import IcsLabs.Asm.Assemble
import IcsLabs.Asm.Lookup

namespace Asm
open Bytes

-- the operands of an item as they are written
inductive Arg where
  | none
  | reg (rA : Nat)
  | regs (rA rB : Nat)
  | immReg (imm : Operand) (rB : Nat)
  | regMem (rA : Nat) (disp : Option Word) (rB : Nat)
  | memReg (disp : Option Word) (rB rA : Nat)
  | dest (imm : Operand)
  | data (d : Operand)
  | pos (v : Word)
  | align (v : Word)
deriving DecidableEq

-- what a line is made of
inductive Piece where
  | label (name : Text)
  | item (inst : Instr) (arg : Arg)
deriving DecidableEq

def scanArg (inst : Instr) (s : Text) : Option (Arg × Text) :=
  let itype := high inst.code
  if itype = iNop ∨ itype = iHalt ∨ itype = iRet then some (.none,s)
  else if itype = iIrmovq then do
    let (imm,s) ← parseImm s
    let s ← parseDelim ',' s
    let (rB,s) ← parseReg s
    return (.immReg imm rB,s)
  else if itype = iRmmovq then do
    let (rA,s) ← parseReg s
    let s ← parseDelim ',' s
    let ((disp,rB),s) ← parseMem s
    return (.regMem rA disp rB,s)
  else if itype = iMrmovq then do
    let ((disp,rB),s) ← parseMem s
    let s ← parseDelim ',' s
    let (rA,s) ← parseReg s
    return (.memReg disp rB rA,s)
  else if itype = iRrmovq ∨ itype = iAlu then do
    let (rA,s) ← parseReg s
    let s ← parseDelim ',' s
    let (rB,s) ← parseReg s
    return (.regs rA rB,s)
  else if itype = iJmp ∨ itype = iCall then do
    let (imm,s) ← parseImm s
    return (.dest imm,s)
  else if itype = iPushq ∨ itype = iPopq then do
    let (rA,s) ← parseReg s
    return (.reg rA,s)
  else if low inst.code = dData then do
    let (d,s) ← parseData s
    return (.data d,s)
  else if low inst.code = dPos then do
    let (v,s) ← parseDigit s
    return (.pos v,s)
  else do
    let (v,s) ← parseDigit s
    return (.align v,s)

def scanPiece (s : Text) : Option (Piece × Text) :=
  match parseLabel s with
  | some (name,s) => some (.label name,s)
  | none => do
    let (inst,s) ← parseInstr s
    let (arg,s) ← scanArg inst s
    return (.item inst arg,s)

def scanLoop : Nat → Text → Option (List Piece)
  | 0, _ => some []
  | n + 1, s =>
    let s := skipBlank s
    if atEnd s then some []
    else (scanPiece s).bind fun (p,s) => (scanLoop n s).map (p :: ·)

def scanLine (s : Text) : Option (List Piece) := scanLoop (s.length + 1) s

-- what reading a piece does
def Arg.apply (k : Nat) (inst : Instr) (s : Parse) : Arg → Except Stop Parse
  | .none => .ok s
  | .reg a => .ok (s.setCode 1 (hpack a 0xf))
  | .regs a b => .ok (s.setCode 1 (hpack a b))
  | .immReg imm b => .ok (((s.operand k imm).setCode 1 (hpack 0xf b)).putValue 2 8)
  | .regMem a disp b | .memReg disp b a =>
    let s := { s with value := disp.getD s.value }
    .ok ((s.setCode 1 (hpack a b)).putValue 2 8)
  | .dest imm => .ok ((s.operand k imm).putValue 1 8)
  | .data d => .ok ((s.operand k d).putValue 0 inst.bytes)
  | .pos v => .ok { s with value := v, vmaddr := v, line.y64bin.addr := v }
  | .align v => (quot (s.vmaddr + v - 1) v).map fun q =>
    { s with value := v, vmaddr := q * v, line.y64bin.addr := q * v }

def Piece.apply (k : Nat) (s : Parse) : Piece → Except Stop Parse
  | .label name =>
    (orErr ("Dup symbol:" ++ String.ofList name) (addSymbol name s.vmaddr s.symtab)).map fun symtab =>
      { s with symtab := symtab, line.type := .ins, line.y64bin.addr := s.vmaddr }
  | .item inst arg => arg.apply k inst (s.place inst)

def applyAll (k : Nat) (ps : List Piece) (s : Parse) : Except Stop Parse :=
  ps.foldlM (Piece.apply k) s

section Tracks

-- a parser that reads what the scanner reads, and stops with a message where it does not
def Tracks {α β : Type} (eff : α → Except Stop β) (o : Option (α × Text))
    (r : Except Stop (Text × β)) : Prop :=
  match o with
  | some (a,t) => r = (eff a).map fun s => (t,s)
  | none => ∃ text, r = .error (.err text)

variable {α β γ : Type} {eff : α → Except Stop β} {text : String}

theorem Tracks.step {o : Option γ} {f : γ → Option (α × Text)} {g : γ → Except Stop (Text × β)}
    (h : ∀ c, Tracks eff (f c) (g c)) : Tracks eff (o.bind f) ((orErr text o).bind g) := by
  cases o with
  | none => exact ⟨text,rfl⟩
  | some c => exact h c

theorem Tracks.ite {c : Prop} [Decidable c] {o o' : Option (α × Text)}
    {r r' : Except Stop (Text × β)} (h : Tracks eff o r) (h' : Tracks eff o' r') :
    Tracks eff (if c then o else o') (if c then r else r') := by
  split
  · exact h
  · exact h'

theorem parseOperands_tracks (k : Nat) (inst : Instr) (ptr : Text) (s : Parse) :
    Tracks (fun arg => arg.apply k inst s) (scanArg inst ptr) (parseOperands k inst ptr s) := by
  rw [scanArg,parseOperands]
  refine .ite rfl (.ite ?_ (.ite ?_ (.ite ?_ (.ite ?_ (.ite ?_ (.ite ?_ (.ite ?_ (.ite ?_ ?_))))))))
  · exact .step fun (imm,ptr) => .step fun ptr => .step fun (rB,ptr) => rfl
  · exact .step fun (rA,ptr) => .step fun ptr => .step fun ((disp,rB),ptr) => rfl
  · exact .step fun ((disp,rB),ptr) => .step fun ptr => .step fun (rA,ptr) => rfl
  · exact .step fun (rA,ptr) => .step fun ptr => .step fun (rB,ptr) => rfl
  · exact .step fun (imm,ptr) => rfl
  · exact .step fun (rA,ptr) => rfl
  · exact .step fun (d,ptr) => rfl
  · exact .step fun (v,ptr) => rfl
  · refine .step fun (v,ptr) => ?_
    change Except.bind _ _ = Except.map _ (Except.map _ _)
    cases quot (s.vmaddr + v - 1) v <;> rfl

theorem parseTurn_tracks (k : Nat) (ptr : Text) (s : Parse) :
    Tracks (fun p => p.apply k s) (scanPiece ptr) (parseTurn k ptr s) := by
  rw [scanPiece,parseTurn]
  cases parseLabel ptr with
  | some l =>
    change Except.bind _ _ = Except.map _ (Except.map _ _)
    cases addSymbol l.1 s.vmaddr s.symtab <;> rfl
  | none =>
    refine .step fun (inst,ptr) => ?_
    have h := parseOperands_tracks k inst ptr (s.place inst)
    change Tracks _ ((scanArg inst ptr).bind _) _
    cases ha : scanArg inst ptr with
    | none => exact (ha ▸ h :)
    | some l => exact (ha ▸ h :)

end Tracks

section Progress

variable {s t : Text} {inst : Instr} {arg : Arg} {p : Piece}

-- which operands an item has
def Arg.Fits (inst : Instr) : Arg → Prop
  | .none => high inst.code = iNop ∨ high inst.code = iHalt ∨ high inst.code = iRet
  | .reg a => (high inst.code = iPushq ∨ high inst.code = iPopq) ∧ a < regNone
  | .regs a b => (high inst.code = iRrmovq ∨ high inst.code = iAlu) ∧ a < regNone ∧ b < regNone
  | .immReg _ b => high inst.code = iIrmovq ∧ b < regNone
  | .regMem a _ b => high inst.code = iRmmovq ∧ a < regNone ∧ b < regNone
  | .memReg _ b a => high inst.code = iMrmovq ∧ a < regNone ∧ b < regNone
  | .dest _ => high inst.code = iJmp ∨ high inst.code = iCall
  | .data _ => iPopq < high inst.code ∧ low inst.code = dData
  | .pos _ => iPopq < high inst.code ∧ low inst.code = dPos
  | .align _ => iPopq < high inst.code ∧ low inst.code ≠ dData ∧ low inst.code ≠ dPos

theorem scanArg_spec (h : scanArg inst s = some (arg,t)) : t <:+ s ∧ arg.Fits inst := by
  rw [scanArg] at h
  obtain ⟨i0,h⟩ | ⟨i0,h⟩ := ite_eq_iff.mp h
  · cases h
    exact ⟨List.suffix_rfl,i0⟩
  obtain ⟨i3,h⟩ | ⟨i3,h⟩ := ite_eq_iff.mp h
  · obtain ⟨⟨imm,s1⟩,h1,h⟩ := Option.bind_eq_some_iff.mp h
    obtain ⟨s2,h2,h⟩ := Option.bind_eq_some_iff.mp h
    obtain ⟨⟨b,s3⟩,h3,h⟩ := Option.bind_eq_some_iff.mp h
    cases h
    exact ⟨(parseReg_suffix h3).trans ((parseDelim_suffix h2).trans (parseImm_suffix h1)),
      i3,parseReg_lt h3⟩
  obtain ⟨i4,h⟩ | ⟨i4,h⟩ := ite_eq_iff.mp h
  · obtain ⟨⟨a,s1⟩,h1,h⟩ := Option.bind_eq_some_iff.mp h
    obtain ⟨s2,h2,h⟩ := Option.bind_eq_some_iff.mp h
    obtain ⟨⟨⟨d,b⟩,s3⟩,h3,h⟩ := Option.bind_eq_some_iff.mp h
    cases h
    obtain ⟨h3,hb⟩ := parseMem_spec h3
    exact ⟨h3.trans ((parseDelim_suffix h2).trans (parseReg_suffix h1)),i4,parseReg_lt h1,hb⟩
  obtain ⟨i5,h⟩ | ⟨i5,h⟩ := ite_eq_iff.mp h
  · obtain ⟨⟨⟨d,b⟩,s1⟩,h1,h⟩ := Option.bind_eq_some_iff.mp h
    obtain ⟨s2,h2,h⟩ := Option.bind_eq_some_iff.mp h
    obtain ⟨⟨a,s3⟩,h3,h⟩ := Option.bind_eq_some_iff.mp h
    cases h
    obtain ⟨h1,hb⟩ := parseMem_spec h1
    exact ⟨(parseReg_suffix h3).trans ((parseDelim_suffix h2).trans h1),i5,parseReg_lt h3,hb⟩
  obtain ⟨i2,h⟩ | ⟨i2,h⟩ := ite_eq_iff.mp h
  · obtain ⟨⟨a,s1⟩,h1,h⟩ := Option.bind_eq_some_iff.mp h
    obtain ⟨s2,h2,h⟩ := Option.bind_eq_some_iff.mp h
    obtain ⟨⟨b,s3⟩,h3,h⟩ := Option.bind_eq_some_iff.mp h
    cases h
    exact ⟨(parseReg_suffix h3).trans ((parseDelim_suffix h2).trans (parseReg_suffix h1)),
      i2,parseReg_lt h1,parseReg_lt h3⟩
  obtain ⟨i7,h⟩ | ⟨i7,h⟩ := ite_eq_iff.mp h
  · obtain ⟨⟨imm,s1⟩,h1,h⟩ := Option.bind_eq_some_iff.mp h
    cases h
    exact ⟨parseImm_suffix h1,i7⟩
  obtain ⟨i10,h⟩ | ⟨i10,h⟩ := ite_eq_iff.mp h
  · obtain ⟨⟨a,s1⟩,h1,h⟩ := Option.bind_eq_some_iff.mp h
    cases h
    exact ⟨parseReg_suffix h1,i10,parseReg_lt h1⟩
  have hdir : iPopq < high inst.code := by
    simp only [iHalt,iNop,iRrmovq,iIrmovq,iRmmovq,iMrmovq,iAlu,iJmp,iCall,iRet,iPushq,iPopq]
      at i0 i2 i3 i4 i5 i7 i10 ⊢
    omega
  obtain ⟨hd,h⟩ | ⟨hd,h⟩ := ite_eq_iff.mp h
  · obtain ⟨⟨d,s1⟩,h1,h⟩ := Option.bind_eq_some_iff.mp h
    cases h
    exact ⟨parseData_suffix h1,hdir,hd⟩
  obtain ⟨hp,h⟩ | ⟨hp,h⟩ := ite_eq_iff.mp h
  · obtain ⟨⟨v,s1⟩,h1,h⟩ := Option.bind_eq_some_iff.mp h
    cases h
    exact ⟨parseDigit_suffix h1,hdir,hp⟩
  · obtain ⟨⟨v,s1⟩,h1,h⟩ := Option.bind_eq_some_iff.mp h
    cases h
    exact ⟨parseDigit_suffix h1,hdir,hd,hp⟩

-- an item has an entry of the instruction table and operands that fit it
def Piece.WellFormed : Piece → Prop
  | .label _ => True
  | .item inst arg => inst ∈ instrSet ∧ arg.Fits inst

theorem scanPiece_spec (h : scanPiece s = some (p,t)) :
    t <:+ s ∧ t.length < s.length ∧ p.WellFormed := by
  rw [scanPiece] at h
  split at h
  · rename_i hl
    cases h
    exact ⟨(parseLabel_spec hl).1,(parseLabel_spec hl).2,trivial⟩
  · obtain ⟨⟨inst,s1⟩,h1,h⟩ := Option.bind_eq_some_iff.mp h
    obtain ⟨⟨arg,s2⟩,h2,h⟩ := Option.bind_eq_some_iff.mp h
    cases h
    obtain ⟨hm,hi,hl⟩ := parseInstr_spec h1
    obtain ⟨hs,hf⟩ := scanArg_spec h2
    exact ⟨hs.trans hi,Nat.lt_of_le_of_lt hs.length_le hl,hm,hf⟩

end Progress

section Lines

variable {k n m : Nat} {s : Parse} {ptr t : Text} {p : Piece} {ps : List Piece}

theorem parseTurn_of_scan (h : scanPiece ptr = some (p,t)) :
    parseTurn k ptr s = (p.apply k s).map fun s => (t,s) := by
  have ht := parseTurn_tracks k ptr s
  rwa [h] at ht

theorem parseTurn_of_none (h : scanPiece ptr = none) :
    ∃ text, parseTurn k ptr s = .error (.err text) := by
  have ht := parseTurn_tracks k ptr s
  rwa [h] at ht

theorem parseLoop_of_scan (h : scanLoop n ptr = some ps) : parseLoop k n ptr s = applyAll k ps s := by
  induction n generalizing ptr ps s with
  | zero =>
    obtain rfl := Option.some.inj h
    rfl
  | succ n ih =>
    simp only [scanLoop] at h
    simp only [parseLoop]
    split at h
    · rename_i hend
      obtain rfl := Option.some.inj h
      rw [if_pos hend]
      rfl
    · rename_i hend
      rw [if_neg hend]
      obtain ⟨⟨p,t⟩,hp,h⟩ := Option.bind_eq_some_iff.mp h
      obtain ⟨qs,hq,rfl⟩ := Option.map_eq_some_iff.mp h
      rw [parseTurn_of_scan hp,applyAll,List.foldlM_cons]
      cases p.apply k s with
      | error e => rfl
      | ok s => exact ih hq

theorem parseLoop_of_none (h : scanLoop n ptr = none) : ∃ e, parseLoop k n ptr s = .error e := by
  induction n generalizing ptr s with
  | zero => cases h
  | succ n ih =>
    simp only [scanLoop] at h
    simp only [parseLoop]
    split at h
    · cases h
    · rename_i hend
      rw [if_neg hend]
      cases hp : scanPiece (skipBlank ptr) with
      | none =>
        obtain ⟨text,he⟩ := parseTurn_of_none (k := k) (s := s) hp
        rw [he]
        exact ⟨_,rfl⟩
      | some q =>
        obtain ⟨p,t⟩ := q
        rw [hp,Option.bind_some,Option.map_eq_none_iff] at h
        rw [parseTurn_of_scan hp]
        cases p.apply k s with
        | error e => exact ⟨e,rfl⟩
        | ok s => exact ih h

theorem scanLoop_wellFormed (h : scanLoop n ptr = some ps) : ∀ p ∈ ps, p.WellFormed := by
  induction n generalizing ptr ps with
  | zero =>
    obtain rfl := Option.some.inj h
    simp
  | succ n ih =>
    simp only [scanLoop] at h
    split at h
    · obtain rfl := Option.some.inj h
      simp
    · obtain ⟨⟨p,t⟩,hp,h⟩ := Option.bind_eq_some_iff.mp h
      obtain ⟨qs,hq,rfl⟩ := Option.map_eq_some_iff.mp h
      exact List.forall_mem_cons.mpr ⟨(scanPiece_spec hp).2.2,ih hq⟩

theorem parseLine_of_scan (h : scanLine s.line.y64asm = some ps) : parseLine k s = applyAll k ps s :=
  parseLoop_of_scan h

theorem parseLine_of_none (h : scanLine s.line.y64asm = none) : ∃ e, parseLine k s = .error e :=
  parseLoop_of_none h

end Lines

end Asm
