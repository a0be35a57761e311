import IcsLabs.Asm.Cuts
import IcsLabs.Asm.Symbols
import IcsLabs.Lib.Y86
import IcsLabs.Sim.Report

namespace Asm
open Bytes Keywords

-- what a mnemonic stands for
inductive Operation where
  | nop
  | halt
  | rrmovq (c : Y86.Cond)
  | irmovq
  | rmmovq
  | mrmovq
  | opq (op : Y86.Alu)
  | jxx (c : Y86.Cond)
  | call
  | ret
  | pushq
  | popq
deriving DecidableEq

def mnemonics : List (Text × Operation) :=
  [("nop".toList,.nop),
    ("halt".toList,.halt),
    ("rrmovq".toList,.rrmovq .yes),
    ("cmovle".toList,.rrmovq .le),
    ("cmovl".toList,.rrmovq .l),
    ("cmove".toList,.rrmovq .e),
    ("cmovne".toList,.rrmovq .ne),
    ("cmovge".toList,.rrmovq .ge),
    ("cmovg".toList,.rrmovq .g),
    ("irmovq".toList,.irmovq),
    ("rmmovq".toList,.rmmovq),
    ("mrmovq".toList,.mrmovq),
    ("addq".toList,.opq .add),
    ("subq".toList,.opq .sub),
    ("andq".toList,.opq .and),
    ("xorq".toList,.opq .xor),
    ("jmp".toList,.jxx .yes),
    ("jle".toList,.jxx .le),
    ("jl".toList,.jxx .l),
    ("je".toList,.jxx .e),
    ("jne".toList,.jxx .ne),
    ("jge".toList,.jxx .ge),
    ("jg".toList,.jxx .g),
    ("call".toList,.call),
    ("ret".toList,.ret),
    ("pushq".toList,.pushq),
    ("popq".toList,.popq)]

def operation (name : Text) : Option Operation := mnemonics.lookup name

def Operand.resolved (res : Text → Option Word) : Operand → Option Word
  | .digit v => some v
  | .symbol name => res name

-- the instruction a line stands for, with its names resolved; a displacement not written is 0
def Operation.instr (res : Text → Option Word) : Operation → Arg → Option Y86.Instr
  | .nop, .none => some .nop
  | .halt, .none => some .halt
  | .ret, .none => some .ret
  | .rrmovq c, .regs a b =>
    (Y86.Instr.regOf a).bind fun a => (Y86.Instr.regOf b).map fun b => .rrmovq c a b
  | .opq op, .regs a b =>
    (Y86.Instr.regOf a).bind fun a => (Y86.Instr.regOf b).map fun b => .opq op a b
  | .irmovq, .immReg imm b =>
    (imm.resolved res).bind fun v => (Y86.Instr.regOf b).map fun b => .irmovq v b
  | .rmmovq, .regMem a disp b => (Y86.Instr.regOf a).bind fun a =>
    (Y86.Instr.regOf b).map fun b => .rmmovq a b (disp.getD 0)
  | .mrmovq, .memReg disp b a => (Y86.Instr.regOf b).bind fun b =>
    (Y86.Instr.regOf a).map fun a => .mrmovq (disp.getD 0) b a
  | .jxx c, .dest imm => (imm.resolved res).map (.jxx c)
  | .call, .dest imm => (imm.resolved res).map .call
  | .pushq, .reg a => (Y86.Instr.regOf a).map .pushq
  | .popq, .reg a => (Y86.Instr.regOf a).map .popq
  | _, _ => none

-- the registers under the names the simulator has for them
def simRegister (a : Nat) : Language Char := {w | Sim.regTable[a]? = some w}

-- a line that says one instruction: labels, the longest mnemonic, its operands and a comment
inductive Denotes (res : Text → Option Word) : Text → Y86.Instr → Prop
  | label {b name b' t : Text} {i : Y86.Instr} : b ∈ blanks → name ∈ symbol → b' ∈ blanks →
    Denotes res t i → Denotes res (b ++ (name ++ (b' ++ ':' :: t))) i
  | instr {b name w t : Text} {op : Operation} {arg : Arg} {i : Y86.Instr} : b ∈ blanks →
    operation name = some op → (∀ r, r <+: w ++ t → (operation (name ++ r)).isSome = true → r = []) →
    op.instr res arg = some i → w ∈ arg.text simRegister (memBase simRegister) → t ∈ trailer →
      Denotes res (b ++ (name ++ (w ++ t))) i

-- the first byte of an operation
def Operation.first : Operation → Byte
  | .halt => Y86.pack 0 0
  | .nop => Y86.pack 1 0
  | .rrmovq c => Y86.pack 2 c.code
  | .irmovq => Y86.pack 3 0
  | .rmmovq => Y86.pack 4 0
  | .mrmovq => Y86.pack 5 0
  | .opq op => Y86.pack 6 op.code
  | .jxx c => Y86.pack 7 c.code
  | .call => Y86.pack 8 0
  | .ret => Y86.pack 9 0
  | .pushq => Y86.pack 10 0
  | .popq => Y86.pack 11 0

def Operation.itype : Operation → Nat
  | .halt => iHalt
  | .nop => iNop
  | .rrmovq _ => iRrmovq
  | .irmovq => iIrmovq
  | .rmmovq => iRmmovq
  | .mrmovq => iMrmovq
  | .opq _ => iAlu
  | .jxx _ => iJmp
  | .call => iCall
  | .ret => iRet
  | .pushq => iPushq
  | .popq => iPopq

section Wording

variable {inst : Instr} {arg : Arg} {op : Operation} {i : Y86.Instr} {res : Text → Option Word}
  {s t name : Text} {cs : List Chunk} {ls ps : List Piece} {n : Nat}

-- the two programs number their operations alike
theorem operation_of_mem (hm : inst ∈ instrSet) (hr : high inst.code ≠ iDirective) :
    ∃ op, operation inst.name = some op ∧ inst.code = op.first := by
  have h : ∀ inst ∈ instrSet, high inst.code ≠ iDirective →
      (operation inst.name).any fun op => inst.code = op.first := by decide +kernel
  obtain ⟨op,ho,he⟩ := (Option.any_eq_true _ _).mp (h inst hm hr)
  exact ⟨op,ho,by simpa using he⟩

theorem high_first (op : Operation) : high op.first = op.itype := by
  cases op with
  | rrmovq c | jxx c => cases c <;> rfl
  | opq op => cases op <;> rfl
  | nop | halt | irmovq | rmmovq | mrmovq | call | ret | pushq | popq => rfl

theorem simRegister_eq : simRegister = register := by
  have h1 : ∀ r ∈ regTable, Sim.regTable[r.id]? = some r.name := by decide +kernel
  have h2 : ∀ a < 15, ∀ w ∈ Sim.regTable[a]?, ∃ r ∈ regTable, r.id = a ∧ r.name = w := by
    decide +kernel
  refine funext fun a => Set.ext fun w => ⟨fun h => ?_,?_⟩
  · exact h2 a (List.getElem?_eq_some_iff.mp h).1 w h
  · rintro ⟨r,hr,rfl,rfl⟩
    exact h1 r hr

theorem operation_real (hm : inst ∈ instrSet) (ho : operation inst.name = some op) :
    inst.code = op.first ∧ 0 < inst.bytes := by
  have h : ∀ inst ∈ instrSet, ∀ op, operation inst.name = some op →
      inst.code = op.first ∧ 0 < inst.bytes := by
    have hd : ∀ inst ∈ instrSet, ((operation inst.name).all fun op =>
        inst.code = op.first ∧ 0 < inst.bytes) = true := by decide +kernel
    intro inst hm op ho
    have h := hd inst hm
    rw [ho] at h
    exact of_decide_eq_true h
  exact h inst hm op ho

theorem regOf_lt {a : Nat} {r : Y86.Reg} (h : Y86.Instr.regOf a = some r) : a < regNone := by
  obtain rfl := Y86.Instr.regOf_eq_some.mp h
  exact r.isLt

theorem mem_mnemonics (h : operation name = some op) : (name,op) ∈ mnemonics := by
  obtain ⟨pre,post,he,-⟩ := List.lookup_eq_some_iff.mp h
  rw [he]
  exact List.mem_append_right _ List.mem_cons_self

theorem operation_instr (h : operation name = some op) :
    ∃ inst ∈ instrSet, inst.name = name ∧ inst.code = op.first := by
  have hall : ∀ e ∈ mnemonics, ∃ inst ∈ instrSet, inst.name = e.1 ∧ inst.code = e.2.first := by
    decide +kernel
  exact hall _ (mem_mnemonics h)

theorem operation_letter (h : operation name = some op) : starts isLetter name = true := by
  have hall : ∀ e ∈ mnemonics, starts isLetter e.1 = true := by decide +kernel
  exact hall _ (mem_mnemonics h)

theorem fits_of_instr (h : op.instr res arg = some i) (hc : inst.code = op.first) : arg.Fits inst := by
  have ht : high inst.code = op.itype := hc ▸ high_first op
  rw [Operation.instr.eq_def] at h
  split at h
  · exact Or.inl ht
  · exact Or.inr (Or.inl ht)
  · exact Or.inr (Or.inr ht)
  · obtain ⟨r,ha,h⟩ := Option.bind_eq_some_iff.mp h
    obtain ⟨r',hb,-⟩ := Option.map_eq_some_iff.mp h
    exact ⟨Or.inl ht,regOf_lt ha,regOf_lt hb⟩
  · obtain ⟨r,ha,h⟩ := Option.bind_eq_some_iff.mp h
    obtain ⟨r',hb,-⟩ := Option.map_eq_some_iff.mp h
    exact ⟨Or.inr ht,regOf_lt ha,regOf_lt hb⟩
  · obtain ⟨v,-,h⟩ := Option.bind_eq_some_iff.mp h
    obtain ⟨r',hb,-⟩ := Option.map_eq_some_iff.mp h
    exact ⟨ht,regOf_lt hb⟩
  · obtain ⟨r,ha,h⟩ := Option.bind_eq_some_iff.mp h
    obtain ⟨r',hb,-⟩ := Option.map_eq_some_iff.mp h
    exact ⟨ht,regOf_lt ha,regOf_lt hb⟩
  · obtain ⟨r,hb,h⟩ := Option.bind_eq_some_iff.mp h
    obtain ⟨r',ha,-⟩ := Option.map_eq_some_iff.mp h
    exact ⟨ht,regOf_lt ha,regOf_lt hb⟩
  · exact Or.inl ht
  · exact Or.inr ht
  · obtain ⟨r,ha,-⟩ := Option.map_eq_some_iff.mp h
    exact ⟨Or.inl ht,regOf_lt ha⟩
  · obtain ⟨r,ha,-⟩ := Option.map_eq_some_iff.mp h
    exact ⟨Or.inr ht,regOf_lt ha⟩
  · cases h

theorem longest_operation {u : Text} (hi : inst ∈ instrSet) (ho : operation inst.name = some op)
    (hl : ∀ r, r <+: u → (operation (inst.name ++ r)).isSome = true → r = []) :
    Longest Instr.name instrSet (inst.name ++ u) inst := by
  refine longest_append.mpr ⟨hi,fun j hj r hr hu => ?_⟩
  have hall : ∀ j ∈ instrSet, (operation j.name).isSome = true ∨ starts (· == '.') j.name = true := by
    decide +kernel
  obtain h | h := hall j hj
  · exact hl r hu (hr ▸ h)
  · obtain ⟨c,cs,hc,hcl⟩ := starts_iff.mp (operation_letter ho)
    rw [← hr,hc] at h
    obtain rfl : c = '.' := eq_of_beq h
    cases hcl

-- what a line must be cut into to say an instruction
def OneInstr (res : Text → Option Word) (ps : List Piece) (i : Y86.Instr) : Prop :=
  ∃ ls inst arg op, ps = ls ++ [.item inst arg] ∧ Labels ls ∧ inst ∈ instrSet ∧
    operation inst.name = some op ∧ op.instr res arg = some i

theorem Denotes.cuts (h : Denotes res s i) : ∃ cs, Cuts s cs ∧ OneInstr res (cs.map Chunk.piece) i := by
  induction h with
  | @label b name b' t i hb hn hb' _ ih =>
    obtain ⟨cs,hc,ls,inst,arg,op,hp,hl,h⟩ := ih
    refine ⟨.label name :: cs,.label hb hn hb' hc,.label name :: ls,inst,arg,op,?_,?_,h⟩
    · exact congrArg (Piece.label name :: ·) hp
    · exact List.forall_mem_cons.mpr ⟨⟨name,rfl⟩,hl⟩
  | @instr b name w t op arg i hb ho hl hi hw ht =>
    obtain ⟨inst,hm,rfl,hc⟩ := operation_instr ho
    have hf : arg.Fits inst := fits_of_instr hi hc
    rw [simRegister_eq] at hw
    let it : Item := ⟨inst,arg,w,t⟩
    have hs : it.Stands := by
      refine ⟨?_,longest_operation hm ho hl,hf,hw,operands_stops hf hw (trailer_breaks ht)⟩
      exact (parseLabel_eq_none (skipBlank_item hm _)).mp (parseLabel_item hm ⟨arg,hf,hw⟩ ht)
    exact ⟨[.item it],.item hb hs (.tail ht),[],inst,arg,op,rfl,by simp [Labels],hm,ho,hi⟩

theorem denotes_of_cuts (hc : Cuts s cs) (h : OneInstr res (cs.map Chunk.piece) i) : Denotes res s i := by
  obtain ⟨ls,inst,arg,op,hp,hl,hm,ho,hi⟩ := h
  induction hc generalizing ls with
  | tail _ => cases ls <;> cases hp
  | @label b name b' t cs hb hn hb' _ ih =>
    cases ls with
    | nil => cases (List.cons.inj hp).1
    | cons l ls => exact .label hb hn hb' (ih ls (List.cons.inj hp).2 (List.forall_mem_cons.mp hl).2)
  | @item b it cs hb hs hr ih =>
    cases ls with
    | nil =>
      obtain ⟨hpc,hnil⟩ := List.cons.inj hp
      obtain rfl := List.map_eq_nil_iff.mp hnil
      obtain ⟨rfl,rfl⟩ := Piece.item.inj hpc
      have hw := hs.text
      rw [← simRegister_eq] at hw
      refine .instr hb ho (fun r hr ho' => ?_) hi hw hr.trailer
      obtain ⟨op',ho'⟩ := Option.isSome_iff_exists.mp ho'
      obtain ⟨j,hj,hjn,-⟩ := operation_instr ho'
      exact (longest_append.mp hs.mnemonic).2 j hj r hjn.symm hr
    | cons l ls =>
      obtain ⟨⟨name,rfl⟩,-⟩ := List.forall_mem_cons.mp hl
      cases (List.cons.inj hp).1

theorem denotes_iff (hs : scanLine s = some ps) : Denotes res s i ↔ OneInstr res ps i := by
  constructor
  · intro h
    obtain ⟨cs,hc,hp⟩ := h.cuts
    have hscan := hc.scan (Nat.lt_succ_self _)
    change scanLine s = _ at hscan
    rw [hs] at hscan
    split at hscan
    · rwa [Option.some.inj hscan]
    · cases hscan
  · intro h
    obtain ⟨cs,hc,-,rfl⟩ := cuts_of_scan hs (Nat.lt_succ_self _)
    exact denotes_of_cuts hc h

end Wording

end Asm
