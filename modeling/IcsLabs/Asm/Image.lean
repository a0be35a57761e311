import IcsLabs.Asm.Relocate

namespace Asm
open Bytes

-- the bytes of an item whose operand is v
def Arg.image (inst : Instr) (v : Word) : Arg → List Byte
  | .none => [inst.code]
  | .reg a => [inst.code,hpack a 0xf]
  | .regs a b => [inst.code,hpack a b]
  | .immReg _ b => inst.code :: hpack 0xf b :: Y86.bytesOf 8 v.toNat
  | .regMem a _ b | .memReg _ b a => inst.code :: hpack a b :: Y86.bytesOf 8 v.toNat
  | .dest _ => inst.code :: Y86.bytesOf 8 v.toNat
  | .data _ => Y86.bytesOf inst.bytes v.toNat
  | .pos _ | .align _ => []

def Operand.eval (res : Text → Word) : Operand → Word
  | .digit v => v
  | .symbol name => res name

def Arg.eval (res : Text → Word) : Arg → Word
  | .immReg imm _ | .dest imm | .data imm => imm.eval res
  | .regMem _ disp _ | .memReg disp _ _ => disp.getD 0
  | .pos v | .align v => v
  | _ => 0

def addrOf (symtab : List Symbol) (name : Text) : Word := (resolve symtab name).getD 0

section Image

variable {inst : Instr} {arg : Arg} {d : Draft} {symtab : List Symbol} {k n p : Nat} {v : Word}
  {codes : Nat → Byte}

theorem bytes_eq (hm : inst ∈ instrSet) :
    ((high inst.code = iNop ∨ high inst.code = iHalt ∨ high inst.code = iRet) → inst.bytes = 1) ∧
    ((high inst.code = iRrmovq ∨ high inst.code = iAlu) → inst.bytes = 2) ∧
    ((high inst.code = iPushq ∨ high inst.code = iPopq) → inst.bytes = 2) ∧
    ((high inst.code = iIrmovq ∨ high inst.code = iRmmovq ∨ high inst.code = iMrmovq) →
      inst.bytes = 10) ∧
    ((high inst.code = iJmp ∨ high inst.code = iCall) → inst.bytes = 9) ∧
    (iPopq < high inst.code →
      if low inst.code = dData then 0 < inst.bytes ∧ inst.bytes ≤ 8 else inst.bytes = 0) := by
  revert inst
  decide +kernel

theorem length_image (hw : (Piece.item inst arg).WellFormed) (v : Word) :
    (arg.image inst v).length = inst.bytes := by
  obtain ⟨hm,hf⟩ := hw
  obtain ⟨h1,h2,h2',h10,h9,h0⟩ := bytes_eq hm
  cases arg with
  | none => exact (h1 hf).symm
  | reg a => exact (h2' hf.1).symm
  | regs a b => exact (h2 hf.1).symm
  | immReg imm b => exact (h10 (.inl hf.1)).symm
  | regMem a disp b => exact (h10 (.inr (.inl hf.1))).symm
  | memReg disp b a => exact (h10 (.inr (.inr hf.1))).symm
  | dest imm => exact (h9 hf).symm
  | data imm => exact Y86.length_bytesOf _ _
  | pos v =>
    have h := h0 hf.1
    rw [if_neg (by rw [hf.2]; decide)] at h
    exact h.symm
  | align v =>
    have h := h0 hf.1
    rw [if_neg hf.2.1] at h
    exact h.symm

theorem holds_written {m : Nat} (h : n ≤ m) :
    Y86.Holds (addressMemory codes p v m) p (Y86.bytesOf n v.toNat) := by
  intro i hi
  rw [Y86.length_bytesOf] at hi
  rw [addressMemory,writeLE_inside (by omega)]
  simp [Y86.bytesOf]

theorem written_before {i m : Nat} (h : i < p) : addressMemory codes p v m i = codes i :=
  writeLE_outside (Or.inl h)

theorem holds_nil (m : Nat → Byte) (a : Nat) : Y86.Holds m a [] := fun i hi =>
  absurd hi (Nat.not_lt_zero i)

theorem holds_one {x : Byte} (h : codes 0 = x) (v : Word) :
    Y86.Holds (addressMemory codes 1 v 8) 0 (x :: Y86.bytesOf 8 v.toNat) :=
  Y86.holds_cons.mpr ⟨(written_before Nat.one_pos).trans h,holds_written (Nat.le_refl 8)⟩

theorem holds_two {x y : Byte} (hx : codes 0 = x) (hy : codes 1 = y) (v : Word) :
    Y86.Holds (addressMemory codes 2 v 8) 0 (x :: y :: Y86.bytesOf 8 v.toNat) :=
  Y86.holds_cons.mpr ⟨(written_before Nat.two_pos).trans hx,
    Y86.holds_cons.mpr ⟨(written_before Nat.one_lt_two).trans hy,holds_written (Nat.le_refl 8)⟩⟩

theorem codes_image (h0 : codes 0 = inst.code) (v : Word) :
    Y86.Holds (arg.codes inst v codes) 0 (arg.image inst v) := by
  have hreg (x : Byte) : Function.update codes 1 x 0 = inst.code :=
    (Function.update_of_ne Nat.zero_ne_one x codes).trans h0
  have hself (x : Byte) : Function.update codes 1 x 1 = x := Function.update_self 1 x codes
  cases arg with
  | pos v | align v => exact holds_nil _ _
  | none => exact Y86.holds_cons.mpr ⟨h0,holds_nil _ _⟩
  | reg a => exact Y86.holds_cons.mpr ⟨hreg _,Y86.holds_cons.mpr ⟨hself _,holds_nil _ _⟩⟩
  | regs a b => exact Y86.holds_cons.mpr ⟨hreg _,Y86.holds_cons.mpr ⟨hself _,holds_nil _ _⟩⟩
  | immReg imm b => exact holds_two (hreg _) (hself _) v
  | regMem a disp b => exact holds_two (hreg _) (hself _) v
  | memReg disp b a => exact holds_two (hreg _) (hself _) v
  | dest imm => exact holds_one h0 v
  | data imm => exact holds_written (Nat.le_refl _)

theorem relocate_codes {b : Bin} {c : Byte} (h : b.codes 0 = c) (a : Word) : (b.relocate a).codes =
    addressMemory b.codes
      (if high c = iIrmovq then 2 else if high c = iCall ∨ high c = iJmp then 1 else 0) a 8 := by
  subst h
  rfl

theorem relocate_image {b : Bin} {name : Text} (hw : (Piece.item inst arg).WellFormed)
    (hr : arg.ref = some name) (hb : Y86.Holds b.codes 0 (arg.image inst 0)) (a : Word) :
    Y86.Holds (b.relocate a).codes 0 (arg.image inst a) := by
  obtain ⟨hm,hf⟩ := hw
  cases arg with
  | none | reg a | regs a b | regMem a disp b | memReg disp b a | pos v | align v => cases hr
  | immReg imm r =>
    obtain ⟨h0,h⟩ := Y86.holds_cons.mp hb
    rw [relocate_codes h0,if_pos hf.1]
    exact holds_two h0 (Y86.holds_cons.mp h).1 a
  | dest imm =>
    have hne : high inst.code ≠ iIrmovq := by
      obtain h | h := hf <;> rw [h] <;> decide
    obtain ⟨h0,-⟩ := Y86.holds_cons.mp hb
    rw [relocate_codes h0,if_neg hne,if_pos hf.symm]
    exact holds_one h0 a
  | data imm =>
    obtain ⟨-,-,-,-,-,hbytes⟩ := bytes_eq hm
    have hbytes := hbytes hf.1
    rw [if_pos hf.2] at hbytes
    -- the first byte of the line is a byte of the operand, so the line does not look like a jump
    have h0 : b.codes 0 = 0 := by
      have := hb 0 (by simpa [Arg.image,Y86.length_bytesOf] using hbytes.1)
      simpa [Arg.image,Y86.bytesOf] using this
    rw [relocate_codes h0,if_neg (by decide),if_neg (by decide)]
    exact holds_written hbytes.2

theorem eval_of_ref {name : Text} {res : Text → Word} (hr : arg.ref = some name) :
    arg.eval res = res name := by
  cases arg with
  | none | reg a | regs a b | regMem a disp b | memReg disp b a | pos v | align v => cases hr
  | immReg imm b | dest imm | data imm =>
    cases imm with
    | digit v => cases hr
    | symbol name =>
      cases hr
      rfl

theorem image_holds (hw : (Piece.item inst arg).WellFormed) (hd : d.value = 0) :
    Y86.Holds ((d.add (.item inst arg)).line.patchAll symtab
      ((Piece.item inst arg).refs k)).y64bin.codes 0 (arg.image inst (arg.eval (addrOf symtab))) := by
  have hc : Y86.Holds (d.add (.item inst arg)).line.y64bin.codes 0
      (arg.image inst (arg.value d.value)) := codes_image (Function.update_self ..) _
  cases hr : arg.ref with
  | none =>
    have hv : arg.value d.value = arg.eval (addrOf symtab) := by
      rw [hd]
      cases arg with
      | none | reg a | regs a b | regMem a disp b | memReg disp b a | pos v | align v => rfl
      | immReg imm b | dest imm | data imm =>
        cases imm with
        | digit v => rfl
        | symbol name => cases hr
    have hrefs : (Piece.item inst arg).refs k = [] := by rw [Piece.refs,Piece.ref,hr]; rfl
    rw [hrefs,← hv]
    exact hc
  | some name =>
    have hv : arg.value d.value = 0 := by
      rw [hd]
      cases arg with
      | none | reg a | regs a b | regMem a disp b | memReg disp b a | pos v | align v => cases hr
      | immReg imm b | dest imm | data imm =>
        cases imm with
        | digit v => cases hr
        | symbol name => rfl
    have hrefs : (Piece.item inst arg).refs k = [⟨name,k⟩] := by rw [Piece.refs,Piece.ref,hr]; rfl
    rw [hrefs,eval_of_ref hr]
    exact relocate_image hw hr (hv ▸ hc) _

end Image

end Asm
