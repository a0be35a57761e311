import IcsLabs.Sim.Faults

namespace Sim
open Bytes

def UndefinedFun (icode ifun : Nat) : Prop :=
  if icode = iRrmovq ∨ icode = iJmp then cG < ifun
  else if icode = iAlu then aNone ≤ ifun
  else ifun ≠ 0

instance (icode ifun : Nat) : Decidable (UndefinedFun icode ifun) :=
  inferInstanceAs (Decidable (if icode = iRrmovq ∨ icode = iJmp then cG < ifun
    else if icode = iAlu then aNone ≤ ifun else ifun ≠ 0))

def Undefined (codefun : Byte) : Prop :=
  iPopq < high codefun ∨ UndefinedFun (high codefun) (low codefun)

instance (codefun : Byte) : Decidable (Undefined codefun) := inferInstanceAs (Decidable (_ ∨ _))

-- the classes whose codes nexti tests at all
def Tested (icode ifun : Nat) : Prop :=
  icode = iAlu ∧ aNone ≤ ifun ∨ icode = iJmp ∧ cG < ifun ∨ iPopq < icode

-- of these, the instructions whose second byte or immediate can be read
def Checked (sim : Y64sim) (codefun : Byte) : Prop :=
  (high codefun = iAlu ∨ iPopq < high codefun) ∧ getByteVal sim.m (sim.pc + 1) ≠ none ∨
    high codefun = iJmp ∧ getLongVal sim.m (sim.pc + 1) ≠ none

section Execute

variable {sim : Y64sim} {f : Fetched} {p c : Prop} [Decidable c] {a b : Stat × Y64sim}

def Ins (p : Prop) (out : Stat × Y64sim) : Prop := out.1 = .ins ↔ p

theorem Ins.ite (ha : c → Ins p a) (hb : ¬ c → Ins p b) : Ins p (if c then a else b) := by
  split
  · exact ha ‹c›
  · exact hb ‹¬ c›

-- the classes 0..5 and 8..11
def Plain (icode : Nat) : Prop := icode ≤ iPopq ∧ icode ≠ iAlu ∧ icode ≠ iJmp

instance (icode : Nat) : Decidable (Plain icode) := inferInstanceAs (Decidable (_ ∧ _))

theorem Plain.untested {icode ifun : Nat} (h : Plain icode) : ¬ Tested icode ifun := by
  rintro (⟨ha,-⟩ | ⟨hj,-⟩ | hp)
  · exact h.2.1 ha
  · exact h.2.2 hj
  · exact absurd h.1 (Nat.not_le_of_lt hp)

theorem Ins.plain {n : Nat} (h : f.icode = n) (hn : Plain n) (ho : a.1 ≠ .ins) :
    Ins (Tested f.icode f.ifun) a :=
  iff_of_false ho (h ▸ hn).untested

theorem execute_ins (f : Fetched) (sim : Y64sim) :
    Ins (Tested f.icode f.ifun) (execute f sim) := by
  rw [execute]
  refine .ite (fun h => .plain h (by decide) (by simp)) fun h0 =>
    .ite (fun h => .plain h (by decide) (by simp)) fun h1 =>
    .ite (fun h => .plain h (by decide) (by simp)) fun h2 =>
    .ite (fun h => .plain h (by decide) (by simp)) fun h3 =>
    .ite (fun h => .plain h (by decide) ?rmmovq) fun h4 =>
    .ite (fun h => .plain h (by decide) ?mrmovq) fun h5 => .ite (fun h => ?alu) fun h6 =>
    .ite (fun h => ?jmp) fun h7 => .ite (fun h => .plain h (by decide) ?call) fun h8 =>
    .ite (fun h => .plain h (by decide) ?ret) fun h9 =>
    .ite (fun h => .plain h (by decide) ?pushq) fun h10 =>
    .ite (fun h => .plain h (by decide) ?popq) fun h11 => ?rest
  case alu =>
    refine .ite (fun hf => iff_of_true rfl (.inl ⟨h,hf⟩)) fun hf => iff_of_false (by simp) ?_
    rintro (⟨-,h'⟩ | ⟨h',-⟩ | h')
    · exact hf h'
    · exact absurd (h.symm.trans h') (by decide)
    · rw [h] at h'
      exact absurd h' (by decide)
  case jmp =>
    refine .ite (fun hf => iff_of_true rfl (.inr (.inl ⟨h,hf⟩))) fun hf => iff_of_false (by simp) ?_
    rintro (⟨h',-⟩ | ⟨-,h'⟩ | h')
    · exact absurd (h.symm.trans h') (by decide)
    · exact hf h'
    · rw [h] at h'
      exact absurd h' (by decide)
  case rest =>
    refine iff_of_true rfl (.inr (.inr ?_))
    simp only [iHalt,iNop,iRrmovq,iIrmovq,iRmmovq,iMrmovq,iAlu,iJmp,iCall,iRet,iPushq,iPopq] at *
    omega
  all_goals
    simp only
    split <;> simp

theorem ins_unchanged (h : (execute f sim).1 = .ins) : execute f sim = (.ins,sim) := by
  have ht := (execute_ins f sim).mp h
  have hc (n : Nat) (hn : Plain n) : f.icode ≠ n := fun he => (he ▸ hn).untested ht
  exact Prod.ext h (execute_harmless (hc iCall (by decide)) (hc iPushq (by decide)) (by simp [h]))

end Execute

section Undefined

variable {sim : Y64sim} {b : Byte}

theorem undefined_tested (hu : Undefined b) : Tested (high b) (low b) ↔
    high b = iAlu ∨ high b = iJmp ∨ iPopq < high b := by
  constructor
  · rintro (⟨h,-⟩ | ⟨h,-⟩ | h)
    · exact .inl h
    · exact .inr (.inl h)
    · exact .inr (.inr h)
  · rintro (h | h | h)
    · rw [Undefined,h] at hu
      exact .inl ⟨h,hu.resolve_left (by decide)⟩
    · rw [Undefined,h] at hu
      exact .inr (.inl ⟨h,hu.resolve_left (by decide)⟩)
    · exact .inr (.inr h)

theorem unknown_length : ∀ icode < 16, iPopq < icode →
    noRegs icode = false ∧ hasImm icode = false := by
  decide

theorem high_lt (b : Byte) : high b < 16 := Nat.lt_succ_of_le Nat.and_le_right

theorem fetched_checked (h : getByteVal sim.m sim.pc = some b) (hu : Undefined b) :
    Checked sim b ↔ fetch sim ≠ .error .adr ∧ Tested (high b) (low b) := by
  rw [undefined_tested hu,Checked]
  by_cases hj : high b = iJmp
  · have hf := fetch_imm h (hj ▸ rfl) (hj ▸ rfl)
    rw [ne_eq (fetch sim),hf,getLongVal_ite]
    simp [hj,iAlu,iJmp,iPopq]
  · have hn (hr : high b = iAlu ∨ iPopq < high b) :
        noRegs (high b) = false ∧ hasImm (high b) = false := by
      rcases hr with hr | hr
      · rw [hr]
        decide
      · exact unknown_length _ (high_lt b) hr
    simp only [hj,false_and,or_false,false_or]
    by_cases hr : high b = iAlu ∨ iPopq < high b
    · rw [ne_eq (fetch sim),fetch_regs h (hn hr).1 (hn hr).2]
      exact and_comm
    · exact iff_of_false (fun hc => hr hc.1) fun hc => hr hc.2

end Undefined

theorem undefined_rejected {sim : Y64sim} {b : Byte} (h : getByteVal sim.m sim.pc = some b)
    (hu : Undefined b) : nexti sim = (.ins,sim) ↔ Checked sim b := by
  rw [fetched_checked h hu]
  rcases fetch_cases h with hf | ⟨rA,rB,c,next,hf⟩
  · rw [nexti,hf]
    exact iff_of_false (by simp) fun hc => hc.1 rfl
  · have hi : (execute ⟨high b,low b,rA,rB,c,next⟩ sim).1 = .ins ↔ Tested (high b) (low b) :=
      execute_ins _ sim
    rw [nexti,hf,and_iff_right (by simp),← hi]
    exact ⟨fun he => congrArg Prod.fst he,ins_unchanged⟩

-- a conditional move above C_G
def cmovSeven : Y64sim where
  pc := 0
  r := ⟨128,fun _ => 0⟩
  m := ⟨64,fun x => if x = 0 then 0x27 else if x = 1 then 0x01 else 0⟩
  cc := 4

theorem undefined_rejected_cmov : getByteVal cmovSeven.m cmovSeven.pc = some 0x27 ∧
    Undefined 0x27 ∧ nexti cmovSeven ≠ (.ins,cmovSeven) := by
  refine ⟨by decide,by decide,fun h => ?_⟩
  have hs := congrArg Prod.fst h
  revert hs
  decide +kernel

-- instruction code 12 on the last byte of memory
def lastByte : Y64sim where
  pc := 63
  r := ⟨128,fun _ => 0⟩
  m := ⟨64,fun _ => 0xc0⟩
  cc := 4

theorem undefined_rejected_last : nexti lastByte = (.ins,lastByte) ↔ Checked lastByte 0xc0 :=
  undefined_rejected (by decide) (by decide)

end Sim
