import IcsLabs.Sim.Step

namespace Sim
open Bytes

-- the test that get_long_val and set_long_val share
def Rejects (m : Mem) (addr : Word) : Prop := addr.toInt < 0 ∨ (addr + 8).toInt > m.len

instance (m : Mem) (addr : Word) : Decidable (Rejects m addr) :=
  inferInstanceAs (Decidable (_ ∨ _))

section Longs

variable {m r : Mem} {addr val : Word} {id : Nat}

theorem getLongVal_ite : getLongVal m addr =
    if Rejects m addr then none else some (longBytes m.data addr 8) := by rfl

theorem setLongVal_ite : setLongVal m addr val =
    if Rejects m addr then none else some { m with data := putBytes addr 8 0 val m.data } := by rfl

theorem setRegVal_rejects (h : Rejects r (BitVec.ofNat 64 (id * 8))) : setRegVal r id val = r := by
  rw [setRegVal,setLongVal_ite,if_pos h]
  exact ite_self r

theorem reg_lt (hi : id < regNone) : id * 8 + 8 ≤ 2 ^ 64 := by
  have : id < 15 := hi
  omega

theorem getRegVal_accepts (hi : id < regNone) (h : ¬ Rejects r (BitVec.ofNat 64 (id * 8))) :
    getRegVal r id = BitVec.ofNat 64 (readLE r.data (id * 8) 8) := by
  have ha : (BitVec.ofNat 64 (id * 8)).toNat = id * 8 := reg_toNat ⟨id,hi⟩
  rw [getRegVal,if_neg (Nat.not_le_of_lt hi),getLongVal_ite,if_neg h,
    longBytes_eq (ha.symm ▸ reg_lt hi),ha]
  rfl

theorem setRegVal_accepts (hi : id < regNone) (h : ¬ Rejects r (BitVec.ofNat 64 (id * 8))) :
    setRegVal r id val = { r with data := writeLE r.data (id * 8) 8 val.toNat } := by
  have ha : (BitVec.ofNat 64 (id * 8)).toNat = id * 8 := reg_toNat ⟨id,hi⟩
  rw [setRegVal,if_pos hi,setLongVal_ite,if_neg h,putBytes_eq (ha.symm ▸ reg_lt hi),ha]
  rfl

theorem getRegVal_setRegVal (hi : id < regNone) (h : ¬ Rejects r (BitVec.ofNat 64 (id * 8))) :
    getRegVal (setRegVal r id val) id = val := by
  have hv : val.toNat < 256 ^ 8 := val.isLt
  have hs := @setRegVal_accepts r val id hi h
  have hl : ¬ Rejects (setRegVal r id val) (BitVec.ofNat 64 (id * 8)) := hs.symm ▸ h
  rw [getRegVal_accepts hi hl,hs,readLE_writeLE_same,Nat.mod_eq_of_lt hv,BitVec.ofNat_toNat,
    BitVec.setWidth_eq]

end Longs

def Harmless (sim : Y64sim) (out : Stat × Y64sim) : Prop := out.1 ≠ .aok → out.2 = sim

section Harmless

variable {sim sim' : Y64sim} {a b : Stat × Y64sim} {c : Prop} [Decidable c]

theorem Harmless.same (stat : Stat) : Harmless sim (stat,sim) := fun _ => rfl

theorem Harmless.aok : Harmless sim (.aok,sim') := fun h => absurd rfl h

theorem Harmless.ite (ha : c → Harmless sim a) (hb : ¬ c → Harmless sim b) :
    Harmless sim (if c then a else b) := by
  split
  · exact ha ‹c›
  · exact hb ‹¬ c›

end Harmless

section Execute

variable {sim : Y64sim} {f : Fetched} {ifun a b : Nat} {c next : Word}

-- call and pushq alone change a register before their last test
theorem execute_harmless (hc : f.icode ≠ iCall) (hp : f.icode ≠ iPushq) :
    Harmless sim (execute f sim) := by
  rw [execute]
  refine .ite (fun _ => .same _) fun _ => .ite (fun _ => .aok) fun _ => .ite (fun _ => .aok)
    fun _ => .ite (fun _ => .aok) fun _ => .ite (fun _ => ?_) fun _ => .ite (fun _ => ?_)
    fun _ => .ite (fun _ => .ite (fun _ => .same _) fun _ => .aok)
    fun _ => .ite (fun _ => .ite (fun _ => .same _) fun _ => .aok)
    fun _ => .ite (fun h => absurd h hc) fun _ => .ite (fun _ => ?_)
    fun _ => .ite (fun h => absurd h hp) fun _ => .ite (fun _ => ?_) fun _ => .same _
  all_goals
    simp only
    split
    · exact .same _
    · exact .aok

theorem sub_eight_ne (v : Word) : v - 8 ≠ v := by
  intro h
  have hv := v.isLt
  have hn := congrArg BitVec.toNat h
  rw [BitVec.toNat_sub,show (8 : Word).toNat = 8 from rfl] at hn
  omega

-- the stack address is refused although %rsp has already moved
theorem half_pushed {val : Word} {out : Stat × Y64sim}
    (hn : setLongVal sim.m (getRegVal sim.r regRsp - 8) val = none →
      out = (.adr,{ sim with r := setRegVal sim.r regRsp (getRegVal sim.r regRsp - 8) }))
    (hs : ∀ m, setLongVal sim.m (getRegVal sim.r regRsp - 8) val = some m → out.1 = .aok) :
    Harmless sim out ↔ ¬ (Rejects sim.m (getRegVal sim.r regRsp - 8) ∧
      ¬ Rejects sim.r (BitVec.ofNat 64 (regRsp * 8))) := by
  rw [setLongVal_ite] at hn hs
  by_cases hm : Rejects sim.m (getRegVal sim.r regRsp - 8)
  · rw [hn (if_pos hm)]
    by_cases hr : Rejects sim.r (BitVec.ofNat 64 (regRsp * 8))
    · rw [setRegVal_rejects hr]
      exact iff_of_true (.same _) fun h => h.2 hr
    · refine iff_of_false (fun h => ?_) fun h => h ⟨hm,hr⟩
      have hsim := h Stat.noConfusion
      have hrsp := congrArg (fun s => getRegVal s.r regRsp) hsim
      simp only [@getRegVal_setRegVal _ _ regRsp (by decide) hr] at hrsp
      exact sub_eight_ne _ hrsp
  · exact iff_of_true (fun h => absurd (hs _ (if_neg hm)) h) fun h => hm h.1

theorem execute_call_harmless : Harmless sim (execute ⟨8,ifun,a,b,c,next⟩ sim) ↔
    ¬ (Rejects sim.m (getRegVal sim.r regRsp - 8) ∧ ¬ Rejects sim.r (BitVec.ofNat 64 (regRsp * 8))) := by
  refine @half_pushed _ next _ (fun h => ?_) fun m h => ?_
  · rw [execute_call,h]
  · rw [execute_call,h]

theorem execute_pushq_harmless : Harmless sim (execute ⟨10,ifun,a,b,c,next⟩ sim) ↔
    ¬ (Rejects sim.m (getRegVal sim.r regRsp - 8) ∧ ¬ Rejects sim.r (BitVec.ofNat 64 (regRsp * 8))) := by
  refine @half_pushed _ (getRegVal sim.r a) _ (fun h => ?_) fun m h => ?_
  · rw [execute_pushq,h]
  · rw [execute_pushq,h]

end Execute

section Fetch

variable {sim : Y64sim} {m : Mem} {b : Byte} {icode : Nat} {pc : Word}

theorem fetchRegs_cases (m : Mem) (icode : Nat) (pc : Word) : fetchRegs m icode pc = .error .adr ∨
    ∃ rA rB next, fetchRegs m icode pc = .ok (rA,rB,next) := by
  rw [fetchRegs]
  cases noRegs icode with
  | true => exact .inr ⟨_,_,_,rfl⟩
  | false =>
    cases getByteVal m pc with
    | none => exact .inl rfl
    | some b => exact .inr ⟨_,_,_,rfl⟩

theorem fetchImm_cases (m : Mem) (icode : Nat) (pc : Word) : fetchImm m icode pc = .error .adr ∨
    ∃ c next, fetchImm m icode pc = .ok (c,next) := by
  rw [fetchImm]
  cases hasImm icode with
  | false => exact .inr ⟨_,_,rfl⟩
  | true =>
    cases getLongVal m pc with
    | none => exact .inl rfl
    | some b => exact .inr ⟨_,_,rfl⟩

theorem fetch_cases (h : getByteVal sim.m sim.pc = some b) : fetch sim = .error .adr ∨
    ∃ rA rB c next, fetch sim = .ok ⟨high b,low b,rA,rB,c,next⟩ := by
  rcases fetchRegs_cases sim.m (high b) (sim.pc + 1) with hr | ⟨rA,rB,next,hr⟩
  · left
    simp only [fetch,h,hr,bind,Except.bind]
  · rcases fetchImm_cases sim.m (high b) next with hi | ⟨c,next',hi⟩
    · left
      simp only [fetch,h,hr,hi,bind,Except.bind]
    · right
      refine ⟨rA,rB,c,next',?_⟩
      simp only [fetch,h,hr,hi,bind,Except.bind]
      rfl

theorem fetchRegs_none (hn : noRegs icode = true) : fetchRegs m icode pc = .ok (0,0,pc) := by
  rw [fetchRegs,hn]
  rfl

theorem fetchImm_none (hi : hasImm icode = false) : fetchImm m icode pc = .ok (0,pc) := by
  rw [fetchImm,hi]
  rfl

theorem fetch_imm (h : getByteVal sim.m sim.pc = some b) (hn : noRegs (high b) = true)
    (hi : hasImm (high b) = true) : fetch sim = .error .adr ↔ Rejects sim.m (sim.pc + 1) := by
  have hj : fetchImm sim.m (high b) (sim.pc + 1) = .error .adr ↔ Rejects sim.m (sim.pc + 1) := by
    rw [fetchImm,if_pos hi,getLongVal_ite]
    by_cases hj : Rejects sim.m (sim.pc + 1)
    · rw [if_pos hj]
      exact iff_of_true rfl hj
    · rw [if_neg hj]
      exact iff_of_false (by simp) hj
  rw [← hj]
  simp only [fetch,h,fetchRegs_none hn,bind,Except.bind]
  rcases fetchImm_cases sim.m (high b) (sim.pc + 1) with he | ⟨c,next,he⟩
  · rw [he]
    exact iff_of_true rfl rfl
  · rw [he]
    exact iff_of_false (fun hf => by cases hf) (by simp)

theorem fetch_regs (h : getByteVal sim.m sim.pc = some b) (hn : noRegs (high b) = false)
    (hi : hasImm (high b) = false) :
    fetch sim = .error .adr ↔ getByteVal sim.m (sim.pc + 1) = none := by
  simp only [fetch,h,fetchRegs,hn,bind,Except.bind]
  cases getByteVal sim.m (sim.pc + 1) with
  | none => exact iff_of_true rfl rfl
  | some q =>
    simp only [Bool.false_eq_true,if_false,fetchImm_none hi]
    exact iff_of_false (fun hf => by cases hf) (by simp)

end Fetch

-- %rsp moves, and then the word has no place
def HalfPushed (sim : Y64sim) : Prop :=
  ∃ b, getByteVal sim.m sim.pc = some b ∧
    (high b = iCall ∧ ¬ Rejects sim.m (sim.pc + 1) ∨
      high b = iPushq ∧ getByteVal sim.m (sim.pc + 1) ≠ none) ∧
    Rejects sim.m (getRegVal sim.r regRsp - 8) ∧ ¬ Rejects sim.r (BitVec.ofNat 64 (regRsp * 8))

theorem fault_unchanged (sim : Y64sim) :
    ((nexti sim).1 ≠ .aok → (nexti sim).2 = sim) ↔ ¬ HalfPushed sim := by
  cases hb : getByteVal sim.m sim.pc with
  | none =>
    rw [nexti,fetch,hb]
    refine iff_of_true (fun _ => rfl) ?_
    rintro ⟨b,h,-⟩
    simp [hb] at h
  | some b =>
    have hp : HalfPushed sim ↔ (high b = iCall ∧ ¬ Rejects sim.m (sim.pc + 1) ∨
      high b = iPushq ∧ getByteVal sim.m (sim.pc + 1) ≠ none) ∧
      Rejects sim.m (getRegVal sim.r regRsp - 8) ∧ ¬ Rejects sim.r (BitVec.ofNat 64 (regRsp * 8)) := by
      simp [HalfPushed,hb]
    rw [hp]
    rcases fetch_cases hb with hf | ⟨rA,rB,c,next,hf⟩
    · rw [nexti,hf]
      refine iff_of_true (fun _ => rfl) ?_
      rintro ⟨⟨hc,hi⟩ | ⟨hc,hi⟩,-⟩
      · exact hi ((fetch_imm hb (hc ▸ rfl) (hc ▸ rfl)).mp hf)
      · exact hi ((fetch_regs hb (hc ▸ rfl) (hc ▸ rfl)).mp hf)
    · rw [nexti,hf]
      by_cases hc : high b = iCall
      · have hi := mt (fetch_imm hb (hc ▸ rfl) (hc ▸ rfl)).mpr (by simp [hf])
        simp only [hc,hi,true_and,not_false_eq_true,true_or]
        exact execute_call_harmless
      · by_cases hq : high b = iPushq
        · have hi := mt (fetch_regs hb (hq ▸ rfl) (hq ▸ rfl)).mpr (by simp [hf])
          simp only [hq,hi,true_and,not_false_eq_true,ne_eq,or_true]
          exact execute_pushq_harmless
        · simp only [hc,hq,false_and,or_self,not_false_eq_true,iff_true]
          exact execute_harmless hc hq

-- pushq %rax at address 0 with %rsp = 0
def pushAtZero : Y64sim where
  pc := 0
  r := ⟨128,fun _ => 0⟩
  m := ⟨64,fun x => if x = 0 then 0xa0 else if x = 1 then 0x0f else 0⟩
  cc := 4

theorem fault_unchanged_pushq :
    ¬ ((nexti pushAtZero).1 ≠ .aok → (nexti pushAtZero).2 = pushAtZero) := by
  intro h
  have hsim := h (by decide +kernel)
  have hrsp := congrArg (fun s => getRegVal s.r regRsp) hsim
  revert hrsp
  decide +kernel

end Sim
