import IcsLabs.Lib.Traced
import IcsLabs.Sim.Faults

namespace Sim
open Bytes

-- one access to m->data, with the length of that memory
structure Access where
  len : Int
  index : Int

def Access.Inside (a : Access) : Prop := 0 ≤ a.index ∧ a.index < a.len

instance (a : Access) : Decidable a.Inside := inferInstanceAs (Decidable (_ ∧ _))

abbrev Trace := Traced Access

-- the functions of the simulator again, each with the accesses it makes
namespace Logged

def load (m : Mem) (i : Word) : Trace Byte := ⟨m.data i.toNat,[⟨m.len,i.toInt⟩]⟩

def store (m : Mem) (i : Word) (b : Byte) : Trace Mem :=
  ⟨{ m with data := Function.update m.data i.toNat b },[⟨m.len,i.toInt⟩]⟩

def getByteVal (m : Mem) (addr : Word) : Trace (Option Byte) :=
  if addr.toInt < 0 ∨ addr.toInt ≥ m.len then return none
  else do
    let b ← load m addr
    return some b

def longBytes (m : Mem) (addr : Word) : Nat → Trace Word
  | 0 => return 0
  | i + 1 => do
    let val ← longBytes m addr i
    let b ← load m (addr + BitVec.ofNat 64 i)
    return val ||| b.setWidth 64 <<< (8 * i)

def getLongVal (m : Mem) (addr : Word) : Trace (Option Word) :=
  if addr.toInt < 0 ∨ (addr + 8).toInt > m.len then return none
  else do
    let val ← longBytes m addr 8
    return some val

def putBytes (addr : Word) : Nat → Nat → Word → Mem → Trace Mem
  | 0, _, _, m => return m
  | n + 1, i, val, m => do
    let m ← store m (addr + BitVec.ofNat 64 i) ((val &&& 0xff).setWidth 8)
    putBytes addr n (i + 1) (val.sshiftRight 8) m

def setLongVal (m : Mem) (addr val : Word) : Trace (Option Mem) :=
  if addr.toInt < 0 ∨ (addr + 8).toInt > m.len then return none
  else do
    let m ← putBytes addr 8 0 val m
    return some m

def getRegVal (r : Mem) (id : Nat) : Trace Word :=
  if id ≥ regNone then return 0
  else do
    let val ← getLongVal r (BitVec.ofNat 64 (id * 8))
    return val.getD 0

def setRegVal (r : Mem) (id : Nat) (val : Word) : Trace Mem :=
  if id < regNone then do
    let r' ← setLongVal r (BitVec.ofNat 64 (id * 8)) val
    return r'.getD r
  else return r

def fetchRegs (m : Mem) (icode : Nat) (nextPc : Word) :
    Trace (Except Stat (Nat × Nat × Word)) :=
  if noRegs icode then return .ok (0,0,nextPc)
  else do
    match ← getByteVal m nextPc with
    | none => return .error .adr
    | some codefun => return .ok (high codefun,low codefun,nextPc + 1)

def fetchImm (m : Mem) (icode : Nat) (nextPc : Word) : Trace (Except Stat (Word × Word)) :=
  if hasImm icode then do
    match ← getLongVal m nextPc with
    | none => return .error .adr
    | some addr => return .ok (addr,nextPc + 8)
  else return .ok (0,nextPc)

def fetch (sim : Y64sim) : Trace (Except Stat Fetched) := do
  match ← getByteVal sim.m sim.pc with
  | none => return .error .adr
  | some codefun =>
    let icode := high codefun
    match ← fetchRegs sim.m icode (sim.pc + 1) with
    | .error stat => return .error stat
    | .ok (raid,rbid,nextPc) =>
      match ← fetchImm sim.m icode nextPc with
      | .error stat => return .error stat
      | .ok (addr,nextPc) => return .ok ⟨icode,low codefun,raid,rbid,addr,nextPc⟩

def execute (f : Fetched) (sim : Y64sim) : Trace (Stat × Y64sim) :=
  if f.icode = iHalt then return (.hlt,sim)
  else if f.icode = iNop then return (.aok,{ sim with pc := f.nextPc })
  else if f.icode = iRrmovq then
    if condDoit sim.cc f.ifun then do
      let rAVal ← getRegVal sim.r f.raid
      let r ← setRegVal sim.r f.rbid rAVal
      return (.aok,{ sim with r := r, pc := f.nextPc })
    else return (.aok,{ sim with pc := f.nextPc })
  else if f.icode = iIrmovq then do
    let r ← setRegVal sim.r f.rbid f.addr
    return (.aok,{ sim with r := r, pc := f.nextPc })
  else if f.icode = iRmmovq then do
    let rAVal ← getRegVal sim.r f.raid
    let rBVal ← getRegVal sim.r f.rbid
    let rEVal := computeAlu aAdd rBVal f.addr
    match ← setLongVal sim.m rEVal rAVal with
    | none => return (.adr,sim)
    | some m => return (.aok,{ sim with m := m, pc := f.nextPc })
  else if f.icode = iMrmovq then do
    let rBVal ← getRegVal sim.r f.rbid
    let rEVal := computeAlu aAdd rBVal f.addr
    match ← getLongVal sim.m rEVal with
    | none => return (.adr,sim)
    | some rBMval =>
      let r ← setRegVal sim.r f.raid rBMval
      return (.aok,{ sim with r := r, pc := f.nextPc })
  else if f.icode = iAlu then
    if aNone ≤ f.ifun then return (.ins,sim)
    else do
      let rAVal ← getRegVal sim.r f.raid
      let rBVal ← getRegVal sim.r f.rbid
      let rEVal := computeAlu f.ifun rAVal rBVal
      let r ← setRegVal sim.r f.rbid rEVal
      return (.aok,{ sim with
        cc := computeCc f.ifun rAVal rBVal rEVal
        r := r
        pc := f.nextPc })
  else if f.icode = iJmp then
    if cG < f.ifun then return (.ins,sim)
    else return (.aok,{ sim with pc := if condDoit sim.cc f.ifun then f.addr else f.nextPc })
  else if f.icode = iCall then do
    let rsp ← getRegVal sim.r regRsp
    let rEVal := computeAlu aSub 8 rsp
    let r ← setRegVal sim.r regRsp rEVal
    let sim := { sim with r := r }
    match ← setLongVal sim.m rEVal f.nextPc with
    | none => return (.adr,sim)
    | some m => return (.aok,{ sim with m := m, pc := f.addr })
  else if f.icode = iRet then do
    let rsp ← getRegVal sim.r regRsp
    match ← getLongVal sim.m rsp with
    | none => return (.adr,sim)
    | some nextPc =>
      let rEVal := computeAlu aAdd 8 rsp
      let r ← setRegVal sim.r regRsp rEVal
      return (.aok,{ sim with r := r, pc := nextPc })
  else if f.icode = iPushq then do
    let rAVal ← getRegVal sim.r f.raid
    let rsp ← getRegVal sim.r regRsp
    let rEVal := computeAlu aSub 8 rsp
    let r ← setRegVal sim.r regRsp rEVal
    let sim := { sim with r := r }
    match ← setLongVal sim.m rEVal rAVal with
    | none => return (.adr,sim)
    | some m => return (.aok,{ sim with m := m, pc := f.nextPc })
  else if f.icode = iPopq then do
    let rsp ← getRegVal sim.r regRsp
    match ← getLongVal sim.m rsp with
    | none => return (.adr,sim)
    | some rspMval =>
      let rEVal := computeAlu aAdd 8 rsp
      let r ← setRegVal sim.r regRsp rEVal
      let r ← setRegVal r f.raid rspMval
      return (.aok,{ sim with r := r, pc := f.nextPc })
  else return (.ins,sim)

def nexti (sim : Y64sim) : Trace (Stat × Y64sim) := do
  match ← fetch sim with
  | .error stat => return (stat,sim)
  | .ok f => execute f sim

section Values

variable {m r : Mem} {addr val : Word} {icode n i id : Nat}

theorem longBytes_val : (longBytes m addr n).val = Sim.longBytes m.data addr n := by
  induction n with
  | zero => rfl
  | succ n ih => simp only [longBytes,Traced.val_bind,Traced.val_pure,ih,Sim.longBytes,load]

theorem putBytes_val : (putBytes addr n i val m).val =
    { m with data := Sim.putBytes addr n i val m.data } := by
  induction n generalizing i val m with
  | zero => rfl
  | succ n ih =>
    rw [putBytes,Traced.val_bind,ih]
    rfl

@[simp] theorem getByteVal_val : (getByteVal m addr).val = Sim.getByteVal m addr := by
  rw [getByteVal,Sim.getByteVal,apply_ite Traced.val]
  rfl

@[simp] theorem getLongVal_val : (getLongVal m addr).val = Sim.getLongVal m addr := by
  rw [getLongVal,Sim.getLongVal,apply_ite Traced.val,Traced.val_bind,longBytes_val]
  rfl

@[simp] theorem setLongVal_val : (setLongVal m addr val).val = Sim.setLongVal m addr val := by
  rw [setLongVal,Sim.setLongVal,apply_ite Traced.val,Traced.val_bind,putBytes_val]
  rfl

@[simp] theorem getRegVal_val : (getRegVal r id).val = Sim.getRegVal r id := by
  rw [getRegVal,Sim.getRegVal,apply_ite Traced.val,Traced.val_bind,getLongVal_val]
  rfl

@[simp] theorem setRegVal_val : (setRegVal r id val).val = Sim.setRegVal r id val := by
  rw [setRegVal,Sim.setRegVal,apply_ite Traced.val,Traced.val_bind,setLongVal_val]
  rfl

@[simp] theorem fetchRegs_val : (fetchRegs m icode addr).val = Sim.fetchRegs m icode addr := by
  rw [fetchRegs,Sim.fetchRegs,apply_ite Traced.val,Traced.val_bind,getByteVal_val]
  cases Sim.getByteVal m addr <;> rfl

@[simp] theorem fetchImm_val : (fetchImm m icode addr).val = Sim.fetchImm m icode addr := by
  rw [fetchImm,Sim.fetchImm,apply_ite Traced.val,Traced.val_bind,getLongVal_val]
  cases Sim.getLongVal m addr <;> rfl

@[simp] theorem fetch_val (sim : Y64sim) : (fetch sim).val = Sim.fetch sim := by
  rw [fetch,Sim.fetch,Traced.val_bind,getByteVal_val]
  cases Sim.getByteVal sim.m sim.pc with
  | none => rfl
  | some b =>
    simp only [Traced.val_bind,fetchRegs_val]
    cases Sim.fetchRegs sim.m (high b) (sim.pc + 1) with
    | error e => rfl
    | ok q =>
      simp only [fetchImm_val,bind,Except.bind]
      cases Sim.fetchImm sim.m (high b) q.2.2 <;> rfl

theorem val_ite {α : Type} {c : Prop} [Decidable c] {x y : Trace α} {a b : α} (hx : x.val = a)
    (hy : y.val = b) : (if c then x else y).val = if c then a else b := by
  rw [apply_ite Traced.val,hx,hy]

theorem execute_val (f : Fetched) (sim : Y64sim) : (execute f sim).val = Sim.execute f sim := by
  rw [execute,Sim.execute]
  refine val_ite rfl (val_ite rfl (val_ite ?rrmovq (val_ite ?irmovq (val_ite ?rmmovq (val_ite ?mrmovq
    (val_ite (val_ite rfl ?alu) (val_ite (val_ite rfl rfl) (val_ite ?call (val_ite ?ret
    (val_ite ?pushq (val_ite ?popq rfl)))))))))))
  case rrmovq =>
    cases condDoit sim.cc f.ifun with
    | true => simp
    | false => rfl
  case irmovq => simp
  case alu => simp
  case rmmovq =>
    simp only [Traced.val_bind,getRegVal_val,setLongVal_val]
    cases Sim.setLongVal sim.m _ _ <;> rfl
  case mrmovq =>
    simp only [Traced.val_bind,getRegVal_val,getLongVal_val]
    cases Sim.getLongVal sim.m _ <;> simp
  case call =>
    simp only [Traced.val_bind,getRegVal_val,setRegVal_val,setLongVal_val]
    cases Sim.setLongVal sim.m _ _ <;> rfl
  case ret =>
    simp only [Traced.val_bind,getRegVal_val,getLongVal_val]
    cases Sim.getLongVal sim.m _ <;> simp
  case pushq =>
    simp only [Traced.val_bind,getRegVal_val,setRegVal_val,setLongVal_val]
    cases Sim.setLongVal sim.m _ _ <;> rfl
  case popq =>
    simp only [Traced.val_bind,getRegVal_val,getLongVal_val]
    cases Sim.getLongVal sim.m _ <;> simp

theorem nexti_val (sim : Y64sim) : (nexti sim).val = Sim.nexti sim := by
  rw [nexti,Sim.nexti,Traced.val_bind,fetch_val]
  cases Sim.fetch sim with
  | error e => rfl
  | ok f => exact execute_val f sim

end Values

end Logged

-- the range of the C type of mem_t's len
def IsInt (n : Int) : Prop := -2 ^ 31 ≤ n ∧ n < 2 ^ 31

instance (n : Int) : Decidable (IsInt n) := inferInstanceAs (Decidable (_ ∧ _))

-- an address to which 8 can be added without leaving the 64-bit range
def Steps (addr : Word) : Prop := addr.toInt + 8 < 2 ^ 63

section Arithmetic

variable {m : Mem} {addr : Word} {n : Nat}

theorem toInt_add_index (ha : 0 ≤ addr.toInt) (hn : addr.toInt + n < 2 ^ 63) :
    (addr + BitVec.ofNat 64 n).toInt = addr.toInt + n := by
  have hx := addr.isLt
  rw [BitVec.toInt_eq_toNat_cond] at ha hn ⊢
  split at ha
  · have h : (addr + BitVec.ofNat 64 n).toNat = addr.toNat + n := toNat_add_index (by omega)
    rw [if_pos ‹_›] at hn
    rw [BitVec.toInt_eq_toNat_cond,h,if_pos (by omega),if_pos ‹_›]
    rfl
  · omega

theorem toInt_add_eight (ha : 0 ≤ addr.toInt) (hs : Steps addr) :
    (addr + 8).toInt = addr.toInt + 8 := toInt_add_index (n := 8) ha hs

theorem toInt_add_wraps (hs : ¬ Steps addr) : (addr + 8).toInt = addr.toInt + 8 - 2 ^ 64 := by
  have hx := addr.isLt
  rw [Steps,BitVec.toInt_eq_toNat_cond] at hs
  split at hs
  · have h : (addr + 8).toNat = addr.toNat + 8 := toNat_add_index (n := 8) (by omega)
    rw [BitVec.toInt_eq_toNat_cond,h,if_neg (by omega),BitVec.toInt_eq_toNat_cond,if_pos ‹_›]
    omega
  · omega

theorem rejects_iff (hs : Steps addr) : Rejects m addr ↔ ¬ InBounds m addr 8 := by
  rw [Rejects,InBounds]
  by_cases ha : addr.toInt < 0
  · omega
  · rw [toInt_add_eight (by omega) hs]
    omega

theorem not_rejects (hl : IsInt m.len) (hs : ¬ Steps addr) : ¬ Rejects m addr := by
  have h1 := hl.1
  have h2 := BitVec.toInt_lt (x := addr)
  rw [Rejects,toInt_add_wraps hs]
  rw [Steps] at hs
  omega

theorem not_inBounds (hl : IsInt m.len) (hs : ¬ Steps addr) : ¬ InBounds m addr 8 := by
  have h2 := hl.2
  rw [Steps] at hs
  rw [InBounds]
  omega

end Arithmetic

-- the address in data or stack memory that the instruction reads or writes
def Fetched.operand (f : Fetched) (sim : Y64sim) : Option Word :=
  if f.icode = iRmmovq ∨ f.icode = iMrmovq then some (getRegVal sim.r f.rbid + f.addr)
  else if f.icode = iCall ∨ f.icode = iPushq then some (getRegVal sim.r regRsp - 8)
  else if f.icode = iRet ∨ f.icode = iPopq then some (getRegVal sim.r regRsp)
  else none

namespace Logged

section Bounds

variable {m r : Mem} {addr val : Word} {icode n i id : Nat}

theorem longBytes_all : (longBytes m addr n).All Access.Inside ↔
    ∀ j < n, Access.Inside ⟨m.len,(addr + BitVec.ofNat 64 j).toInt⟩ := by
  induction n with
  | zero => simp [longBytes]
  | succ n ih =>
    rw [Nat.forall_lt_succ_right]
    simp [longBytes,ih,load]

theorem putBytes_all : (putBytes addr n i val m).All Access.Inside ↔
    ∀ j < n, Access.Inside ⟨m.len,(addr + BitVec.ofNat 64 (i + j)).toInt⟩ := by
  induction n generalizing i val m with
  | zero => simp [putBytes]
  | succ n ih =>
    rw [Nat.forall_lt_succ_left]
    simp [putBytes,ih,store,Nat.add_assoc,Nat.add_comm 1]

theorem eight_inside (hl : IsInt m.len) :
    (∀ j < 8, Access.Inside ⟨m.len,(addr + BitVec.ofNat 64 j).toInt⟩) ↔ InBounds m addr 8 := by
  have h2 := hl.2
  constructor
  · intro h
    have h0 := h 0 (by decide)
    have h7 := h 7 (by decide)
    rw [BitVec.add_zero] at h0
    obtain ⟨hi,hlt⟩ : 0 ≤ addr.toInt ∧ addr.toInt < m.len := h0
    rw [toInt_add_index hi (by omega)] at h7
    have hlen : addr.toInt + (7 : Nat) < m.len := h7.2
    exact ⟨hi,by omega⟩
  · intro hb j hj
    have hi := hb.1
    have hlen := hb.2
    rw [toInt_add_index hi (by omega)]
    exact ⟨by simp only; omega,by simp only; omega⟩

theorem getByteVal_all (m : Mem) (addr : Word) : (getByteVal m addr).All Access.Inside := by
  rw [getByteVal]
  refine Traced.all_ite (fun _ => Traced.all_pure _) fun h => ?_
  simp only [load,Traced.all_bind,Traced.all_mk,Traced.all_pure,and_true,Access.Inside]
  omega

theorem long_all {α β : Type} {x : Trace α} {f : α → Trace (Option β)} (hl : IsInt m.len)
    (hx : x.All Access.Inside ↔ InBounds m addr 8) (hf : ∀ a, (f a).All Access.Inside) :
    (if addr.toInt < 0 ∨ (addr + 8).toInt > m.len then return none
      else x >>= f : Trace (Option β)).All Access.Inside ↔ Steps addr := by
  by_cases hs : Steps addr
  · refine iff_of_true (Traced.all_ite (fun _ => Traced.all_pure _) fun h => ?_) hs
    have hb := not_not.mp (mt (rejects_iff hs).mpr h)
    exact (Traced.all_bind x f).mpr ⟨hx.mpr hb,hf _⟩
  · refine iff_of_false (fun h => ?_) hs
    have hn : ¬ (addr.toInt < 0 ∨ (addr + 8).toInt > m.len) := not_rejects hl hs
    rw [if_neg hn,Traced.all_bind] at h
    exact not_inBounds hl hs (hx.mp h.1)

theorem getLongVal_all (hl : IsInt m.len) : (getLongVal m addr).All Access.Inside ↔ Steps addr :=
  long_all hl (longBytes_all.trans (eight_inside hl)) fun _ => Traced.all_pure _

theorem setLongVal_all (hl : IsInt m.len) :
    (setLongVal m addr val).All Access.Inside ↔ Steps addr := by
  refine long_all hl (putBytes_all.trans ?_) fun _ => Traced.all_pure _
  simp only [Nat.zero_add]
  exact eight_inside hl

theorem steps_reg (hi : id < regNone) : Steps (BitVec.ofNat 64 (id * 8)) := by
  have h : id < 15 := hi
  have ha : (BitVec.ofNat 64 (id * 8)).toNat = id * 8 := reg_toNat ⟨id,hi⟩
  rw [Steps,BitVec.toInt_eq_toNat_of_lt (by omega),ha]
  omega

theorem getRegVal_all (hl : IsInt r.len) (id : Nat) : (getRegVal r id).All Access.Inside := by
  rw [getRegVal]
  refine Traced.all_ite (fun _ => Traced.all_pure _) fun h => ?_
  rw [Traced.all_bind,getLongVal_all hl]
  exact ⟨steps_reg (by omega),Traced.all_pure _⟩

theorem setRegVal_all (hl : IsInt r.len) (id : Nat) (val : Word) :
    (setRegVal r id val).All Access.Inside := by
  rw [setRegVal]
  refine Traced.all_ite (fun h => ?_) fun _ => Traced.all_pure _
  rw [Traced.all_bind,setLongVal_all hl]
  exact ⟨steps_reg h,Traced.all_pure _⟩

theorem fetchRegs_all (m : Mem) (icode : Nat) (nextPc : Word) :
    (fetchRegs m icode nextPc).All Access.Inside := by
  rw [fetchRegs]
  refine Traced.all_ite (fun _ => Traced.all_pure _) fun _ => ?_
  rw [Traced.all_bind]
  refine ⟨getByteVal_all m nextPc,?_⟩
  cases (getByteVal m nextPc).val <;> exact Traced.all_pure _

theorem fetchImm_all (hl : IsInt m.len) {nextPc : Word} (hs : Steps nextPc) :
    (fetchImm m icode nextPc).All Access.Inside := by
  rw [fetchImm]
  refine Traced.all_ite (fun _ => ?_) fun _ => Traced.all_pure _
  rw [Traced.all_bind,getLongVal_all hl]
  refine ⟨hs,?_⟩
  cases (getLongVal m nextPc).val <;> exact Traced.all_pure _

theorem fetchRegs_next {rA rB : Nat} {pc next : Word}
    (h : Sim.fetchRegs m icode pc = .ok (rA,rB,next)) : next = pc ∨ next = pc + 1 := by
  rw [Sim.fetchRegs] at h
  cases hn : noRegs icode with
  | true =>
    rw [hn] at h
    cases h
    exact .inl rfl
  | false =>
    rw [hn] at h
    cases hb : Sim.getByteVal m pc with
    | none => simp [hb] at h
    | some b =>
      simp only [hb,Bool.false_eq_true,if_false,Except.ok.injEq,Prod.mk.injEq] at h
      exact .inr h.2.2.symm

theorem getByteVal_lt {b : Byte} (h : Sim.getByteVal m addr = some b) :
    0 ≤ addr.toInt ∧ addr.toInt < m.len := by
  rw [Sim.getByteVal] at h
  by_cases hc : addr.toInt < 0 ∨ addr.toInt ≥ m.len
  · simp [hc] at h
  · omega

theorem steps_next {pc next : Word} (hl : IsInt m.len) (h0 : 0 ≤ pc.toInt) (h1 : pc.toInt < m.len)
    (hn : next = pc + 1 ∨ next = pc + 1 + 1) : Steps next := by
  have h2 := hl.2
  have e1 : (pc + 1).toInt = pc.toInt + 1 := toInt_add_index (n := 1) h0 (by omega)
  have e2 : (pc + 1 + 1).toInt = (pc + 1).toInt + 1 :=
    toInt_add_index (n := 1) (by omega) (by omega)
  rw [Steps]
  rcases hn with rfl | rfl <;> omega

theorem fetch_all {sim : Y64sim} (hl : IsInt sim.m.len) : (fetch sim).All Access.Inside := by
  rw [fetch,Traced.all_bind]
  refine ⟨getByteVal_all _ _,?_⟩
  rw [getByteVal_val]
  cases hb : Sim.getByteVal sim.m sim.pc with
  | none => exact Traced.all_pure _
  | some b =>
    simp only [Traced.all_bind]
    refine ⟨fetchRegs_all _ _ _,?_⟩
    rw [fetchRegs_val]
    cases hr : Sim.fetchRegs sim.m (high b) (sim.pc + 1) with
    | error e => exact Traced.all_pure _
    | ok q =>
      obtain ⟨h0,h1⟩ := getByteVal_lt hb
      simp only [Traced.all_bind]
      refine ⟨fetchImm_all hl (steps_next hl h0 h1 (fetchRegs_next hr)),?_⟩
      cases (fetchImm sim.m (high b) q.2.2).val <;> exact Traced.all_pure _

theorem setRegVal_len (r : Mem) (id : Nat) (val : Word) : (Sim.setRegVal r id val).len = r.len := by
  rw [Sim.setRegVal,setLongVal_ite]
  split_ifs <;> rfl

section Execute

variable {sim : Y64sim} {f : Fetched} {x y : Trace (Stat × Y64sim)} {a : Word}

def Safe (f : Fetched) (sim : Y64sim) (x : Trace (Stat × Y64sim)) : Prop :=
  x.All Access.Inside ↔ ∀ a, f.operand sim = some a → Steps a

theorem Safe.ite {c : Prop} [Decidable c] (hx : c → Safe f sim x) (hy : ¬ c → Safe f sim y) :
    Safe f sim (if c then x else y) := by
  split
  · exact hx ‹c›
  · exact hy ‹¬ c›

theorem Safe.of_none (ho : f.operand sim = none) (hx : x.All Access.Inside) : Safe f sim x :=
  iff_of_true hx fun _ ha => absurd (ho.symm.trans ha) nofun

theorem Safe.of_some (ho : f.operand sim = some a) (hx : x.All Access.Inside ↔ Steps a) :
    Safe f sim x := by
  rw [Safe,hx,ho]
  exact ⟨fun h b hb => Option.some.inj hb ▸ h,fun h => h a rfl⟩

theorem execute_all (hr : IsInt sim.r.len) (hm : IsInt sim.m.len) (f : Fetched) :
    Safe f sim (execute f sim) := by
  have hget := getRegVal_all hr
  have hset := setRegVal_all hr
  rw [execute]
  refine .ite (fun h => ?halt) fun h0 => .ite (fun h => ?nop) fun h1 => .ite (fun h => ?rrmovq)
    fun h2 => .ite (fun h => ?irmovq) fun h3 => .ite (fun h => ?rmmovq)
    fun h4 => .ite (fun h => ?mrmovq) fun h5 => .ite (fun h => ?alu) fun h6 => .ite (fun h => ?jmp)
    fun h7 => .ite (fun h => ?call) fun h8 => .ite (fun h => ?ret) fun h9 => .ite (fun h => ?pushq)
    fun h10 => .ite (fun h => ?popq) fun h11 => ?other
  case halt | nop => exact .of_none (by rw [Fetched.operand,h]; rfl) (Traced.all_pure _)
  case rrmovq =>
    refine .of_none (by rw [Fetched.operand,h]; rfl) (Traced.all_ite (fun _ => ?_)
      fun _ => Traced.all_pure _)
    simp [hget,hset]
  case irmovq =>
    refine .of_none (by rw [Fetched.operand,h]; rfl) ?_
    simp [hset]
  case rmmovq =>
    refine .of_some (by rw [Fetched.operand,h]; rfl) ?_
    simp only [Traced.all_bind,hget,setLongVal_all hm,getRegVal_val,true_and]
    refine and_iff_left ?_
    cases (setLongVal sim.m _ _).val <;> exact Traced.all_pure _
  case mrmovq =>
    refine .of_some (by rw [Fetched.operand,h]; rfl) ?_
    simp only [Traced.all_bind,hget,getLongVal_all hm,getRegVal_val,true_and]
    refine and_iff_left ?_
    cases (getLongVal sim.m _).val with
    | none => exact Traced.all_pure _
    | some v => simp [hset]
  case alu =>
    refine .of_none (by rw [Fetched.operand,h]; rfl) (Traced.all_ite (fun _ => Traced.all_pure _)
      fun _ => ?_)
    simp [hget,hset]
  case jmp =>
    exact .of_none (by rw [Fetched.operand,h]; rfl) (Traced.all_ite (fun _ => Traced.all_pure _)
      fun _ => Traced.all_pure _)
  case call =>
    refine .of_some (by rw [Fetched.operand,h]; rfl) ?_
    simp only [Traced.all_bind,hget,hset,setLongVal_all hm,getRegVal_val,true_and]
    refine and_iff_left ?_
    cases (setLongVal sim.m _ _).val <;> exact Traced.all_pure _
  case ret =>
    refine .of_some (by rw [Fetched.operand,h]; rfl) ?_
    simp only [Traced.all_bind,hget,getLongVal_all hm,getRegVal_val,true_and]
    refine and_iff_left ?_
    cases (getLongVal sim.m _).val with
    | none => exact Traced.all_pure _
    | some v => simp [hset]
  case pushq =>
    refine .of_some (by rw [Fetched.operand,h]; rfl) ?_
    simp only [Traced.all_bind,hget,hset,setLongVal_all hm,getRegVal_val,true_and]
    refine and_iff_left ?_
    cases (setLongVal sim.m _ _).val <;> exact Traced.all_pure _
  case popq =>
    refine .of_some (by rw [Fetched.operand,h]; rfl) ?_
    simp only [Traced.all_bind,hget,getLongVal_all hm,getRegVal_val,true_and]
    refine and_iff_left ?_
    cases (getLongVal sim.m _).val with
    | none => exact Traced.all_pure _
    | some v =>
      simp only [Traced.all_bind,hset,setRegVal_val,true_and]
      exact ⟨setRegVal_all ((setRegVal_len _ _ _).symm ▸ hr) _ _,Traced.all_pure _⟩
  case other =>
    exact .of_none (by simp [Fetched.operand,h4,h5,h8,h9,h10,h11]) (Traced.all_pure _)

theorem nexti_all (hr : IsInt sim.r.len) (hm : IsInt sim.m.len) :
    (nexti sim).All Access.Inside ↔
      ∀ f a, Sim.fetch sim = .ok f → f.operand sim = some a → Steps a := by
  rw [nexti,Traced.all_bind,fetch_val,and_iff_right (fetch_all hm)]
  cases Sim.fetch sim with
  | error e => exact iff_of_true (Traced.all_pure _) nofun
  | ok f =>
    refine (execute_all hr hm f).trans ⟨fun h g a hg ha => ?_,fun h _ => h f _ rfl⟩
    cases hg
    exact h a ha

end Execute

end Bounds

end Logged

theorem rejects_outside {m : Mem} {addr : Word} (hl : IsInt m.len) :
    (¬ InBounds m addr 8 → Rejects m addr) ↔ Steps addr := by
  by_cases hs : Steps addr
  · exact iff_of_true (rejects_iff hs).mpr hs
  · exact iff_of_false (fun h => not_rejects hl hs (h (not_inBounds hl hs))) hs

theorem accesses_inside {sim : Y64sim} (hr : IsInt sim.r.len) (hm : IsInt sim.m.len) :
    (Logged.nexti sim).val = nexti sim ∧
    ((Logged.nexti sim).All Access.Inside ↔
      ∀ f a, fetch sim = .ok f → f.operand sim = some a → Steps a) ∧
    ∀ m addr val, IsInt m.len →
      ((¬ InBounds m addr 8 → getLongVal m addr = none ∧ setLongVal m addr val = none) ↔
        Steps addr) := by
  refine ⟨Logged.nexti_val sim,Logged.nexti_all hr hm,fun m addr val hl => ?_⟩
  have h1 : getLongVal m addr = none ↔ Rejects m addr := by
    rw [getLongVal_ite]
    simp
  have h2 : setLongVal m addr val = none ↔ Rejects m addr := by
    rw [setLongVal_ite]
    simp
  rw [h1,h2,and_self]
  exact rejects_outside hl

-- ret with %rsp at the top of the address range
def retAtTop : Y64sim where
  pc := 0
  r := ⟨128,fun x => if x = 39 then 0x7f else if 32 ≤ x ∧ x < 39 then 0xff else 0⟩
  m := ⟨64,fun x => if x = 0 then 0x90 else 0⟩
  cc := 4

theorem accesses_inside_ret : ¬ (Logged.nexti retAtTop).All Access.Inside := by
  decide +kernel

theorem accesses_inside_pop : (Logged.nexti popRsp).All Access.Inside ↔
    ∀ f a, fetch popRsp = .ok f → f.operand popRsp = some a → Steps a :=
  (@accesses_inside popRsp (by decide) (by decide)).2.1

end Sim
