import IcsLabs.Lib.Traced
import IcsLabs.Sim.Words

namespace Sim
open Bytes

abbrev Text := List Char

def blkSize : Int := 32
def memSize : Int := 2 ^ 13
def regSize : Int := 15 * 8

def initMem (len : Int) : Mem := ⟨(len + blkSize - 1).tdiv blkSize * blkSize,fun _ => 0⟩

def dupMem (oldm : Mem) : Mem :=
  let newm := initMem oldm.len
  { newm with data := fun x => if (x : Int) < oldm.len then oldm.data x else newm.data x }

def initReg : Mem := initMem regSize
def dupReg (oldr : Mem) : Mem := dupMem oldr

def newY64sim (slen : Int) : Y64sim where
  pc := 0
  r := initReg
  m := initMem slen
  cc := packCc true false false

-- the bytes of a file; broken: reading past them is an error, not the end of the file
structure BinFile where
  data : List Byte
  broken : Bool

-- fread meets the end of the file only where it asks for more than there is
def loadBinfile (m : Mem) (f : BinFile) : Option Mem :=
  if (f.data.length : Int) < m.len then
    if f.broken then none else some { m with data := fun x => (f.data[x]?).getD (m.data x) }
  else none

def loadImage (slen : Int) (f : BinFile) : Option Y64sim :=
  let sim := newY64sim slen
  (loadBinfile sim.m f).map fun m => { sim with m := m }

def steps : Nat → Y64sim → Y64sim
  | 0, sim => sim
  | n + 1, sim => steps n (nexti sim).2

-- the loop of main with max_steps turns left
def simulate : Nat → Y64sim → Stat × Y64sim
  | 0, sim => (.aok,sim)
  | n + 1, sim => if (nexti sim).1 = .aok then simulate n (nexti sim).2 else nexti sim

def regTable : List Text :=
  ["%rax".toList,"%rcx".toList,"%rdx".toList,"%rbx".toList,"%rsp".toList,"%rbp".toList,
    "%rsi".toList,"%rdi".toList,"%r8".toList,"%r9".toList,"%r10".toList,"%r11".toList,
    "%r12".toList,"%r13".toList,"%r14".toList]

-- 0x%.16lx
def hex (val : Word) : Text :=
  "0x".toList ++ (List.range 16).map fun i => Nat.digitChar (val.toNat / 16 ^ (15 - i) % 16)

def valuesText (ov nv : Word) : Text := ":\t".toList ++ hex ov ++ ['\t'] ++ hex nv ++ ['\n']

-- what one turn prints; the trace holds the indices into reg_table
def memLine (pos : Nat) (ov nv : Word) : Traced Nat Text :=
  return hex (BitVec.ofNat 64 pos) ++ valuesText ov nv

def regName (i : Nat) : Traced Nat Text := ⟨(regTable[i]?).getD [],[i]⟩

def regLine (pos : Nat) (ov nv : Word) : Traced Nat Text := do
  let name ← regName (pos / 8)
  return name ++ valuesText ov nv

-- the loop of diff_mem and diff_reg with n turns left
def diffLoop (oldm newm : Mem) (len : Int) (outfile : Bool)
    (line : Nat → Word → Word → Traced Nat Text) :
    Nat → Nat → Bool → Traced Nat (Bool × Text)
  | 0, _, diff => return (diff,[])
  | n + 1, pos, diff =>
    if (!diff || outfile) ∧ (pos : Int) < len then
      let ov := (getLongVal oldm (BitVec.ofNat 64 pos)).getD 0
      let nv := (getLongVal newm (BitVec.ofNat 64 pos)).getD 0
      if nv ≠ ov then do
        let printed ← (if outfile then line pos ov nv else pure [])
        let rest ← diffLoop oldm newm len outfile line n (pos + 8) true
        return (rest.1,printed ++ rest.2)
      else diffLoop oldm newm len outfile line n (pos + 8) diff
    else return (diff,[])

-- pos grows by 8 in every turn
def diffMem (oldm newm : Mem) (outfile : Bool) : Traced Nat (Bool × Text) :=
  let len := if newm.len < oldm.len then newm.len else oldm.len
  diffLoop oldm newm len outfile memLine len.toNat 0 false

def diffReg (oldr newr : Mem) (outfile : Bool) : Traced Nat (Bool × Text) :=
  let len := if newr.len < oldr.len then newr.len else oldr.len
  diffLoop oldr newr len outfile regLine len.toNat 0 false

-- the word of index k
def wordAt (m : Mem) (k : Nat) : Word := BitVec.ofNat 64 (readLE m.data (8 * k) 8)

-- the words from index k on, c of them, that are not what they were
def changed (oldm newm : Mem) (k c : Nat) : List Nat :=
  (List.range' k c).filter fun k => wordAt oldm k ≠ wordAt newm k

section DiffLoop

variable {oldm newm m : Mem} {line : Nat → Word → Word → Traced Nat Text} {size c k n : Nat}

theorem changed_succ (oldm newm : Mem) (k c : Nat) : changed oldm newm k (c + 1) =
    if wordAt oldm k ≠ wordAt newm k then k :: changed oldm newm (k + 1) c
    else changed oldm newm (k + 1) c := by
  rw [changed,List.range'_succ,List.filter_cons]
  by_cases h : wordAt oldm k = wordAt newm k <;> simp [h,changed]

theorem getLongVal_word (hl : m.len = (8 * size : Nat)) (hs : 8 * size < 2 ^ 31) (hk : k < size) :
    getLongVal m (BitVec.ofNat 64 (8 * k)) = some (wordAt m k) := by
  have ha : (BitVec.ofNat 64 (8 * k)).toNat = 8 * k := by
    rw [BitVec.toNat_ofNat]
    omega
  have hb : InBounds m (BitVec.ofNat 64 (8 * k)) 8 := by
    rw [InBounds,BitVec.toInt_eq_toNat_of_lt (by omega),ha,hl]
    omega
  rw [getLongVal_eq hb (by omega),Y86.load,ha,wordAt]

def lineOf (oldm newm : Mem) (line : Nat → Word → Word → Traced Nat Text) (k : Nat) :
    Traced Nat Text := line (8 * k) (wordAt oldm k) (wordAt newm k)

theorem diffLoop_spec {len : Int} (hlen : len = (8 * size : Nat)) (ho : oldm.len = len)
    (hn : newm.len = len) (hs : 8 * size < 2 ^ 31) (hk : k + c = size) (hturns : c ≤ n) (diff : Bool) :
    (diffLoop oldm newm len true line n (8 * k) diff).val =
        (diff || decide (changed oldm newm k c ≠ []),
          (changed oldm newm k c).flatMap fun k => (lineOf oldm newm line k).val) ∧
      ∀ p, (diffLoop oldm newm len true line n (8 * k) diff).All p ↔
        ∀ j ∈ changed oldm newm k c, (lineOf oldm newm line j).All p := by
  induction n generalizing k c diff with
  | zero =>
    obtain rfl := Nat.le_zero.mp hturns
    simp [diffLoop,changed]
  | succ n ih =>
    cases c with
    | zero =>
      rw [diffLoop,if_neg (by omega)]
      simp [changed]
    | succ c =>
      have hcond : (!diff || true) = true ∧ ((8 * k : Nat) : Int) < len := ⟨by simp,by omega⟩
      have hnext := @ih c (k + 1) (by omega) (by omega)
      rw [show 8 * (k + 1) = 8 * k + 8 by omega] at hnext
      rw [diffLoop,if_pos hcond,getLongVal_word (ho.trans hlen) hs (by omega),
        getLongVal_word (hn.trans hlen) hs (by omega),changed_succ]
      simp only [Option.getD_some,if_true]
      by_cases hw : wordAt oldm k = wordAt newm k
      · rw [if_neg (not_not.mpr hw.symm),if_neg (not_not.mpr hw)]
        exact hnext diff
      · rw [if_pos (Ne.symm hw),if_pos hw]
        obtain ⟨hval,hall⟩ := hnext true
        refine ⟨?_,fun p => ?_⟩
        · simp [hval,lineOf]
        · simp [hall p,lineOf]

end DiffLoop

-- neither file changes its length, and no register write reaches the slot behind the last register
structure Keeps (sim sim' : Y64sim) : Prop where
  regs : sim'.r.len = sim.r.len
  mem : sim'.m.len = sim.m.len
  spare : ∀ x, 8 * regNone ≤ x → sim'.r.data x = sim.r.data x

section Keeps

variable {sim sim' sim'' : Y64sim} {a b : Stat × Y64sim} {c : Prop} [Decidable c]

theorem Keeps.refl (sim : Y64sim) : Keeps sim sim := ⟨rfl,rfl,fun _ _ => rfl⟩

theorem Keeps.trans (h : Keeps sim sim') (h' : Keeps sim' sim'') : Keeps sim sim'' where
  regs := h'.regs.trans h.regs
  mem := h'.mem.trans h.mem
  spare x hx := (h'.spare x hx).trans (h.spare x hx)

theorem Keeps.reg (h : Keeps sim sim') (id : Nat) (val : Word) :
    Keeps sim { sim' with r := setRegVal sim'.r id val } := by
  refine h.trans ?_
  rcases setRegVal_cases sim'.r id val with hr | ⟨hi,hr⟩
  · rw [hr]
    exact .refl _
  · rw [hr]
    exact ⟨rfl,rfl,fun x hx => writeLE_outside (.inr (by omega))⟩

theorem Keeps.mem_of_set {addr val : Word} {m : Mem} (h : Keeps sim sim')
    (hm : setLongVal sim'.m addr val = some m) : Keeps sim { sim' with m := m } := by
  rw [setLongVal_ite,Option.ite_none_left_eq_some] at hm
  obtain ⟨-,hm⟩ := hm
  exact h.trans ⟨rfl,(congrArg Mem.len (Option.some.inj hm)).symm,fun _ _ => rfl⟩

theorem Keeps.rest (h : Keeps sim sim') (pc : Word) (cc : Byte) :
    Keeps sim ⟨pc,sim'.r,sim'.m,cc⟩ := ⟨h.regs,h.mem,h.spare⟩

theorem Keeps.ite (ha : Keeps sim a.2) (hb : Keeps sim b.2) : Keeps sim (if c then a else b).2 := by
  split
  · exact ha
  · exact hb

theorem Keeps.set {addr val : Word} {f : Mem → Stat × Y64sim} (hn : Keeps sim a.2)
    (hf : ∀ m, setLongVal sim'.m addr val = some m → Keeps sim (f m).2) :
    Keeps sim (match setLongVal sim'.m addr val with
      | none => a
      | some m => f m).2 := by
  cases h : setLongVal sim'.m addr val with
  | none => exact hn
  | some m => exact hf m h

theorem Keeps.get {addr : Word} {m : Mem} {f : Word → Stat × Y64sim} (hn : Keeps sim a.2)
    (hf : ∀ val, Keeps sim (f val).2) : Keeps sim (match getLongVal m addr with
      | none => a
      | some val => f val).2 := by
  cases getLongVal m addr with
  | none => exact hn
  | some val => exact hf val

theorem execute_keeps (f : Fetched) (sim : Y64sim) : Keeps sim (execute f sim).2 := by
  have hr := Keeps.refl sim
  rw [execute]
  refine .ite hr <| .ite (hr.rest _ _) <| .ite ?rrmovq <| .ite ((hr.reg _ _).rest _ _) <|
    .ite ?rmmovq <| .ite ?mrmovq <| .ite (.ite hr ((hr.reg _ _).rest _ _)) <|
    .ite (.ite hr (hr.rest _ _)) <| .ite ?call <| .ite ?ret <| .ite ?pushq <| .ite ?popq hr
  case rrmovq =>
    simp only
    split
    · exact (hr.reg _ _).rest _ _
    · exact hr.rest _ _
  case rmmovq => exact .set hr fun m hm => (hr.mem_of_set hm).rest _ _
  case mrmovq => exact .get hr fun val => (hr.reg _ _).rest _ _
  case call => exact .set (hr.reg _ _) fun m hm => ((hr.reg _ _).mem_of_set hm).rest _ _
  case ret =>
    exact .get hr fun val => (hr.reg regRsp (computeAlu aAdd 8 (getRegVal sim.r regRsp))).rest val _
  case pushq => exact .set (hr.reg _ _) fun m hm => ((hr.reg _ _).mem_of_set hm).rest _ _
  case popq =>
    have hrsp := hr.reg regRsp (computeAlu aAdd 8 (getRegVal sim.r regRsp))
    exact .get hr fun val => (hrsp.reg f.raid val).rest _ _

theorem nexti_keeps (sim : Y64sim) : Keeps sim (nexti sim).2 := by
  rw [nexti]
  cases fetch sim with
  | error stat => exact .refl sim
  | ok f => exact execute_keeps f sim

theorem steps_keeps (n : Nat) (sim : Y64sim) : Keeps sim (steps n sim) := by
  induction n generalizing sim with
  | zero => exact .refl sim
  | succ n ih => exact (nexti_keeps sim).trans (ih _)

theorem simulate_steps (n : Nat) (sim : Y64sim) : ∃ k, k ≤ n ∧ (simulate n sim).2 = steps k sim := by
  induction n generalizing sim with
  | zero => exact ⟨0,Nat.le_refl 0,rfl⟩
  | succ n ih =>
    rw [simulate]
    split
    · obtain ⟨k,hk,he⟩ := ih (nexti sim).2
      exact ⟨k + 1,Nat.succ_le_succ hk,he⟩
    · exact ⟨1,Nat.le_add_left 1 n,rfl⟩

theorem simulate_keeps (n : Nat) (sim : Y64sim) : Keeps sim (simulate n sim).2 := by
  obtain ⟨k,-,he⟩ := simulate_steps n sim
  exact he ▸ steps_keeps k sim

end Keeps

section Images

variable {m : Mem} {f : BinFile} {sim : Y64sim} {len slen : Int} {blocks k size : Nat}

theorem initMem_len (h : 0 ≤ len) : ∃ blocks : Nat,
    (initMem len).len = (32 * blocks : Nat) ∧ len ≤ (32 * blocks : Nat) ∧
      ((32 * blocks : Nat) : Int) ≤ len + blkSize - 1 := by
  refine ⟨((len + 31) / 32).toNat,?_⟩
  simp only [initMem,blkSize]
  rw [Int.tdiv_eq_ediv_of_nonneg (by omega)]
  omega

theorem initMem_blocks (blocks : Nat) : (initMem (32 * blocks : Nat)).len = (32 * blocks : Nat) := by
  simp only [initMem,blkSize]
  rw [Int.tdiv_eq_ediv_of_nonneg (by omega)]
  omega

theorem dupMem_len (h : m.len = (32 * blocks : Nat)) : (dupMem m).len = m.len := by
  rw [dupMem,h]
  exact initMem_blocks blocks

theorem dupMem_data {x : Nat} (h : (x : Int) < m.len) : (dupMem m).data x = m.data x := by
  rw [dupMem]
  exact if_pos h

theorem wordAt_congr {m' : Mem} (h : ∀ i, i < 8 → m.data (8 * k + i) = m'.data (8 * k + i)) :
    wordAt m k = wordAt m' k := by
  rw [wordAt,wordAt,readLE_congr h]

theorem wordAt_dupMem (h : ((8 * k + 8 : Nat) : Int) ≤ m.len) : wordAt (dupMem m) k = wordAt m k :=
  wordAt_congr fun i hi => dupMem_data (by omega)

theorem loadBinfile_len {m' : Mem} (h : loadBinfile m f = some m') : m'.len = m.len := by
  rw [loadBinfile] at h
  split at h
  · split at h
    · cases h
    · exact (congrArg Mem.len (Option.some.inj h)).symm
  · cases h

theorem loadImage_some (h : loadImage slen f = some sim) :
    sim.r = initReg ∧ sim.m.len = (initMem slen).len := by
  obtain ⟨m,hm,rfl⟩ := Option.map_eq_some_iff.mp h
  exact ⟨rfl,loadBinfile_len hm⟩

theorem initReg_len : initReg.len = 128 := by decide

theorem getRegVal_wordAt {r : Mem} {id : Nat} (hl : r.len = 128) (hid : id < regNone) :
    getRegVal r id = wordAt r id := by
  rw [wordAt,Nat.mul_comm]
  exact getRegVal_eq (by omega) ⟨id,hid⟩

end Images

-- what is printed of n words with the values old and new
structure Reports (out : Traced Nat (Bool × Text)) (n : Nat) (old new : Nat → Word)
    (text : Nat → Word → Word → Text) : Prop where
  printed : out.val.2 =
    ((List.range n).filter fun k => old k ≠ new k).flatMap fun k => text k (old k) (new k)
  differs : out.val.1 = true ↔ ∃ k, k < n ∧ old k ≠ new k
  indices : out.All fun i => i < regNone

theorem reports_of_changed {out : Traced Nat (Bool × Text)} {n : Nat} {old new : Nat → Word}
    {text : Nat → Word → Word → Text} {ks : List Nat} {line : Nat → Traced Nat Text}
    (hks : ks = (List.range n).filter fun k => old k ≠ new k)
    (hval : out.val = (decide (ks ≠ []),ks.flatMap fun k => (line k).val))
    (hlog : out.All (· < regNone) ↔ ∀ k ∈ ks, (line k).All (· < regNone))
    (hline : ∀ k, k < n → (line k).val = text k (old k) (new k) ∧ (line k).All (· < regNone)) :
    Reports out n old new text := by
  subst hks
  have hlt (k : Nat) (hk : k ∈ (List.range n).filter fun k => old k ≠ new k) : k < n :=
    List.mem_range.mp (List.mem_of_mem_filter hk)
  refine ⟨?_,?_,hlog.mpr fun k hk => (hline k (hlt k hk)).2⟩
  · rw [hval]
    exact List.flatMap_congr fun k hk => (hline k (hlt k hk)).1
  · rw [hval]
    simp [List.filter_eq_nil_iff]

theorem filter_changed {oldm newm : Mem} {n : Nat} {old new : Nat → Word}
    (ho : ∀ k, k < n → wordAt oldm k = old k) (hn : ∀ k, k < n → wordAt newm k = new k) :
    changed oldm newm 0 n = (List.range n).filter fun k => old k ≠ new k := by
  rw [changed,← List.range_eq_range']
  refine List.filter_congr fun k hk => ?_
  rw [ho k (List.mem_range.mp hk),hn k (List.mem_range.mp hk)]

theorem changed_last {oldm newm : Mem} {n : Nat} (h : wordAt oldm n = wordAt newm n) :
    changed oldm newm 0 (n + 1) = changed oldm newm 0 n := by
  rw [changed,changed,List.range'_concat,List.filter_append,Nat.zero_add,Nat.one_mul,
    List.filter_cons_of_neg (by simpa using h)]
  exact List.append_nil _

theorem diff_spec {oldm newm : Mem} {size : Nat} (line : Nat → Word → Word → Traced Nat Text)
    (ho : oldm.len = (8 * size : Nat)) (hn : newm.len = oldm.len) (hs : 8 * size < 2 ^ 31)
    {out : Traced Nat (Bool × Text)} (he : out = diffLoop oldm newm
      (if newm.len < oldm.len then newm.len else oldm.len) true line
      (if newm.len < oldm.len then newm.len else oldm.len).toNat 0 false) :
    out.val = (decide (changed oldm newm 0 size ≠ []),
        (changed oldm newm 0 size).flatMap fun k => (lineOf oldm newm line k).val) ∧
      ∀ p, out.All p ↔ ∀ j ∈ changed oldm newm 0 size, (lineOf oldm newm line j).All p := by
  have h := @diffLoop_spec oldm newm line size size 0 (8 * size) oldm.len ho rfl hn hs
    (Nat.zero_add size) (by omega) false
  rw [he,hn,if_neg (Int.lt_irrefl _),ho,Int.toNat_natCast]
  rw [ho] at h
  exact h

theorem diffReg_reports {oldr newr r : Mem} (hr : r.len = 128) (ho : oldr.len = 128)
    (hn : newr.len = 128) (hword : ∀ k, k < 16 → wordAt oldr k = wordAt r k)
    (hspare : wordAt r 15 = wordAt newr 15) :
    Reports (diffReg oldr newr true) regNone (getRegVal r) (getRegVal newr)
      fun id ov nv => (regTable[id]?).getD [] ++ valuesText ov nv := by
  have hid (k : Nat) (hk : k < regNone) : k < 16 := Nat.lt_succ_of_lt hk
  have hold (k : Nat) (hk : k < regNone) : wordAt oldr k = getRegVal r k :=
    (hword k (hid k hk)).trans (getRegVal_wordAt hr hk).symm
  have hnew (k : Nat) (hk : k < regNone) : wordAt newr k = getRegVal newr k :=
    (getRegVal_wordAt hn hk).symm
  have hks : changed oldr newr 0 16 = changed oldr newr 0 regNone :=
    changed_last ((hword 15 (by decide)).trans hspare)
  obtain ⟨hval,hlog⟩ := @diff_spec oldr newr 16 regLine ho (hn.trans ho.symm) (by decide) _ rfl
  refine reports_of_changed (hks.trans (filter_changed hold hnew)) hval (hlog _) fun k hk => ?_
  have hdiv : 8 * k / 8 = k := Nat.mul_div_cancel_left k (by decide)
  rw [lineOf,regLine,hold k hk,hnew k hk,hdiv]
  exact ⟨rfl,by simpa [regName] using hk⟩

theorem diffMem_reports {oldm newm m : Mem} {size : Nat} (hm : m.len = (8 * size : Nat))
    (hs : 8 * size < 2 ^ 31) (ho : oldm.len = m.len) (hn : newm.len = m.len)
    (hword : ∀ k, k < size → wordAt oldm k = wordAt m k) :
    Reports (diffMem oldm newm true) size (wordAt m) (wordAt newm)
      fun k ov nv => hex (BitVec.ofNat 64 (8 * k)) ++ valuesText ov nv := by
  obtain ⟨hval,hlog⟩ := diff_spec memLine (ho.trans hm) (hn.trans ho.symm) hs rfl
  refine reports_of_changed (filter_changed hword fun _ _ => rfl) hval (hlog _) fun k hk => ?_
  rw [lineOf,memLine,hword k hk]
  exact ⟨rfl,Traced.all_pure _⟩

section Report

variable {slen : Int} {f : BinFile} {sim last : Y64sim}

theorem report_of_keeps (h0 : 0 ≤ slen) (h31 : slen + blkSize - 1 < 2 ^ 31)
    (hl : loadImage slen f = some sim) (hk : Keeps sim last) :
    Reports (diffReg (dupReg sim.r) last.r true) regNone (getRegVal sim.r) (getRegVal last.r)
        (fun id ov nv => (regTable[id]?).getD [] ++ valuesText ov nv) ∧
      Reports (diffMem (dupMem sim.m) last.m true) (sim.m.len.toNat / 8) (wordAt sim.m)
        (wordAt last.m) (fun k ov nv => hex (BitVec.ofNat 64 (8 * k)) ++ valuesText ov nv) := by
  obtain ⟨hr,hm⟩ := loadImage_some hl
  have hr128 : sim.r.len = 128 := (congrArg Mem.len hr).trans initReg_len
  obtain ⟨blocks,hb,-,hb31⟩ := initMem_len h0
  have hsize : sim.m.len = (8 * (4 * blocks) : Nat) := by
    rw [hm,hb,← Nat.mul_assoc]
  have hdiv : sim.m.len.toNat / 8 = 4 * blocks := by omega
  refine ⟨diffReg_reports hr128 ((@dupMem_len sim.r 4 hr128).trans hr128) (hk.regs.trans hr128)
    (fun k h => wordAt_dupMem (by omega))
    (wordAt_congr fun i hi => (hk.spare _ (Nat.le_add_right 120 i)).symm),?_⟩
  rw [hdiv]
  exact diffMem_reports hsize (by omega) (dupMem_len (hm.trans hb)) hk.mem fun k h =>
    wordAt_dupMem (by omega)

theorem report_exact (h0 : 0 ≤ slen) (h31 : slen + blkSize - 1 < 2 ^ 31)
    (hl : loadImage slen f = some sim) (n : Nat) :
    Reports (diffReg (dupReg sim.r) (steps n sim).r true) regNone (getRegVal sim.r)
        (getRegVal (steps n sim).r) (fun id ov nv => (regTable[id]?).getD [] ++ valuesText ov nv) ∧
      Reports (diffMem (dupMem sim.m) (steps n sim).m true) (sim.m.len.toNat / 8) (wordAt sim.m)
        (wordAt (steps n sim).m) (fun k ov nv => hex (BitVec.ofNat 64 (8 * k)) ++ valuesText ov nv) :=
  report_of_keeps h0 h31 hl (steps_keeps n sim)

theorem simulate_report (hl : loadImage memSize f = some sim) (maxSteps : Nat) :
    Reports (diffReg (dupReg sim.r) (simulate maxSteps sim).2.r true) regNone (getRegVal sim.r)
        (getRegVal (simulate maxSteps sim).2.r)
        (fun id ov nv => (regTable[id]?).getD [] ++ valuesText ov nv) ∧
      Reports (diffMem (dupMem sim.m) (simulate maxSteps sim).2.m true) (sim.m.len.toNat / 8)
        (wordAt sim.m) (wordAt (simulate maxSteps sim).2.m)
        (fun k ov nv => hex (BitVec.ofNat 64 (8 * k)) ++ valuesText ov nv) :=
  report_of_keeps (by decide) (by decide) hl (simulate_keeps maxSteps sim)

end Report

-- irmovq $5,%rax in an image of 64 bytes, then a halt
def fiveImage : BinFile := ⟨[0x30,0xf0,5],false⟩

theorem report_exact_five : ∃ sim, loadImage 64 fiveImage = some sim ∧
    Reports (diffReg (dupReg sim.r) (steps 2 sim).r true) regNone (getRegVal sim.r)
      (getRegVal (steps 2 sim).r) (fun id ov nv => (regTable[id]?).getD [] ++ valuesText ov nv) ∧
    (diffReg (dupReg sim.r) (steps 2 sim).r true).val =
      (true,"%rax:\t0x0000000000000000\t0x0000000000000005\n".toList) := by
  have h : ∃ sim, loadImage 64 fiveImage = some sim := ⟨_,rfl⟩
  obtain ⟨sim,hl⟩ := h
  refine ⟨sim,hl,(report_exact (by decide) (by decide) hl 2).1,?_⟩
  obtain rfl := Option.some.inj hl
  decide +kernel

end Sim
