import IcsLabs.Asm.Source

namespace Asm
open Bytes

def Operand.value (old : Word) : Operand → Word
  | .digit v => v
  | .symbol _ => old

def Operand.ref : Operand → Option Text
  | .digit _ => none
  | .symbol name => some name

def alignUp (v a : Word) : Word := (v + a - 1).sdiv a * a

namespace Arg

def ref : Arg → Option Text
  | .immReg imm _ | .dest imm | .data imm => imm.ref
  | _ => Option.none

-- the local value of parse_line once the operands are read
def value (old : Word) : Arg → Word
  | .immReg imm _ | .dest imm | .data imm => imm.value old
  | .regMem _ disp _ | .memReg disp _ _ => disp.getD old
  | .pos v | .align v => v
  | _ => old

def addr (inst : Instr) (v : Word) : Arg → Word
  | .pos a => a
  | .align a => alignUp (v + BitVec.ofNat 64 inst.bytes) a
  | _ => v

def next (inst : Instr) (v : Word) : Arg → Word
  | .pos a => a
  | .align a => alignUp (v + BitVec.ofNat 64 inst.bytes) a
  | _ => v + BitVec.ofNat 64 inst.bytes

def codes (inst : Instr) (value : Word) (codes : Nat → Byte) : Arg → Nat → Byte
  | .reg a => Function.update codes 1 (hpack a 0xf)
  | .regs a b => Function.update codes 1 (hpack a b)
  | .immReg _ b => addressMemory (Function.update codes 1 (hpack 0xf b)) 2 value 8
  | .regMem a _ b | .memReg _ b a => addressMemory (Function.update codes 1 (hpack a b)) 2 value 8
  | .dest _ => addressMemory codes 1 value 8
  | .data _ => addressMemory codes 0 value inst.bytes
  | _ => codes

end Arg

namespace Piece

-- the location counter past a piece
def next (v : Word) : Piece → Word
  | .label _ => v
  | .item inst arg => arg.next inst v

def ref : Piece → Option Text
  | .label _ => none
  | .item _ arg => arg.ref

def defs (v : Word) : Piece → List Symbol
  | .label name => [⟨name,v⟩]
  | .item _ _ => []

def refs (k : Nat) (p : Piece) : List Reloc := p.ref.toList.map fun name => ⟨name,k⟩

end Piece

def counter (v : Word) (ps : List Piece) : Word := ps.foldl Piece.next v

-- the definitions of a source, each with the location counter it stands at
def defs (v : Word) : List Piece → List Symbol
  | [] => []
  | p :: ps => p.defs v ++ defs (p.next v) ps

def refs (k : Nat) (ps : List Piece) : List Reloc := ps.flatMap (Piece.refs k)

def refsFrom (k : Nat) : List (List Piece) → List Reloc
  | [] => []
  | ps :: pss => refs k ps ++ refsFrom (k + 1) pss

-- what a line becomes, tables apart
structure Draft where
  value : Word
  vmaddr : Word
  line : Line

namespace Draft

def blank (v : Word) (y64asm : Text) : Draft := ⟨0,v,⟨.comm,⟨0,fun _ => 0,0⟩,y64asm⟩⟩

def add (d : Draft) : Piece → Draft
  | .label _ => { d with line.type := .ins, line.y64bin.addr := d.vmaddr }
  | .item inst arg =>
    let value := arg.value d.value
    let codes := arg.codes inst value (Function.update d.line.y64bin.codes 0 inst.code)
    ⟨value,arg.next inst d.vmaddr,⟨.ins,⟨arg.addr inst d.vmaddr,codes,inst.bytes⟩,d.line.y64asm⟩⟩

def addAll (d : Draft) (ps : List Piece) : Draft := ps.foldl add d

end Draft

def draftLines (v : Word) : List (Text × List Piece) → List Line
  | [] => []
  | (t,ps) :: src =>
    let d := (Draft.blank v t).addAll ps
    d.line :: draftLines d.vmaddr src

def scanLines : List Text → Option (List (List Piece))
  | [] => some []
  | t :: ts => (scanLine t).bind fun ps => (scanLines ts).map (ps :: ·)

def labels (ps : List Piece) : List Text := ps.flatMap fun
  | .label name => [name]
  | .item _ _ => []

def Parse.draft (s : Parse) : Draft := ⟨s.value,s.vmaddr,s.line⟩

-- a line to be parsed at v, before any symbol
def Parse.start (v : Word) (y64asm : String) : Parse :=
  ⟨0,(Draft.blank v y64asm.toList).line,v,[],[]⟩

def names (symtab : List Symbol) : List Text := symtab.map Symbol.name

section Effects

variable {k : Nat} {s s' : Parse} {p : Piece} {ps : List Piece} {inst : Instr} {arg : Arg}
  {d : Draft} {v : Word}

theorem findSymbol_eq_none {name : Text} {symtab : List Symbol} :
    findSymbol name symtab = none ↔ name ∉ names symtab := by
  simp [findSymbol,names]

theorem addSymbol_eq_some {name : Text} {symtab t : List Symbol} :
    addSymbol name v symtab = some t ↔ name ∉ names symtab ∧ t = ⟨name,v⟩ :: symtab := by
  rw [addSymbol]
  cases h : findSymbol name symtab with
  | none => simp [findSymbol_eq_none.mp h,eq_comm]
  | some s =>
    have hm : ¬ name ∉ names symtab := fun hn => by simp [findSymbol_eq_none.mpr hn] at h
    simp [hm]

theorem quot_eq_ok {a b q : Word} (h : quot a b = .ok q) : q = a.sdiv b := by
  rw [quot] at h
  split at h
  · cases h
  · exact (Except.ok.inj h).symm

theorem operand_eq (imm : Operand) : s.operand k imm =
    { s with
      value := imm.value s.value
      reltab := (imm.ref.toList.map fun name => ⟨name,k⟩) ++ s.reltab } := by
  cases imm <;> rfl

-- one piece: what it makes of the line, the symbols and the references
structure Effect (k : Nat) (s s' : Parse) (p : Piece) : Prop where
  draft : s'.draft = s.draft.add p
  symtab : s'.symtab = p.defs s.vmaddr ++ s.symtab
  reltab : s'.reltab = p.refs k ++ s.reltab
  fresh : ∀ x ∈ p.defs s.vmaddr, x.name ∉ names s.symtab

theorem arg_effect (h : arg.apply k inst (s.place inst) = .ok s') :
    Effect k s s' (.item inst arg) := by
  have hf : ∀ x ∈ (Piece.item inst arg).defs s.vmaddr, x.name ∉ names s.symtab := by
    simp [Piece.defs]
  cases arg with
  | none | reg a | regs a b | regMem a disp b | memReg disp b a | pos v =>
    obtain rfl := Except.ok.inj h
    exact ⟨rfl,rfl,rfl,hf⟩
  | immReg imm b | dest imm | data imm =>
    obtain rfl := Except.ok.inj h
    rw [operand_eq]
    exact ⟨rfl,rfl,rfl,hf⟩
  | align v =>
    simp only [Arg.apply] at h
    cases hq : quot ((s.place inst).vmaddr + v - 1) v with
    | error e =>
      rw [hq] at h
      cases h
    | ok q =>
      rw [hq] at h
      obtain rfl := Except.ok.inj h
      obtain rfl := quot_eq_ok hq
      exact ⟨rfl,rfl,rfl,hf⟩

theorem apply_effect (h : p.apply k s = .ok s') : Effect k s s' p := by
  cases p with
  | item inst arg => exact arg_effect h
  | label name =>
    simp only [Piece.apply] at h
    cases ha : addSymbol name s.vmaddr s.symtab with
    | none =>
      rw [ha] at h
      cases h
    | some t =>
      rw [ha] at h
      obtain rfl := Except.ok.inj h
      obtain ⟨hn,rfl⟩ := addSymbol_eq_some.mp ha
      exact ⟨rfl,rfl,rfl,by simpa [Piece.defs] using hn⟩

theorem add_vmaddr (d : Draft) (p : Piece) : (d.add p).vmaddr = p.next d.vmaddr := by
  cases p <;> rfl

theorem addAll_vmaddr (d : Draft) (ps : List Piece) :
    (d.addAll ps).vmaddr = counter d.vmaddr ps := by
  induction ps generalizing d with
  | nil => rfl
  | cons p ps ih => exact (ih (d.add p)).trans (congrArg (counter · ps) (add_vmaddr d p))

theorem defs_reverse (v : Word) (p : Piece) : (p.defs v).reverse = p.defs v := by cases p <;> rfl

theorem refs_reverse (k : Nat) (p : Piece) : (p.refs k).reverse = p.refs k := by
  rw [Piece.refs]
  cases p.ref <;> rfl

-- a list of pieces, as Effect for one
structure Effects (k : Nat) (s s' : Parse) (ps : List Piece) : Prop where
  draft : s'.draft = s.draft.addAll ps
  symtab : s'.symtab = (defs s.vmaddr ps).reverse ++ s.symtab
  reltab : s'.reltab = (refs k ps).reverse ++ s.reltab
  nodup : (names s.symtab).Nodup → (names s'.symtab).Nodup

theorem Effect.vmaddr (h : Effect k s s' p) : s'.vmaddr = p.next s.vmaddr :=
  (congrArg Draft.vmaddr h.draft).trans (add_vmaddr s.draft p)

theorem Effect.nodup (h : Effect k s s' p) (hn : (names s.symtab).Nodup) : (names s'.symtab).Nodup := by
  have hf := h.fresh
  rw [h.symtab]
  cases p with
  | item inst arg => exact hn
  | label name => exact List.nodup_cons.mpr ⟨hf _ (List.mem_singleton_self _),hn⟩

theorem applyAll_effects (h : applyAll k ps s = .ok s') : Effects k s s' ps := by
  induction ps generalizing s with
  | nil =>
    obtain rfl := Except.ok.inj h
    exact ⟨rfl,rfl,rfl,id⟩
  | cons p ps ih =>
    rw [applyAll,List.foldlM_cons] at h
    cases hp : p.apply k s with
    | error e =>
      rw [hp] at h
      cases h
    | ok u =>
      rw [hp] at h
      have hu := apply_effect hp
      have hs := ih h
      refine ⟨?_,?_,?_,fun hn => hs.nodup (hu.nodup hn)⟩
      · rw [hs.draft,hu.draft]
        rfl
      · rw [hs.symtab,hu.symtab,hu.vmaddr,defs,List.reverse_append,defs_reverse,List.append_assoc]
      · rw [hs.reltab,hu.reltab,refs,refs,List.flatMap_cons,List.reverse_append,refs_reverse,
          List.append_assoc]

end Effects

section Files

variable {st st' : State} {t : Text} {ts : List Text} {ps : List Piece} {pss : List (List Piece)}
  {src : List (Text × List Piece)} {v w : Word}

theorem assembleLine_eq (st : State) (t : Text) : assembleLine st t =
    (parseLine st.lines.length ⟨0,(Draft.blank st.vmaddr t).line,st.vmaddr,st.symtab,st.reltab⟩).map
      fun s => ⟨s.vmaddr,s.symtab,s.reltab,st.lines ++ [s.line]⟩ := rfl

-- what the lines after st become
structure Assembled (st st' : State) (src : List (Text × List Piece)) : Prop where
  vmaddr : st'.vmaddr = counter st.vmaddr (src.flatMap Prod.snd)
  lines : st'.lines = st.lines ++ draftLines st.vmaddr src
  symtab : st'.symtab = (defs st.vmaddr (src.flatMap Prod.snd)).reverse ++ st.symtab
  reltab : st'.reltab = (refsFrom st.lines.length (src.map Prod.snd)).reverse ++ st.reltab
  nodup : (names st.symtab).Nodup → (names st'.symtab).Nodup

theorem assembleLine_ok (h : assembleLine st t = .ok st') :
    ∃ ps, scanLine t = some ps ∧ Assembled st st' [(t,ps)] := by
  rw [assembleLine_eq] at h
  cases hs : scanLine t with
  | none =>
    obtain ⟨e,he⟩ := parseLine_of_none (k := st.lines.length)
      (s := ⟨0,(Draft.blank st.vmaddr t).line,st.vmaddr,st.symtab,st.reltab⟩) hs
    rw [he] at h
    cases h
  | some ps =>
    rw [@parseLine_of_scan _ _ ps hs] at h
    cases ha : applyAll st.lines.length ps
        ⟨0,(Draft.blank st.vmaddr t).line,st.vmaddr,st.symtab,st.reltab⟩ with
    | error e =>
      rw [ha] at h
      cases h
    | ok s =>
      rw [ha] at h
      obtain rfl := Except.ok.inj h
      have he := applyAll_effects ha
      have hv : s.vmaddr = counter st.vmaddr ps :=
        (congrArg Draft.vmaddr he.draft).trans (addAll_vmaddr _ ps)
      have hl : s.line = ((Draft.blank st.vmaddr t).addAll ps).line := congrArg Draft.line he.draft
      refine ⟨ps,rfl,?_,?_,?_,?_,he.nodup⟩
      · simpa using hv
      · exact congrArg (fun l => st.lines ++ [l]) hl
      · simpa using he.symtab
      · simpa [refsFrom] using he.reltab

theorem defs_append (v : Word) (ps qs : List Piece) :
    defs v (ps ++ qs) = defs v ps ++ defs (counter v ps) qs := by
  induction ps generalizing v with
  | nil => rfl
  | cons p ps ih => simp [defs,ih,counter]

theorem Assembled.trans {mid : State} {src' : List (Text × List Piece)} (h : Assembled st mid [(t,ps)])
    (h' : Assembled mid st' src') : Assembled st st' ((t,ps) :: src') := by
  have hv : mid.vmaddr = counter st.vmaddr ps := by simpa using h.vmaddr
  have hd : ((Draft.blank st.vmaddr t).addAll ps).vmaddr = mid.vmaddr := by
    rw [addAll_vmaddr,hv]
    rfl
  refine ⟨?_,?_,?_,?_,fun hn => h'.nodup (h.nodup hn)⟩
  · rw [h'.vmaddr,hv,counter,counter,counter,List.flatMap_cons,List.foldl_append]
  · rw [h'.lines,h.lines,← hd,List.append_assoc]
    rfl
  · have hs : mid.symtab = (defs st.vmaddr ps).reverse ++ st.symtab := by simpa using h.symtab
    rw [h'.symtab,hs,hv,List.flatMap_cons,defs_append,List.reverse_append,List.append_assoc]
  · have hlen : mid.lines.length = st.lines.length + 1 := by simp [h.lines,draftLines]
    rw [h'.reltab,h.reltab,hlen,List.map_cons,refsFrom]
    simp [refsFrom]

theorem assembleLines_ok (h : ts.foldlM assembleLine st = .ok st') :
    ∃ pss, scanLines ts = some pss ∧ Assembled st st' (ts.zip pss) := by
  induction ts generalizing st with
  | nil =>
    obtain rfl := Except.ok.inj h
    exact ⟨[],rfl,rfl,by simp [draftLines],rfl,rfl,id⟩
  | cons t ts ih =>
    rw [List.foldlM_cons] at h
    cases ht : assembleLine st t with
    | error e =>
      rw [ht] at h
      cases h
    | ok mid =>
      rw [ht] at h
      obtain ⟨ps,hps,hm⟩ := assembleLine_ok ht
      obtain ⟨pss,hpss,hr⟩ := ih h
      exact ⟨ps :: pss,by simp [scanLines,hps,hpss],hm.trans hr⟩

theorem length_scanLines (h : scanLines ts = some pss) : pss.length = ts.length := by
  induction ts generalizing pss with
  | nil =>
    obtain rfl := Option.some.inj h
    rfl
  | cons t ts ih =>
    obtain ⟨ps,-,h⟩ := Option.bind_eq_some_iff.mp h
    obtain ⟨qss,hq,rfl⟩ := Option.map_eq_some_iff.mp h
    rw [List.length_cons,List.length_cons,ih hq]

theorem scanLines_get (h : scanLines ts = some pss) (k : Nat) (hp : pss[k]? = some ps) :
    ∃ t, ts[k]? = some t ∧ scanLine t = some ps := by
  induction ts generalizing pss k with
  | nil =>
    obtain rfl := Option.some.inj h
    cases hp
  | cons t ts ih =>
    obtain ⟨qs,hq,h⟩ := Option.bind_eq_some_iff.mp h
    obtain ⟨qss,hqs,rfl⟩ := Option.map_eq_some_iff.mp h
    cases k with
    | zero =>
      obtain rfl := Option.some.inj hp
      exact ⟨t,rfl,hq⟩
    | succ k => exact ih hqs k hp

theorem names_defs (v : Word) (ps : List Piece) : names (defs v ps) = labels ps := by
  induction ps generalizing v with
  | nil => rfl
  | cons p ps ih =>
    rw [defs,names,List.map_append,labels,List.flatMap_cons]
    refine congrArg₂ (· ++ ·) ?_ (ih _)
    cases p <;> rfl

theorem draftLines_get {k : Nat} (hk : src[k]? = some (t,ps)) : (draftLines v src)[k]? =
    some ((Draft.blank (counter v ((src.take k).flatMap Prod.snd)) t).addAll ps).line := by
  induction src generalizing v k with
  | nil => simp at hk
  | cons q src ih =>
    cases k with
    | zero =>
      obtain rfl := Option.some.inj hk
      rfl
    | succ k =>
      rw [draftLines,List.getElem?_cons_succ,ih hk,addAll_vmaddr,List.take_succ_cons,List.flatMap_cons,
        counter,counter,counter,List.foldl_append]
      rfl

end Files

end Asm
