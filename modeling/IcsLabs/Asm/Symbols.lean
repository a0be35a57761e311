import IcsLabs.Asm.Accept
import IcsLabs.Asm.Image

namespace Asm
open Bytes

-- any number of labels and then at most one item
def plain : List Piece → Bool
  | [] => true
  | .label _ :: ps => plain ps
  | .item _ _ :: ps => ps.isEmpty

def Labels (ps : List Piece) : Prop := ∀ p ∈ ps, ∃ name, p = .label name

section Plain

variable {ls ps : List Piece} {pss : List (List Piece)} {inst : Instr} {arg : Arg} {d : Draft}
  {k : Nat} {file t name : Text} {st : State} {lines : List Line} {v : Word}

theorem plain_item (h : plain ps = true) (hm : .item inst arg ∈ ps) :
    ∃ ls, ps = ls ++ [.item inst arg] ∧ Labels ls := by
  induction ps with
  | nil => cases hm
  | cons p ps ih =>
    cases p with
    | item inst' arg' =>
      obtain rfl := List.isEmpty_iff.mp h
      obtain ⟨rfl,rfl⟩ := Piece.item.inj (List.mem_singleton.mp hm)
      exact ⟨[],rfl,by simp [Labels]⟩
    | label name =>
      obtain ⟨ls,rfl,hl⟩ := ih h ((List.mem_cons.mp hm).resolve_left (by simp))
      exact ⟨.label name :: ls,rfl,List.forall_mem_cons.mpr ⟨⟨name,rfl⟩,hl⟩⟩

theorem addAll_append (d : Draft) (ps qs : List Piece) :
    d.addAll (ps ++ qs) = (d.addAll ps).addAll qs := List.foldl_append ..

theorem labels_value (hl : Labels ls) : (d.addAll ls).value = d.value := by
  induction ls generalizing d with
  | nil => rfl
  | cons p ls ih =>
    obtain ⟨⟨name,rfl⟩,hls⟩ := List.forall_mem_cons.mp hl
    exact ih hls

theorem labels_refs (hl : Labels ls) : refs k ls = [] :=
  List.flatMap_eq_nil_iff.mpr fun p hp => by
    obtain ⟨name,rfl⟩ := hl p hp
    rfl

theorem Built.image (hb : Built file st lines pss) (hp : pss[k]? = some (ls ++ [.item inst arg]))
    (hl : Labels ls) : ∃ l, lines[k]? = some l ∧ l.y64bin.bytes = inst.bytes ∧
      (Piece.item inst arg).WellFormed ∧
      Y86.Holds l.y64bin.codes 0 (arg.image inst (arg.eval (addrOf st.symtab))) := by
  obtain ⟨t,ht,hs⟩ := scanLines_get hb.scan k hp
  have hw : (Piece.item inst arg).WellFormed := scanLoop_wellFormed hs _ (by simp)
  have hr : (refs k (ls ++ [.item inst arg])).reverse = (Piece.item inst arg).refs k := by
    rw [refs,List.flatMap_append,← refs,labels_refs hl,List.nil_append,List.flatMap_singleton,
      refs_reverse]
  refine ⟨_,hb.lines k t _ ht hp,?_,hw,?_⟩
  · rw [(patchAll_bin _ _ _).2,addAll_append]
    rfl
  · rw [hr,addAll_append]
    exact image_holds hw (labels_value hl)

theorem findSymbol_unique {L : List Symbol} (hn : (names L).Nodup) (hm : name ∈ names L) :
    ∃ v, L.filter (fun s => s.name = name) = [⟨name,v⟩] ∧
      findSymbol name L.reverse = some ⟨name,v⟩ := by
  obtain ⟨⟨n,v⟩,hs,he⟩ := List.mem_map.mp hm
  change n = name at he
  subst n
  obtain ⟨pre,post,rfl⟩ := List.append_of_mem hs
  rw [names,List.map_append,List.map_cons,List.nodup_append] at hn
  obtain ⟨-,hpost,hne⟩ := hn
  have hpre (s : Symbol) (h : s ∈ pre) : s.name ≠ name := fun he =>
    hne s.name (List.mem_map_of_mem h) name List.mem_cons_self he
  have hpost (s : Symbol) (h : s ∈ post) : s.name ≠ name := fun he =>
    (List.nodup_cons.mp hpost).1 (List.mem_map.mpr ⟨s,h,he⟩)
  refine ⟨v,?_,?_⟩
  · rw [List.filter_append,List.filter_cons_of_pos (by simp),
      List.filter_eq_nil_iff.mpr (by simpa using hpre),
      List.filter_eq_nil_iff.mpr (by simpa using hpost)]
    rfl
  · rw [findSymbol,List.reverse_append,List.reverse_cons,List.append_assoc,List.find?_append,
      List.find?_eq_none.mpr (by simpa using hpost)]
    simp

theorem Built.addrOf (hb : Built file st lines pss) (hn : name ∈ labels pss.flatten) :
    ∃ v, (defs 0 pss.flatten).filter (fun s => s.name = name) = [⟨name,v⟩] ∧
      addrOf st.symtab name = v := by
  rw [← names_defs 0] at hn
  obtain ⟨v,hv,hf⟩ := findSymbol_unique (by rw [names_defs]; exact hb.nodup) hn
  refine ⟨v,hv,?_⟩
  rw [Asm.addrOf,resolve,hb.symtab,hf]
  rfl

end Plain

-- reading comes to a name that is taken before a division traps
def taken (known : List Text) (v : Word) : List Piece → Bool
  | [] => false
  | .label name :: ps => decide (name ∈ known) || taken (name :: known) v ps
  | .item inst arg :: ps => (Piece.item inst arg).divides v && taken known (arg.next inst v) ps

section Taken

variable {k : Nat} {s : Parse} {st : State} {known : List Text} {v : Word} {p : Piece}
  {ps qs : List Piece} {pss : List (List Piece)} {t : Text} {ts : List Text}

theorem apply_label_taken {name : Text} (hn : name ∈ names s.symtab) :
    ∃ text, (Piece.label name).apply k s = .error (.err text) := by
  have ha : addSymbol name s.vmaddr s.symtab = none := by
    cases ha : addSymbol name s.vmaddr s.symtab with
    | none => rfl
    | some u => exact absurd hn (addSymbol_eq_some.mp ha).1
  refine ⟨"Dup symbol:" ++ String.ofList name,?_⟩
  simp only [Piece.apply]
  rw [ha]
  rfl

theorem apply_item_err {inst : Instr} {arg : Arg} {text : String} :
    (Piece.item inst arg).apply k s ≠ .error (.err text) := by
  intro h
  cases arg with
  | align a =>
    simp only [Piece.apply,Arg.apply] at h
    cases hq : quot ((s.place inst).vmaddr + a - 1) a with
    | ok q =>
      rw [hq] at h
      cases h
    | error e =>
      rw [hq] at h
      rw [quot] at hq
      split at hq
      · cases hq
        cases h
      · cases hq
  | none | reg a | regs a b | immReg imm b | regMem a disp b | memReg disp b a | dest imm | data imm
  | pos v => cases h

theorem applyAll_err : (∃ text, applyAll k ps s = .error (.err text)) ↔
    taken (names s.symtab) s.vmaddr ps = true := by
  induction ps generalizing s with
  | nil =>
    refine iff_of_false ?_ Bool.false_ne_true
    rintro ⟨_,h⟩
    cases h
  | cons p ps ih =>
    rw [applyAll_cons]
    have hgo {u : Parse} (hu : p.apply k s = .ok u) :
        (∃ text, (p.apply k s).bind (applyAll k ps) = .error (.err text)) ↔
          taken (names (p.defs s.vmaddr ++ s.symtab)) (p.next s.vmaddr) ps = true := by
      have he := apply_effect hu
      rw [hu,← he.symtab,← he.vmaddr]
      exact ih
    cases p with
    | label name =>
      rw [taken,Bool.or_eq_true,decide_eq_true_eq]
      by_cases hn : name ∈ names s.symtab
      · obtain ⟨text,he⟩ := apply_label_taken (k := k) hn
        exact iff_of_true ⟨text,by rw [he]; rfl⟩ (.inl hn)
      · obtain ⟨u,hu⟩ := label_ok.mpr hn
        rw [hgo hu,or_iff_right hn]
        rfl
    | item inst arg =>
      rw [taken,Bool.and_eq_true]
      by_cases hd : (Piece.item inst arg).divides s.vmaddr = true
      · obtain ⟨u,hu⟩ := arg_ok (k := k).mpr hd
        rw [hgo hu,and_iff_right hd]
        rfl
      · refine iff_of_false ?_ fun h => hd h.1
        rintro ⟨text,he⟩
        cases ha : (Piece.item inst arg).apply k s with
        | ok u => exact hd (arg_ok.mp ⟨u,ha⟩)
        | error e =>
          rw [ha] at he
          cases he
          exact apply_item_err ha

theorem taken_append : taken known v (ps ++ qs) = true ↔ taken known v ps = true ∨
    Fresh known ps ∧ divides v ps = true ∧
      taken ((labels ps).reverse ++ known) (counter v ps) qs = true := by
  induction ps generalizing known v with
  | nil => simp [taken,Fresh,divides,labels,counter]
  | cons p ps ih =>
    cases p with
    | label name =>
      have hl : (labels (.label name :: ps)).reverse ++ known =
          (labels ps).reverse ++ (name :: known) := by
        simp [labels]
      rw [hl]
      simp only [List.cons_append,taken,Fresh,divides,Piece.divides,Bool.or_eq_true,Bool.true_and,
        decide_eq_true_eq,ih]
      change name ∈ known ∨ _ ∨ _ ∧ _ ∧ taken _ (counter v ps) qs = true ↔
        (name ∈ known ∨ _) ∨ (name ∉ known ∧ _) ∧ _ ∧ taken _ (counter v ps) qs = true
      tauto
    | item inst arg =>
      simp only [List.cons_append,taken,Fresh,divides,Bool.and_eq_true,ih]
      change _ ∧ (_ ∨ _ ∧ _ ∧ taken ((labels ps).reverse ++ known) (counter (arg.next inst v) ps) qs =
        true) ↔ _ ∨ _ ∧ _ ∧ taken ((labels ps).reverse ++ known) (counter (arg.next inst v) ps) qs = true
      change _ ↔ _ ∨ _ ∧ (_ ∧ divides (arg.next inst v) ps = true) ∧ _
      tauto

theorem assembleLine_err (hs : scanLine t = some ps) : (∃ text, assembleLine st t = .error (.err text)) ↔
    taken (names st.symtab) st.vmaddr ps = true := by
  rw [assembleLine_eq,@parseLine_of_scan _ _ ps hs,← @applyAll_err st.lines.length
    ⟨0,(Draft.blank st.vmaddr t).line,st.vmaddr,st.symtab,st.reltab⟩ ps]
  cases applyAll st.lines.length ps
    ⟨0,(Draft.blank st.vmaddr t).line,st.vmaddr,st.symtab,st.reltab⟩ with
  | error e => exact ⟨fun ⟨text,h⟩ => ⟨text,by cases h; rfl⟩,fun ⟨text,h⟩ => ⟨text,by cases h; rfl⟩⟩
  | ok u =>
    refine iff_of_false ?_ ?_
    · rintro ⟨_,h⟩
      cases h
    · rintro ⟨_,h⟩
      cases h

theorem assembleLine_passes (hs : scanLine t = some ps) :
    (∃ st', assembleLine st t = .ok st') ↔ Fresh (names st.symtab) ps ∧ divides st.vmaddr ps = true := by
  rw [assembleLine_eq,@parseLine_of_scan _ _ ps hs,← @applyAll_ok st.lines.length
    ⟨0,(Draft.blank st.vmaddr t).line,st.vmaddr,st.symtab,st.reltab⟩ ps]
  cases applyAll st.lines.length ps
    ⟨0,(Draft.blank st.vmaddr t).line,st.vmaddr,st.symtab,st.reltab⟩ with
  | ok u => exact iff_of_true ⟨_,rfl⟩ ⟨u,rfl⟩
  | error e =>
    refine iff_of_false ?_ ?_
    · rintro ⟨_,h⟩
      cases h
    · rintro ⟨_,h⟩
      cases h

theorem assembleLines_err (hs : scanLines ts = some pss) :
    (∃ text, ts.foldlM assembleLine st = .error (.err text)) ↔
      taken (names st.symtab) st.vmaddr pss.flatten = true := by
  induction ts generalizing st pss with
  | nil =>
    obtain rfl := Option.some.inj hs
    refine iff_of_false ?_ Bool.false_ne_true
    rintro ⟨_,h⟩
    cases h
  | cons t ts ih =>
    obtain ⟨ps,hps,hs⟩ := Option.bind_eq_some_iff.mp hs
    obtain ⟨pss,hpss,rfl⟩ := Option.map_eq_some_iff.mp hs
    rw [List.foldlM_cons,List.flatten_cons,taken_append,← assembleLine_err hps]
    cases ha : assembleLine st t with
    | ok mid =>
      obtain ⟨ps',hps',hm⟩ := assembleLine_ok ha
      obtain rfl := Option.some.inj (hps.symm.trans hps')
      have hpass := (assembleLine_passes hps).mp ⟨mid,ha⟩
      have hsym : names mid.symtab = (labels ps).reverse ++ names st.symtab := by
        have h := hm.symtab
        simp only [List.flatMap_singleton] at h
        rw [h,names,List.map_append,List.map_reverse,← names,← names,names_defs]
      have hv : mid.vmaddr = counter st.vmaddr ps := by simpa using hm.vmaddr
      have hmid := @ih mid _ hpss
      rw [hsym,hv] at hmid
      have hne : ¬ ∃ text, (Except.ok mid : Except Stop State) = .error (.err text) := by
        rintro ⟨_,h⟩
        cases h
      rw [or_iff_right hne,and_iff_right hpass.1,and_iff_right hpass.2,← hmid]
      rfl
    | error e =>
      have hpass : ¬ (Fresh (names st.symtab) ps ∧ divides st.vmaddr ps = true) := fun h => by
        obtain ⟨mid,hmid⟩ := (assembleLine_passes hps).mpr h
        rw [ha] at hmid
        cases hmid
      rw [← and_assoc,or_iff_left fun h => hpass h.1]
      constructor
      · rintro ⟨text,h⟩
        cases h
        exact ⟨text,rfl⟩
      · rintro ⟨text,h⟩
        cases h
        exact ⟨text,rfl⟩

theorem taken_iff : taken known v ps = true ↔ ∃ pre name post, ps = pre ++ .label name :: post ∧
    Fresh known pre ∧ (name ∈ known ∨ name ∈ labels pre) ∧ divides v pre = true := by
  induction ps generalizing known v with
  | nil => simp [taken]
  | cons p ps ih =>
    constructor
    · intro h
      cases p with
      | label name =>
        by_cases hn : name ∈ known
        · exact ⟨[],name,ps,rfl,trivial,.inl hn,rfl⟩
        · rw [taken,Bool.or_eq_true,decide_eq_true_eq,or_iff_right hn] at h
          obtain ⟨pre,x,post,rfl,hf,hx,hd⟩ := ih.mp h
          refine ⟨.label name :: pre,x,post,rfl,⟨hn,hf⟩,?_,hd⟩
          simp only [labels,List.flatMap_cons,List.mem_append,List.mem_cons,List.not_mem_nil,
            or_false] at hx ⊢
          tauto
      | item inst arg =>
        rw [taken,Bool.and_eq_true] at h
        obtain ⟨pre,x,post,rfl,hf,hx,hd⟩ := ih.mp h.2
        exact ⟨.item inst arg :: pre,x,post,rfl,hf,hx,Bool.and_eq_true .. ▸ ⟨h.1,hd⟩⟩
    · rintro ⟨pre,x,post,he,hf,hx,hd⟩
      cases pre with
      | nil =>
        obtain ⟨rfl,rfl⟩ := List.cons.inj he
        rw [taken,Bool.or_eq_true,decide_eq_true_eq]
        exact .inl (hx.resolve_right List.not_mem_nil)
      | cons q pre =>
        obtain ⟨rfl,rfl⟩ := List.cons.inj he
        rw [divides,Bool.and_eq_true] at hd
        cases p with
        | label name =>
          rw [taken,Bool.or_eq_true]
          refine .inr (ih.mpr ⟨pre,x,post,rfl,hf.2,?_,hd.2⟩)
          simp only [labels,List.flatMap_cons,List.mem_append,List.mem_cons,List.not_mem_nil,
            or_false] at hx ⊢
          tauto
        | item inst arg =>
          rw [taken,Bool.and_eq_true]
          exact ⟨hd.1,ih.mpr ⟨pre,x,post,rfl,hf,hx,hd.2⟩⟩

theorem fresh_iff : Fresh known ps ↔ (labels ps).Nodup ∧ ∀ name ∈ labels ps, name ∉ known := by
  induction ps generalizing known with
  | nil => simp [Fresh,labels]
  | cons p ps ih =>
    cases p with
    | label name =>
      have hl : labels (.label name :: ps) = name :: labels ps := rfl
      rw [Fresh,ih,hl,List.nodup_cons,List.forall_mem_cons]
      simp only [List.mem_cons,not_or]
      constructor
      · rintro ⟨h1,h2,h3⟩
        exact ⟨⟨fun hm => (h3 name hm).1 rfl,h2⟩,h1,fun x hx => (h3 x hx).2⟩
      · rintro ⟨⟨h1,h2⟩,h3,h4⟩
        exact ⟨h3,h2,fun x hx => ⟨fun he => h1 (he ▸ hx),h4 x hx⟩⟩
    | item inst arg => exact ih

end Taken

-- every name that is used stands in the code as the address of its one definition
structure Resolves (file : Text) (pss : List (List Piece)) : Prop where
  encoded : ∀ st lines, assemble file = .ok st → relocate st = .ok lines →
    ∀ (k : Nat) ps inst arg name, pss[k]? = some ps → .item inst arg ∈ ps → arg.ref = some name →
      ∃ v l, (defs 0 pss.flatten).filter (fun s => s.name = name) = [⟨name,v⟩] ∧
        lines[k]? = some l ∧ l.y64bin.bytes = inst.bytes ∧
        (arg.image inst v).length = inst.bytes ∧ Y86.Holds l.y64bin.codes 0 (arg.image inst v)
  twice : ¬ (labels pss.flatten).Nodup → ∃ text, assemble file = .error (.err text)
  unknown : ∀ st, assemble file = .ok st → ((∃ text, relocate st = .error (.err text)) ↔
    ∃ p ∈ pss.flatten, ∃ name, p.ref = some name ∧ name ∉ labels pss.flatten)

-- up to the first name that is defined again no .align divides by 0, or overflows
def Clear (ps : List Piece) : Prop := ∃ pre name post, ps = pre ++ .label name :: post ∧
  (labels pre).Nodup ∧ name ∈ labels pre ∧ divides 0 pre = true

section Resolves

variable {file : Text} {pss : List (List Piece)}

theorem clear_iff {ps : List Piece} : Clear ps ↔ taken [] 0 ps = true := by
  rw [taken_iff]
  simp only [Clear,fresh_iff,List.not_mem_nil,false_or,not_false_eq_true,implies_true,and_true]

theorem encoded_of_scan (hs : scanLines (sourceLines file) = some pss)
    (hp : ∀ ps ∈ pss, plain ps = true) {st : State} {lines : List Line}
    (ha : assemble file = .ok st) (hr : relocate st = .ok lines) {k : Nat} {ps : List Piece}
    {inst : Instr} {arg : Arg} {name : Text} (hk : pss[k]? = some ps) (hm : .item inst arg ∈ ps)
    (hn : arg.ref = some name) :
    ∃ v l, (defs 0 pss.flatten).filter (fun s => s.name = name) = [⟨name,v⟩] ∧
      lines[k]? = some l ∧ l.y64bin.bytes = inst.bytes ∧
      (arg.image inst v).length = inst.bytes ∧ Y86.Holds l.y64bin.codes 0 (arg.image inst v) := by
  obtain ⟨qss,hb⟩ := built ha hr
  obtain rfl := Option.some.inj (hb.scan.symm.trans hs)
  have hps := List.mem_of_getElem? hk
  obtain ⟨ls,rfl,hl⟩ := plain_item (hp ps hps) hm
  obtain ⟨l,hk,hbytes,hw,himg⟩ := hb.image hk hl
  have hdef := hb.named _ (List.mem_flatten.mpr ⟨_,hps,hm⟩) name hn
  obtain ⟨v,hv,ha⟩ := hb.addrOf hdef
  rw [eval_of_ref hn,ha] at himg
  exact ⟨v,l,hv,hk,hbytes,length_image hw v,himg⟩

theorem unknown_of_scan (hs : scanLines (sourceLines file) = some pss) {st : State}
    (ha : assemble file = .ok st) : (∃ text, relocate st = .error (.err text)) ↔
      ∃ p ∈ pss.flatten, ∃ name, p.ref = some name ∧ name ∉ labels pss.flatten := by
  obtain ⟨qss,hq,⟨-,hsym,hrel⟩,-⟩ := assemble_ok ha
  obtain rfl := Option.some.inj (hq.symm.trans hs)
  constructor
  · rintro ⟨text,he⟩
    obtain ⟨⟨r,hr,hn⟩,-⟩ | ⟨-,lines,hk⟩ := relocateLoop_cases st.symtab st.reltab st.lines
    · rw [hrel,List.mem_reverse] at hr
      rw [hsym,mem_names_reverse] at hn
      obtain ⟨-,p,hp,hname⟩ := mem_refsFrom hr
      exact ⟨p,hp,r.name,hname,hn⟩
    · rw [relocate,hk] at he
      cases he
  · rintro ⟨p,hp,name,hname,hn⟩
    obtain ⟨-,he⟩ | ⟨hall,-⟩ := relocateLoop_cases st.symtab st.reltab st.lines
    · exact he
    · obtain ⟨r,hr,rfl⟩ := refsFrom_mem (j := 0) hp hname
      have := hall r (hrel ▸ List.mem_reverse.mpr hr)
      rw [hsym,mem_names_reverse] at this
      exact absurd this hn

theorem symbols_resolved (hs : scanLines (sourceLines file) = some pss)
    (hp : ∀ ps ∈ pss, plain ps = true) :
    Resolves file pss ↔ (labels pss.flatten).Nodup ∨ Clear pss.flatten := by
  rw [clear_iff]
  constructor
  · intro h
    by_contra hno
    obtain ⟨hdup,hclear⟩ := not_or.mp hno
    exact hclear ((assembleLines_err hs).mp (h.twice hdup))
  · intro hc
    refine ⟨fun st lines ha hr k ps inst arg name => encoded_of_scan hs hp ha hr,fun hdup => ?_,
      fun st => unknown_of_scan hs⟩
    exact (assembleLines_err hs).mpr (hc.resolve_left hdup)

end Resolves

-- the division of .align 0 traps before a is defined again
def trapFirst : Text := ".align 0\na: nop\na: nop".toList

def nop : Piece := .item ⟨"nop".toList,3,0x10,1⟩ .none

def trapFirstPieces : List (List Piece) :=
  [[.item ⟨".align".toList,6,0xc2,0⟩ (.align 0)],[.label ['a'],nop],[.label ['a'],nop]]

theorem symbols_resolved_trap_first : scanLines (sourceLines trapFirst) = some trapFirstPieces ∧
    (∀ ps ∈ trapFirstPieces, plain ps = true) ∧ ¬ Resolves trapFirst trapFirstPieces := by
  refine ⟨by decide +kernel,by decide,fun h => ?_⟩
  obtain ⟨text,he⟩ := h.twice (by decide)
  have ht : (match assemble trapFirst with | .error .trap => true | _ => false) = true := by
    decide +kernel
  rw [he] at ht
  cases ht

-- e is used before its definition, s after it
def bothWays : Text := ".pos 16\ns: jmp e\n.quad s\ne: halt".toList

def bothWaysPieces : List (List Piece) :=
  [[.item ⟨".pos".toList,4,0xc1,0⟩ (.pos 16)],
    [.label ['s'],.item ⟨"jmp".toList,3,0x70,9⟩ (.dest (.symbol ['e']))],
    [.item ⟨".quad".toList,5,0xc0,8⟩ (.data (.symbol ['s']))],
    [.label ['e'],.item ⟨"halt".toList,4,0,1⟩ .none]]

theorem symbols_resolved_both_ways : ∃ st lines, assemble bothWays = .ok st ∧
    relocate st = .ok lines ∧
    (∃ l, lines[1]? = some l ∧ Y86.Holds l.y64bin.codes 0 (0x70 :: Y86.bytesOf 8 33)) ∧
    ∃ l, lines[2]? = some l ∧ Y86.Holds l.y64bin.codes 0 (Y86.bytesOf 8 16) := by
  have hall : ((assemble bothWays).toOption.any fun st => (relocate st).toOption.isSome) = true := by
    decide +kernel
  have hs : scanLines (sourceLines bothWays) = some bothWaysPieces := by decide +kernel
  have hr := (symbols_resolved hs (by decide)).mpr (.inl (by decide))
  cases ha : assemble bothWays with
  | error e =>
    rw [ha] at hall
    cases hall
  | ok st =>
    cases hl : relocate st with
    | error e =>
      rw [ha] at hall
      change (relocate st).toOption.isSome = true at hall
      rw [hl] at hall
      cases hall
    | ok lines =>
      obtain ⟨v,l,hv,hk,-,-,hh⟩ := hr.encoded st lines ha hl 1 _ ⟨"jmp".toList,3,0x70,9⟩
        (.dest (.symbol ['e'])) ['e'] rfl (by decide) rfl
      have he : (defs 0 bothWaysPieces.flatten).filter (fun s => s.name = ['e']) = [⟨['e'],33⟩] := by
        decide
      obtain rfl : 33 = v := congrArg Symbol.addr (List.cons.inj (he.symm.trans hv)).1
      obtain ⟨w,l',hw,hk',-,-,hh'⟩ := hr.encoded st lines ha hl 2 _ ⟨".quad".toList,5,0xc0,8⟩
        (.data (.symbol ['s'])) ['s'] rfl (by decide) rfl
      have hd : (defs 0 bothWaysPieces.flatten).filter (fun s => s.name = ['s']) = [⟨['s'],16⟩] := by
        decide
      obtain rfl : 16 = w := congrArg Symbol.addr (List.cons.inj (hd.symm.trans hw)).1
      exact ⟨st,lines,rfl,hl,⟨l,hk,hh⟩,l',hk',hh'⟩

end Asm
