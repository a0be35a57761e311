import IcsLabs.Asm.Grammar
import IcsLabs.Asm.Layout

namespace Asm
open Libc

def isAlnum (c : Char) : Bool := isLetter c || decide ('0' ≤ c ∧ c ≤ '9')

def comment : Language Char := {c | ∃ d, c = '#' :: d}

def trailer : Language Char := blanks * (1 + comment)

-- the lines of the language, after the definitions of known
inductive Grammar : List Text → Text → Prop
  | tail {known : List Text} {t : Text} : t ∈ trailer → Grammar known t
  | item {known : List Text} {b : Text} {inst : Instr} {w t : Text} : b ∈ blanks →
    inst ∈ instrSet → w ∈ operands inst → t ∈ trailer → starts isAlnum (w ++ t) = false →
      Grammar known (b ++ (inst.name ++ (w ++ t)))
  | label {known : List Text} {b name b' t : Text} : b ∈ blanks → name ∈ symbol → b' ∈ blanks →
    name ∉ known → Grammar (name :: known) t → Grammar known (b ++ (name ++ (b' ++ ':' :: t)))

def Fresh (known : List Text) : List Piece → Prop
  | [] => True
  | .label name :: ps => name ∉ known ∧ Fresh (name :: known) ps
  | .item _ _ :: ps => Fresh known ps

-- the quotient of an .align exists
def Piece.divides (v : Word) : Piece → Bool
  | .item inst (.align a) =>
    !decide (a = 0 ∨ v + BitVec.ofNat 64 inst.bytes + a - 1 = BitVec.intMin 64 ∧ a = -1)
  | _ => true

def divides (v : Word) : List Piece → Bool
  | [] => true
  | p :: ps => p.divides v && divides (p.next v) ps

section Apply

variable {k : Nat} {s s' : Parse} {p : Piece} {ps : List Piece} {inst : Instr} {arg : Arg}

theorem quot_ok {a b : Word} : (∃ q, quot a b = .ok q) ↔ ¬ (b = 0 ∨ a = BitVec.intMin 64 ∧ b = -1) := by
  rw [quot]
  split
  · rename_i hc
    refine iff_of_false ?_ (not_not.mpr hc)
    rintro ⟨_,h⟩
    cases h
  · rename_i hc
    exact iff_of_true ⟨_,rfl⟩ hc

theorem arg_ok : (∃ s', arg.apply k inst (s.place inst) = .ok s') ↔
    (Piece.item inst arg).divides s.vmaddr = true := by
  cases arg with
  | align a =>
    rw [Piece.divides,Bool.not_eq_true',decide_eq_false_iff_not]
    refine Iff.trans ?_ quot_ok
    rw [Arg.apply]
    change (∃ s', (quot (s.vmaddr + BitVec.ofNat 64 inst.bytes + a - 1) a).map _ = .ok s') ↔ _
    cases quot (s.vmaddr + BitVec.ofNat 64 inst.bytes + a - 1) a with
    | error e =>
      refine iff_of_false ?_ ?_
      · rintro ⟨_,h⟩
        cases h
      · rintro ⟨_,h⟩
        cases h
    | ok q => exact iff_of_true ⟨_,rfl⟩ ⟨q,rfl⟩
  | none | reg a | regs a b | immReg imm b | regMem a disp b | memReg disp b a | dest imm | data imm
  | pos v => exact iff_of_true ⟨_,rfl⟩ rfl

theorem label_ok {name : Text} : (∃ s', (Piece.label name).apply k s = .ok s') ↔
    name ∉ names s.symtab := by
  rw [← findSymbol_eq_none]
  simp only [Piece.apply,addSymbol]
  cases findSymbol name s.symtab with
  | none => exact iff_of_true ⟨_,rfl⟩ rfl
  | some x =>
    refine iff_of_false ?_ (by simp)
    rintro ⟨_,h⟩
    cases h

theorem applyAll_cons (p : Piece) (ps : List Piece) (s : Parse) :
    applyAll k (p :: ps) s = (p.apply k s).bind (applyAll k ps) := rfl

-- reading stops at a label that is taken and at a division that traps, and nowhere else
theorem applyAll_ok : (∃ s', applyAll k ps s = .ok s') ↔
    Fresh (names s.symtab) ps ∧ divides s.vmaddr ps = true := by
  induction ps generalizing s with
  | nil => exact iff_of_true ⟨s,rfl⟩ ⟨trivial,rfl⟩
  | cons p ps ih =>
    have hstop (h : ¬ ∃ s', p.apply k s = .ok s') : ¬ ∃ s', applyAll k (p :: ps) s = .ok s' := by
      rintro ⟨s',hs⟩
      rw [applyAll_cons] at hs
      cases hp : p.apply k s with
      | error e =>
        rw [hp] at hs
        cases hs
      | ok u => exact h ⟨u,hp⟩
    have hgo {u : Parse} (hu : p.apply k s = .ok u) : (∃ s', applyAll k (p :: ps) s = .ok s') ↔
        Fresh (names (p.defs s.vmaddr ++ s.symtab)) ps ∧ divides (p.next s.vmaddr) ps = true := by
      have he := apply_effect hu
      rw [applyAll_cons,hu,← he.symtab,← he.vmaddr]
      exact ih
    cases p with
    | label name =>
      simp only [Fresh,divides,Piece.divides,Bool.true_and,and_assoc]
      by_cases hn : name ∉ names s.symtab
      · obtain ⟨u,hu⟩ := label_ok (k := k).mpr hn
        rw [hgo hu]
        exact ⟨fun h => ⟨hn,h⟩,And.right⟩
      · exact iff_of_false (hstop fun h => hn (label_ok.mp h)) fun h => hn h.1
    | item inst arg =>
      simp only [Fresh,divides,Bool.and_eq_true]
      by_cases hd : (Piece.item inst arg).divides s.vmaddr = true
      · obtain ⟨u,hu⟩ := arg_ok (k := k).mpr hd
        rw [hgo hu]
        exact and_congr_right fun _ => ⟨fun h => ⟨hd,h⟩,And.right⟩
      · exact iff_of_false (hstop fun h => hd (arg_ok.mp h)) fun h => hd h.2.1

end Apply

section Lacks

variable {L M : Language Char} {c : Char} {s t w x : Text}

def Lacks (c : Char) (L : Language Char) : Prop := ∀ w ∈ L, c ∉ w

theorem Lacks.mul (hL : Lacks c L) (hM : Lacks c M) : Lacks c (L * M) := by
  intro w hw
  obtain ⟨u,hu,v,hv,rfl⟩ := Language.mem_mul.mp hw
  exact fun h => (List.mem_append.mp h).elim (hL u hu) (hM v hv)

theorem lacks_allOf {p : Char → Bool} (h : p c = false) : Lacks c (allOf p) := fun w hw hc => by
  simp [hw c hc] at h

theorem Lacks.tok (hc : isBlank c = false) (hL : Lacks c L) : Lacks c (tok L) :=
  Lacks.mul (lacks_allOf hc) hL

theorem lacks_delim {d : Char} (hc : isBlank c = false) (hd : c ≠ d) : Lacks c (delim d) :=
  Lacks.tok hc <| by
    rintro _ rfl h
    exact hd (List.mem_singleton.mp h)

theorem lacks_number (hc : isWord c = false) (v : Word) : Lacks c (number v) :=
  fun w hw => lacks_allOf hc w (numeral_word hw.1)

theorem lacks_named (hc : isWord c = false) (name : Text) : Lacks c (named name) :=
  fun w hw => lacks_allOf hc w (symbol_word hw.1)

theorem lacks_register (hc : isWord c = false) (hp : c ≠ '%') (a : Nat) : Lacks c (register a) := by
  have hall : ∀ r ∈ regTable, r.name.all (fun d => d == '%' || isWord d) = true := by
    decide +kernel
  rintro _ ⟨r,hr,-,rfl⟩ h
  simpa [hc,hp] using List.all_eq_true.mp (hall r hr) c h

theorem lacks_text {base : Nat → Language Char} (hb : isBlank c = false) (hw : isWord c = false)
    (hc : c ∉ ['%','$',',']) (hbase : ∀ b, Lacks c (base b)) (arg : Arg) :
    Lacks c (arg.text register base) := by
  simp only [List.mem_cons,List.not_mem_nil,or_false,not_or] at hc
  obtain ⟨hp,hd,hm⟩ := hc
  have hreg (a : Nat) : Lacks c (tok (register a)) := (lacks_register hw hp a).tok hb
  have hnum (v : Word) : Lacks c (tok (number v)) := (lacks_number hw v).tok hb
  have hname (name : Text) : Lacks c (tok (named name)) := (lacks_named hw name).tok hb
  have hcomma {M : Language Char} (h : Lacks c M) : Lacks c (delim ',' * M) :=
    (lacks_delim hb hm).mul h
  have himm (d : Operand) : Lacks c d.immText := by
    cases d with
    | digit v => exact (lacks_delim hb hd).mul (hnum v)
    | symbol name => exact hname name
  have hmem (disp : Option Word) (b : Nat) : Lacks c (memText base disp b) := by
    cases disp with
    | none => exact hbase b
    | some v => exact (hnum v).mul (hbase b)
  cases arg with
  | none =>
    rintro _ rfl
    exact List.not_mem_nil
  | reg a => exact hreg a
  | regs a b => exact (hreg a).mul (hcomma (hreg b))
  | immReg d b => exact (himm d).mul (hcomma (hreg b))
  | regMem a disp b => exact (hreg a).mul (hcomma (hmem disp b))
  | memReg disp b a => exact (hmem disp b).mul (hcomma (hreg a))
  | dest d => exact himm d
  | data d =>
    cases d with
    | digit v => exact hnum v
    | symbol name => exact hname name
  | pos v | align v => exact hnum v

theorem lacks_operands (inst : Instr) : Lacks ':' (operands inst) := by
  rintro w ⟨arg,-,hw⟩
  refine lacks_text (by decide) (by decide) (by decide) (fun b => ?_) arg w hw
  exact (lacks_delim (by decide) (by decide)).mul
    (((lacks_register (by decide) (by decide) b).tok (by decide)).mul
      (lacks_delim (by decide) (by decide)))

end Lacks

section Items

variable {s t u w : Text} {inst : Instr} {name : Text}

theorem instr_spec : ∀ i ∈ instrSet, ':' ∉ i.name ∧
    starts (fun c => !isBlank c && c != '#') i.name = true ∧ i.name.tail.all isAlnum = true := by
  decide +kernel

theorem instr_rest {j : Instr} {r : Text} (hi : inst ∈ instrSet) (hj : j ∈ instrSet)
    (hr : inst.name ++ r = j.name) : ∀ c ∈ r, isAlnum c = true := fun c hc => by
  refine List.all_eq_true.mp (instr_spec j hj).2.2 c ?_
  obtain ⟨d,ds,hd,-⟩ := starts_iff.mp (instr_spec inst hi).2.1
  rw [← hr,hd,List.cons_append,List.tail_cons]
  exact List.mem_append_right _ hc

theorem findInstr_append (hi : inst ∈ instrSet) (hu : starts isAlnum u = false) :
    findInstr (inst.name ++ u) = some inst := by
  refine findInstr_name.mpr ⟨hi,fun j hj r hr hru => ?_⟩
  cases r with
  | nil => rfl
  | cons c r =>
    -- a longer mnemonic would go on into u
    have hc : isAlnum c = true := instr_rest hi hj hr c List.mem_cons_self
    obtain ⟨t,rfl⟩ := hru
    rw [List.cons_append,starts_cons,hc] at hu
    cases hu

theorem skipBlank_item (hi : inst ∈ instrSet) (u : Text) :
    skipBlank (inst.name ++ u) = inst.name ++ u := by
  obtain ⟨c,cs,he,hc⟩ := starts_iff.mp (instr_spec inst hi).2.1
  have hb : isBlank c = false := by
    rw [Bool.and_eq_true] at hc
    simpa using hc.1
  rw [he]
  exact List.dropWhile_cons_of_neg (by simp [hb])

theorem atEnd_item (hi : inst ∈ instrSet) (u : Text) : atEnd (inst.name ++ u) = false := by
  obtain ⟨c,cs,he,hc⟩ := starts_iff.mp (instr_spec inst hi).2.1
  rw [Bool.and_eq_true] at hc
  rw [he,atEnd,List.cons_append,starts_cons]
  have : (c == '#') = false := by simpa using hc.2
  simp [this]

theorem parseInstr_split (h : parseInstr s = some (inst,u)) :
    inst ∈ instrSet ∧ inst.name ++ u = skipBlank s := by
  obtain ⟨j,hf,he⟩ := Option.map_eq_some_iff.mp h
  cases he
  exact findInstr_split hf

theorem atEnd_iff : atEnd (skipBlank t) = true ↔ t ∈ trailer := by
  have hhash : ∀ c ∈ (1 + comment : Language Char), ∀ d ∈ c.head?, isBlank d = false := by
    rintro c (rfl | ⟨d,rfl⟩) e he
    · cases he
    · cases he
      decide
  constructor
  · intro h
    rw [atEnd,Bool.or_eq_true,decide_eq_true_eq,starts_iff] at h
    refine Language.mem_mul.mpr ⟨_,takeWhile_blanks t,skipBlank t,?_,blanks_skipBlank t⟩
    rcases h with h | ⟨c,d,h,hc⟩
    · exact Or.inl h
    · exact Or.inr ⟨d,by rw [h,eq_of_beq hc]⟩
  · intro h
    obtain ⟨b,hb,c,hc,rfl⟩ := Language.mem_mul.mp h
    rw [skipBlank_append hb (hhash c hc)]
    rcases hc with rfl | ⟨d,rfl⟩
    · rfl
    · rfl

theorem trailer_breaks (h : t ∈ trailer) : Breaks t := by
  obtain ⟨b,hb,c,hc,rfl⟩ := Language.mem_mul.mp h
  intro d hd
  cases b with
  | nil =>
    rcases hc with rfl | ⟨e,rfl⟩
    · cases hd
    · cases hd
      decide
  | cons e b =>
    cases hd
    exact isWord_of_blank (hb _ (List.mem_cons_self ..))

theorem parseLabel_split (h : parseLabel s = some (name,t)) : name ∈ symbol ∧
    ∃ b ∈ blanks, name ++ (b ++ ':' :: t) = skipBlank s := by
  rw [parseLabel] at h
  split at h
  · rename_i hst
    obtain ⟨u,hd,he⟩ := Option.map_eq_some_iff.mp h
    cases he
    obtain ⟨w,hw,he⟩ := (parseDelim_iff (by decide)).mp hd
    obtain ⟨b,hb,_,rfl,rfl⟩ := Language.mem_mul.mp hw
    refine ⟨word_symbol hst,b,hb,?_⟩
    have hs := word_afterWord (skipBlank s)
    rwa [← he,List.append_assoc] at hs
  · cases h

theorem parseLabel_append {b : Text} (hn : name ∈ symbol) (hb : b ∈ blanks) :
    parseLabel (name ++ (b ++ ':' :: t)) = some (name,t) := by
  have hm : b ++ [':'] ∈ delim ':' := Language.mem_mul.mpr ⟨b,hb,[':'],rfl,rfl⟩
  have he : b ++ [':'] ++ t = b ++ ':' :: t := List.append_assoc b [':'] t
  have hbr : Breaks (b ++ ':' :: t) := he ▸ (firm_delim (by decide)).breaks hm t
  have hd : parseDelim ':' (b ++ ':' :: t) = some t := (parseDelim_iff (by decide)).mpr ⟨_,hm,he⟩
  obtain ⟨h1,h2⟩ := word_append (symbol_word hn) hbr
  have hs : skipBlank (name ++ (b ++ ':' :: t)) = name ++ (b ++ ':' :: t) :=
    skipBlank_append (w := []) (fun _ hc => absurd hc List.not_mem_nil)
      (solid_symbol.head hn)
  rw [parseLabel,hs,if_pos (starts_symbol hn _),h1,h2,hd]
  rfl

theorem dropWhile_stop {p : Char → Bool} (x : Text) {c : Text} (hc : ∀ d ∈ c.head?, p d = false) :
    ∃ y, y <:+ x ∧ (x ++ c).dropWhile p = y ++ c := by
  induction x with
  | nil =>
    refine ⟨[],List.suffix_rfl,?_⟩
    cases c with
    | nil => rfl
    | cons d c => exact List.dropWhile_cons_of_neg (by simp [hc d rfl])
  | cons d x ih =>
    rw [List.cons_append]
    cases hd : p d with
    | false => exact ⟨d :: x,List.suffix_rfl,List.dropWhile_cons_of_neg (by simp [hd])⟩
    | true =>
      obtain ⟨y,hy,he⟩ := ih
      exact ⟨y,hy.trans (List.suffix_cons _ _),(List.dropWhile_cons_of_pos hd).trans he⟩

-- the operands of an item have no colon, and the comment after them is not reached
theorem parseLabel_item (hi : inst ∈ instrSet) (hw : w ∈ operands inst) (ht : t ∈ trailer) :
    parseLabel (inst.name ++ (w ++ t)) = none := by
  obtain ⟨b,hb,c,hc,rfl⟩ := Language.mem_mul.mp ht
  have hstop (p : Char → Bool) (hp : p '#' = false) : ∀ d ∈ c.head?, p d = false := by
    rcases hc with rfl | ⟨e,rfl⟩
    · intro d hd
      cases hd
    · intro d hd
      cases hd
      exact hp
  have hcolon : ':' ∉ inst.name ++ (w ++ b) := by
    simp only [List.mem_append,not_or]
    exact ⟨(instr_spec inst hi).1,lacks_operands inst w hw,lacks_allOf (by decide) b hb⟩
  rw [parseLabel,skipBlank_item hi]
  split
  · rw [Option.map_eq_none_iff,parseDelim]
    refine if_neg fun hst => ?_
    obtain ⟨y,hy,he⟩ := dropWhile_stop (inst.name ++ (w ++ b)) (hstop isWord (by decide))
    obtain ⟨z,hz,he'⟩ := dropWhile_stop y (hstop isBlank (by decide))
    have hrest : skipBlank (afterWord (inst.name ++ (w ++ (b ++ c)))) = z ++ c := by
      rw [← he',← he,← List.append_assoc w,← List.append_assoc]
      rfl
    rw [hrest] at hst
    cases z with
    | nil =>
      rcases hc with rfl | ⟨e,rfl⟩
      · cases hst
      · cases hst
    | cons d z =>
      obtain rfl := eq_of_beq hst
      exact hcolon ((hz.trans hy).subset (List.mem_cons_self ..))
  · rfl

end Items

section Lines

variable {n : Nat} {known : List Text} {s t u : Text} {inst : Instr} {name : Text} {ps : List Piece}

theorem scanPiece_label (h : parseLabel s = some (name,t)) : scanPiece s = some (.label name,t) := by
  rw [scanPiece,h]

theorem scanPiece_item (hl : parseLabel s = none) (hi : parseInstr s = some (inst,u)) :
    scanPiece s = (scanArg inst u).bind fun (arg,t) => some (.item inst arg,t) := by
  rw [scanPiece,hl,hi]
  rfl

theorem scanLoop_trailer (ht : t ∈ trailer) (n : Nat) : scanLoop n t = some [] := by
  cases n with
  | zero => rfl
  | succ n => exact if_pos (atEnd_iff.mpr ht)

theorem scanLoop_step (he : atEnd (skipBlank s) = false) :
    scanLoop (n + 1) s = (scanPiece (skipBlank s)).bind fun (p,s) => (scanLoop n s).map (p :: ·) :=
  if_neg (by simp [he])

theorem parseLine_ok {k : Nat} {s : Parse} : (∃ s', parseLine k s = .ok s') ↔
    ∃ ps, scanLine s.line.y64asm = some ps ∧ Fresh (names s.symtab) ps ∧
      divides s.vmaddr ps = true := by
  cases hs : scanLine s.line.y64asm with
  | none =>
    obtain ⟨e,he⟩ := parseLine_of_none (k := k) hs
    rw [he]
    refine iff_of_false ?_ ?_
    · rintro ⟨_,h⟩
      cases h
    · rintro ⟨_,h,-⟩
      cases h
  | some ps =>
    rw [parseLine_of_scan hs,applyAll_ok]
    exact ⟨fun h => ⟨ps,rfl,h⟩,fun ⟨_,h,hf⟩ => Option.some.inj h ▸ hf⟩

end Lines

end Asm
