import IcsLabs.Asm.Accept
import IcsLabs.Lib.Lexeme

namespace Asm
open Libc Spelling Lexeme

-- a register right after ( is the one token that is read without its blanks skipped
def spelling : Spelling Char where
  blank := isBlank
  word := isWord
  sticky := fun w => w == ['(']
  apart := fun _ => isWord_of_blank

def lexDelim (c : Char) : Lexer Char :=
  spelling.lexeme fun s => (parseDelim c s).map fun t => ((),t)

def lexReg : Lexer Char := spelling.lexeme parseReg
def lexSymbol : Lexer Char := spelling.lexeme parseSymbol
def lexDigit : Lexer Char := spelling.lexeme parseDigit
def lexInstr : Lexer Char := spelling.lexeme parseInstr

def lexImm : Lexer Char := fun s =>
  if starts (· == '$') (skipBlank s) = true then seq (lexDelim '$') lexDigit s else lexSymbol s

def lexBase : Lexer Char := seq (lexDelim '(') (seq lexReg (lexDelim ')'))

def lexMem : Lexer Char := fun s =>
  if starts isDigit (skipBlank s) = true then seq lexDigit lexBase s else lexBase s

def lexData : Lexer Char := fun s =>
  if starts isDigit (skipBlank s) = true then lexDigit s else lexSymbol s

def lexArg (inst : Instr) : Lexer Char :=
  let itype := high inst.code
  if itype = iNop ∨ itype = iHalt ∨ itype = iRet then fun s => some ([],s)
  else if itype = iIrmovq then seq lexImm (seq (lexDelim ',') lexReg)
  else if itype = iRmmovq then seq lexReg (seq (lexDelim ',') lexMem)
  else if itype = iMrmovq then seq lexMem (seq (lexDelim ',') lexReg)
  else if itype = iRrmovq ∨ itype = iAlu then seq lexReg (seq (lexDelim ',') lexReg)
  else if itype = iJmp ∨ itype = iCall then lexImm
  else if itype = iPushq ∨ itype = iPopq then lexReg
  else if low inst.code = dData then lexData
  else lexDigit

def lexPiece : Lexer Char := fun s =>
  match parseLabel s with
  | some _ => seq lexSymbol (lexDelim ':') s
  | none => (parseInstr s).bind fun r => seq lexInstr (lexArg r.1) s

-- the tokens that parse_line reads, and the blanks and the comment after them
def lexLoop : Nat → Lexer Char
  | 0, s => some ([],s)
  | n + 1, s => if atEnd (skipBlank s) = true then some ([],s) else seq lexPiece (lexLoop n) s

def lexLine (s : Text) : Option (List (Lexeme Char) × Text) := lexLoop (s.length + 1) s

example : lexLine "L : mrmovq -8 (%rbp),%rax # x".toList = some
    ([⟨[],['L']⟩,⟨[' '],[':']⟩,⟨[' '],"mrmovq".toList⟩,⟨[' '],"-8".toList⟩,⟨[' '],['(']⟩,
      ⟨[],"%rbp".toList⟩,⟨[],[')']⟩,⟨[],[',']⟩,⟨[],"%rax".toList⟩]," # x".toList) := by
  decide +kernel

abbrev Anything (_ : Text) : Prop := True

section Tokens

variable {α β : Type} {s t t' b w : Text} {c : Char} {inst : Instr}

theorem parseDelim_split (h : parseDelim c s = some t) : skipBlank s = c :: t := by
  rw [parseDelim] at h
  split at h
  · rename_i hst
    obtain ⟨d,u,hu,hd⟩ := starts_iff.mp hst
    obtain rfl := eq_of_beq hd
    rw [hu] at h ⊢
    exact congrArg _ (Option.some.inj h)
  · cases h

theorem skipBlank_gap (hb : ∀ c ∈ b, isBlank c = true) (hc : isBlank c = false) :
    skipBlank (b ++ c :: t) = c :: t := dropWhile_gap hb hc

theorem parseDelim_gap (hb : ∀ c ∈ b, isBlank c = true) (hc : isBlank c = false) :
    parseDelim c (b ++ c :: t) = some t := by
  rw [parseDelim,skipBlank_gap hb hc]
  exact if_pos (beq_self_eq_true c)

theorem isToken_word (hne : w ≠ []) (hw : ∀ c ∈ w, isWord c = true) : spelling.IsToken w := by
  obtain ⟨c,cs,rfl⟩ := List.exists_cons_of_ne_nil hne
  obtain ⟨hc,hcs⟩ := List.forall_mem_cons.mp hw
  refine ⟨c,cs,rfl,?_,fun _ => hcs⟩
  exact Bool.eq_false_iff.mpr fun hb => by simp [isWord_of_blank hb] at hc

theorem isToken_mark (hb : isBlank c = false) (hw : isWord c = false) :
    spelling.IsToken (c :: w) := by
  refine ⟨c,w,rfl,hb,fun h => ?_⟩
  change isWord c = true at h
  rw [hw] at h
  cases h

theorem sticky_word (hw : ∀ c ∈ w, isWord c = true) : spelling.sticky w = false := by
  refine beq_eq_false_iff_ne.mpr ?_
  rintro rfl
  exact absurd (hw '(' List.mem_cons_self) (by decide)

theorem free_delim (hb : isBlank c = false) (hw : isWord c = false) :
    spelling.Free Anything false (c == '(') (fun s => (parseDelim c s).map fun t => ((),t))
      (lexDelim c) := by
  refine Free.token fun s _ t h _ => ?_
  obtain ⟨t,hd,he⟩ := Option.map_eq_some_iff.mp h
  cases he
  refine ⟨[c],parseDelim_split hd,isToken_mark hb hw,?_,fun b t' hbl _ => ?_⟩
  · exact Bool.eq_iff_iff.mpr (by simp [spelling])
  · rw [List.singleton_append,parseDelim_gap hbl hb]
    rfl

theorem free_delim_seq {clean : Text → Prop} {o : Bool} {p : Text → Option (α × Text)} {l : Lexer Char}
    (hb : isBlank c = false) (hw : isWord c = false) (hp : spelling.Free clean (c == '(') o p l) :
    spelling.Free clean false o (fun s => (parseDelim c s).bind p) (seq (lexDelim c) l) := by
  have h := Free.seq (free_delim hb hw) (fun _ => hp) fun _ _ _ _ => trivial
  simpa only [Option.bind_map,Function.comp_def] using h

theorem register_token {g : Reg} (hg : g ∈ regTable) :
    spelling.IsToken g.name ∧ spelling.sticky g.name = false := by
  obtain ⟨cs,he⟩ := register_percent ⟨g,hg,rfl,rfl⟩
  rw [he]
  exact ⟨isToken_mark (by decide) (by decide),by simp [spelling]⟩

theorem skipBlank_register {g : Reg} (hg : g ∈ regTable) (hb : ∀ c ∈ b, isBlank c = true) :
    skipBlank (b ++ (g.name ++ t)) = g.name ++ t := by
  obtain ⟨cs,he⟩ := register_percent ⟨g,hg,rfl,rfl⟩
  rw [he]
  exact skipBlank_gap hb (by decide)

theorem free_reg : spelling.Free Anything false false parseReg lexReg := by
  refine Free.token fun s r t h _ => ?_
  rw [parseReg_eq] at h
  obtain ⟨g,hg,rfl,hs⟩ := plainReg_split h
  refine ⟨g.name,hs.symm,(register_token hg).1,(register_token hg).2,fun b t' hb _ => ?_⟩
  rw [parseReg_eq,skipBlank_register hg hb]
  exact findRegister_name hg t'

theorem memReg_gap {g : Reg} (hg : g ∈ regTable) (hb : ∀ c ∈ b, isBlank c = true) :
    memReg (b ++ (g.name ++ t)) = if b.isEmpty = true then some (g.id,t) else none := by
  obtain ⟨cs,he⟩ := register_percent ⟨g,hg,rfl,rfl⟩
  cases b with
  | nil =>
    have hst : starts (· == '%') (g.name ++ t) = true := by
      rw [he]
      rfl
    have hskip := @skipBlank_register t [] g hg hb
    rw [List.nil_append] at hskip ⊢
    rw [memReg,if_pos hst,parseReg_eq,hskip]
    exact findRegister_name hg t
  | cons c b =>
    refine if_neg fun hst => ?_
    obtain rfl : c = '%' := eq_of_beq hst
    exact absurd (hb '%' List.mem_cons_self) (by decide)

theorem free_memReg : spelling.Free Anything true false memReg lexReg := by
  have h : spelling.Free Anything true false memReg (spelling.lexeme memReg) := by
    refine Free.token fun s r t h _ => ?_
    rw [memReg] at h
    split at h
    · rw [parseReg_eq] at h
      obtain ⟨g,hg,rfl,hs⟩ := plainReg_split h
      refine ⟨g.name,hs.symm,(register_token hg).1,(register_token hg).2,fun b t' hb _ => ?_⟩
      rw [memReg_gap hg hb,Bool.not_true,Bool.false_or]
    · cases h
  intro s r t hr ht
  obtain ⟨gs,hl,hread⟩ := h s r t hr ht
  refine ⟨gs,?_,hread⟩
  rw [← hl,lexReg,lexeme,lexeme,hr]
  rw [memReg] at hr
  split at hr
  · rw [hr]
  · cases hr

theorem breaks_follow (hf : spelling.Follow (afterWord s) t') : Breaks t' := fun c hc => by
  refine Bool.eq_false_iff.mpr fun hcw => ?_
  obtain ⟨r,rfl⟩ := List.head?_eq_some_iff.mp hc
  have hword : ∀ d ∈ [c], isWord d = true := List.forall_mem_singleton.mpr hcw
  obtain ⟨z,hz⟩ := hf.ahead ⟨r,rfl⟩ hword
  have hnot := List.head?_dropWhile_not isWord s
  change _ = s.dropWhile isWord at hz
  rw [← hz] at hnot
  exact Bool.false_ne_true (hnot.symm.trans hcw)

theorem free_symbol : spelling.Free Anything false false parseSymbol lexSymbol := by
  refine Free.token fun s name t h _ => ?_
  simp only [parseSymbol] at h
  split at h
  · rename_i hst
    cases h
    have hsym := word_symbol hst
    have hword := symbol_word hsym
    have hne : word (skipBlank s) ≠ [] := by
      obtain ⟨c,cs,he,-⟩ := hsym
      simp [he]
    refine ⟨word (skipBlank s),(word_afterWord _).symm,isToken_word hne hword,sticky_word hword,
      fun b t' hb hf => ?_⟩
    obtain ⟨h1,h2⟩ := word_append hword (breaks_follow (hf (ends_word hword hne)))
    have hskip : skipBlank (b ++ (word (skipBlank s) ++ t')) = word (skipBlank s) ++ t' :=
      skipBlank_append hb (solid_symbol.head hsym)
    rw [parseSymbol,hskip,h1,h2]
    exact if_pos (starts_symbol hsym t')
  · cases h

theorem parseDigit_split {v : Word} (h : parseDigit s = some (v,t)) (ht : Clean t) :
    ∃ w ∈ numeral, w ++ t = skipBlank s ∧ strtoull (w ++ t) = (v,t) := by
  simp only [parseDigit] at h
  split at h
  · rename_i hst
    have hread := Option.some.inj h
    have hrest : (strtoull (skipBlank s)).2 = t := congrArg Prod.snd hread
    obtain ⟨w,hw,hs⟩ := strtoull_clean hst (hrest ▸ ht)
    rw [hrest] at hs
    exact ⟨w,hw,hs,hs ▸ hread⟩
  · cases h

theorem free_digit : spelling.Free Clean false false parseDigit lexDigit := by
  refine Free.token fun s v t h ht => ?_
  obtain ⟨w,hw,hs,hread⟩ := parseDigit_split h ht
  have hne : w ≠ [] := by
    obtain ⟨c,cs,rfl,-⟩ := numeral_head hw
    exact List.cons_ne_nil c cs
  refine ⟨w,hs.symm,isToken_word hne (numeral_word hw),sticky_word (numeral_word hw),
    fun b t' hb hf => ?_⟩
  have hfol := hf (ends_word (numeral_word hw) hne)
  have hskip : skipBlank (b ++ (w ++ t')) = w ++ t' := skipBlank_append hb (solid_numeral.head hw)
  have hread' := @strtoull_follow t w t' hw (congrArg Prod.snd hread) fun x hx hall =>
    hfol.ahead hx fun c hc => isWord_of_digitOf (hall c hc)
  rw [parseDigit,hskip]
  refine (if_pos (starts_numeral hw t')).trans ?_
  rw [hread',hread]
  rfl

end Tokens

section Operands

variable {α β : Type} {s t : Text} {c : Char}

theorem clean_of_skip (h : Clean (skipBlank s)) : Clean s := by
  cases s with
  | nil => exact h
  | cons d s =>
    rintro _ ⟨⟩
    cases hd : isBlank d with
    | true =>
      have : d = ' ' ∨ d = '\t' := by simpa [isBlank] using hd
      rcases this with rfl | rfl <;> decide
    | false =>
      rw [skipBlank,List.dropWhile_cons_of_neg (by simp [hd])] at h
      exact h d rfl

theorem clean_of_delim {q : Text → Option β} {r : β} (hc : c ≠ '-' ∧ c ≠ '+')
    (h : (parseDelim c s).bind q = some r) : Clean s := by
  obtain ⟨t,hd,-⟩ := Option.bind_eq_some_iff.mp h
  refine clean_of_skip ?_
  rw [parseDelim_split hd]
  rintro _ ⟨⟩
  exact hc

theorem free_clean {p : Text → Option (α × Text)} {l : Lexer Char}
    (hp : spelling.Free Anything false false p l) : spelling.Free Clean false false p l :=
  hp.mono fun _ _ => trivial

theorem free_imm : spelling.Free Clean false false parseImm lexImm := by
  rw [funext parseImm_eq]
  exact Free.or (f := fun o => o.any (· == '$')) (free_delim_seq (by decide) (by decide) free_digit.map)
    (free_clean free_symbol.map) (fun _ _ _ => seq_ne_nil fun _ _ _ => lexeme_ne_nil) fun _ _ _ => lexeme_ne_nil

theorem free_data : spelling.Free Clean false false parseData lexData := by
  rw [funext parseData_eq]
  exact Free.or (f := fun o => o.any isDigit) free_digit.map (free_clean free_symbol.map)
    (fun _ _ _ => lexeme_ne_nil) fun _ _ _ => lexeme_ne_nil

theorem free_close (a : α) : spelling.Free Clean false false
    (fun s => (parseDelim ')' s).bind fun s => some (a,s)) (lexDelim ')') := by
  have h := (free_delim (c := ')') (by decide) (by decide)).map (f := fun _ => a)
  simp only [Option.bind_map,Function.comp_def] at h
  exact free_clean h

theorem free_base (disp : Option Word) :
    spelling.Free Clean false false (baseBy memReg disp) lexBase := by
  have hreg := Free.seq free_memReg (fun regid => free_close (disp,regid)) fun _ _ _ _ => trivial
  exact free_delim_seq (by decide) (by decide) hreg

theorem free_mem : spelling.Free Clean false false parseMem lexMem := by
  rw [show parseMem = memBy memReg from funext parseMem_eq]
  refine Free.or (f := fun o => o.any isDigit)
    (Free.seq free_digit (fun v => free_base (some v)) fun _ _ _ h => ?_) (free_base none)
    (fun _ _ _ => seq_ne_nil fun _ _ _ => lexeme_ne_nil)
    fun _ _ _ => seq_ne_nil fun _ _ _ => lexeme_ne_nil
  exact clean_of_delim (by decide) h

theorem free_arg (inst : Instr) : spelling.Free Clean false false (scanArg inst) (lexArg inst) := by
  have hcomma {β : Type} {M : Text → Option β} {s : Text} {r : β}
      (h : (parseDelim ',' s).bind M = some r) : Clean s := clean_of_delim (by decide) h
  have hreg (f : Nat → Arg) : spelling.Free Clean false false (fun s => (parseDelim ',' s).bind fun s =>
      (parseReg s).bind fun r => some (f r.1,r.2)) (seq (lexDelim ',') lexReg) :=
    free_delim_seq (by decide) (by decide) (free_clean free_reg.map)
  have hmem (f : Option Word × Nat → Arg) : spelling.Free Clean false false (fun s =>
      (parseDelim ',' s).bind fun s => (parseMem s).bind fun m => some (f m.1,m.2))
      (seq (lexDelim ',') lexMem) :=
    free_delim_seq (by decide) (by decide) free_mem.map
  unfold scanArg lexArg
  refine .ite (.one _) (.ite ?_ (.ite ?_ (.ite ?_ (.ite ?_ (.ite ?_ (.ite ?_ (.ite ?_ ?_)))))))
  · exact .seq free_imm (fun imm => hreg _) fun _ _ _ h => hcomma h
  · exact .seq free_reg (fun rA => hmem fun m => .regMem rA m.1 m.2) fun _ _ _ _ => trivial
  · exact .seq free_mem (fun m => hreg (Arg.memReg m.1 m.2)) fun _ _ _ h => hcomma h
  · exact .seq free_reg (fun rA => hreg _) fun _ _ _ _ => trivial
  · exact free_imm.map
  · exact free_clean free_reg.map
  · exact free_data.map
  · rw [← ite_self (c := low inst.code = dPos) lexDigit]
    exact .ite free_digit.map free_digit.map

end Operands

section Pieces

variable {s t u u' b b' name : Text} {inst : Instr} {arg : Arg} {p : Piece}
  {gs : List (Lexeme Char)}

theorem instr_shape : ∀ i ∈ instrSet, i.name.getLast?.any isWord = true ∧
    (starts isLetter i.name = true → i.name.all isWord = true) ∧
    (i.name.head?.any isWord = true → i.name.all isWord = true) ∧
    spelling.sticky i.name = false ∧ i.name.head?.all (fun d => d != '-' && d != '+') = true := by
  decide +kernel

theorem instr_word (hi : inst ∈ instrSet) :
    spelling.IsToken inst.name ∧ spelling.ends inst.name = true ∧
      (starts isLetter inst.name = true → ∀ c ∈ inst.name, isWord c = true) := by
  obtain ⟨hlast,hletter,hword,-,-⟩ := instr_shape inst hi
  obtain ⟨c,cs,he,hc⟩ := starts_iff.mp (instr_spec inst hi).2.1
  have hb : isBlank c = false := by
    rw [Bool.and_eq_true] at hc
    simpa using hc.1
  refine ⟨⟨c,cs,he,hb,fun h d hd => ?_⟩,hlast,fun h c hc => List.all_eq_true.mp (hletter h) c hc⟩
  rw [he] at hword
  exact List.all_eq_true.mp (hword h) d (List.mem_cons_of_mem c hd)

theorem sticky_instr (hi : inst ∈ instrSet) : spelling.sticky inst.name = false :=
  (instr_shape inst hi).2.2.2.1

theorem skipBlank_instr (hi : inst ∈ instrSet) (hb : ∀ c ∈ b, isBlank c = true) :
    skipBlank (b ++ (inst.name ++ u)) = inst.name ++ u := by
  rw [← skipBlank_item hi u,skipBlank,skipBlank,List.dropWhile_append_of_pos hb,
    List.dropWhile_idempotent]

theorem findInstr_follow (h : findInstr (inst.name ++ u) = some inst) (hf : spelling.Follow u u') :
    findInstr (inst.name ++ u') = some inst := by
  obtain ⟨hi,hrest⟩ := findInstr_name.mp h
  refine findInstr_name.mpr ⟨hi,fun j hj r hr hru => ?_⟩
  have hword : ∀ c ∈ r, isWord c = true := fun c hc => by
    have hal := instr_rest hi hj hr c hc
    simp only [isAlnum,Bool.or_eq_true,decide_eq_true_eq] at hal
    rcases hal with hal | hal
    · simp [isWord,hal]
    · simp [isWord,isDigit,hal]
  exact hrest j hj r hr (hf.ahead hru hword)

theorem parseLabel_skip (s : Text) : parseLabel (skipBlank s) = parseLabel s := by
  rw [parseLabel,parseLabel,skipBlank_skipBlank]

theorem parseInstr_skip (s : Text) : parseInstr (skipBlank s) = parseInstr s := by
  rw [parseInstr,parseInstr,skipBlank_skipBlank]

theorem scanPiece_skip (s : Text) : scanPiece (skipBlank s) = scanPiece s := by
  rw [scanPiece,scanPiece,parseLabel_skip,parseInstr_skip]

theorem parseLabel_none (hi : inst ∈ instrSet) : parseLabel (inst.name ++ u) = none ↔
    (starts isLetter inst.name = true → spelling.past u ≠ some ':') := by
  have hst : starts isLetter (inst.name ++ u) = starts isLetter inst.name := by
    obtain ⟨c,cs,he,-⟩ := starts_iff.mp (instr_spec inst hi).2.1
    rw [he]
    rfl
  rw [parseLabel,skipBlank_item hi,hst]
  cases hl : starts isLetter inst.name with
  | false => simp
  | true =>
    have hpast : (skipBlank (afterWord (inst.name ++ u))).head? = spelling.past u :=
      past_word (S := spelling) ((instr_word hi).2.2 hl)
    rw [← hpast,if_pos rfl,Option.map_eq_none_iff,parseDelim]
    cases skipBlank (afterWord (inst.name ++ u)) with
    | nil => simp [starts]
    | cons c t => simp [starts_cons]

theorem parseLabel_follow (hi : inst ∈ instrSet) (h : parseLabel (inst.name ++ u) = none)
    (hf : spelling.Follow u u') : parseLabel (inst.name ++ u') = none := by
  rw [parseLabel_none hi] at h ⊢
  exact fun hl hc => h hl (hf.past ':' (by decide) hc)

theorem reading_item (hl : parseLabel s = none) (hi : parseInstr s = some (inst,u))
    (h : spelling.Reading false false (scanArg inst) u arg t gs) :
    spelling.Reading false false scanPiece s (.item inst arg) t
      (⟨s.takeWhile isBlank,inst.name⟩ :: gs) := by
  obtain ⟨hm,hs⟩ := parseInstr_split hi
  refine ⟨?_,List.forall_mem_cons.mpr ⟨⟨takeWhile_blanks s,(instr_word hm).1⟩,h.lexed⟩,
    fun w _ => h.final inst.name (sticky_instr hm),fun w gs' t' hw hk hf => ?_⟩
  · simp only [spread]
    rw [h.split,hs,blanks_skipBlank]
  · cases hk with
    | @cons _ _ _ b' _ gs' hb _ hk =>
      have hfol := hk.follow h.lexed hf (instr_word hm).2.1
      rw [h.split] at hfol
      have hfind : findInstr (inst.name ++ u) = some inst := by
        obtain ⟨j,hj,he⟩ := Option.map_eq_some_iff.mp hi
        cases he
        rw [hs]
        exact hj
      rw [← parseLabel_skip,← hs] at hl
      have hl' := parseLabel_follow hm hl hfol
      have hi' : parseInstr (inst.name ++ spread gs' t') = some (inst,spread gs' t') := by
        rw [parseInstr,skipBlank_item hm,findInstr_follow hfind hfol,Option.map_some,
          ← instr_len hm,List.drop_left]
      simp only [spread,tight,hw,Bool.not_false,Bool.true_or,Bool.true_and]
      rw [← scanPiece_skip,skipBlank_instr hm hb,scanPiece_item hl' hi',
        h.free inst.name gs' t' (sticky_instr hm) hk hf]
      split <;> rfl

theorem lexPiece_label (h : parseLabel s = some (name,t)) (hn : name ∈ symbol) (hb : b ∈ blanks)
    (hs : name ++ (b ++ ':' :: t) = skipBlank s) :
    lexPiece s = some ([⟨s.takeWhile isBlank,name⟩,⟨b,[':']⟩],t) := by
  have hcolon : skipBlank (b ++ ':' :: t) = [':'] ++ t := skipBlank_gap hb (by decide)
  have hgap : (b ++ ':' :: t).takeWhile spelling.blank = b := by
    change (b ++ ':' :: t).takeWhile isBlank = b
    rw [List.takeWhile_append_of_pos hb]
    exact List.append_nil b
  have hstop : Breaks (b ++ ':' :: t) := fun c hc => by
    cases b with
    | nil =>
      cases hc
      decide
    | cons d b =>
      cases hc
      exact isWord_of_blank (hb c List.mem_cons_self)
  have hsym : parseSymbol s = some (name,b ++ ':' :: t) := by
    obtain ⟨h1,h2⟩ := word_append (symbol_word hn) hstop
    rw [parseSymbol,← hs,h1,h2]
    exact if_pos (starts_symbol hn _)
  have hdelim : ((parseDelim ':' (b ++ ':' :: t)).map fun t => ((),t)) = some ((),t) := by
    rw [parseDelim_gap hb (by decide)]
    rfl
  have hl1 : lexSymbol s = some ([⟨s.takeWhile isBlank,name⟩],b ++ ':' :: t) :=
    lexeme_eq hsym hs.symm
  have hl2 : lexDelim ':' (b ++ ':' :: t) = some ([⟨b,[':']⟩],t) := by
    have h := lexeme_eq (S := spelling) (p := fun s => (parseDelim ':' s).map fun t => ((),t))
      hdelim hcolon
    rwa [hgap] at h
  rw [lexPiece,h]
  dsimp only
  rw [seq,hl1,Option.bind_some,hl2]
  rfl

theorem lexPiece_item (hl : parseLabel s = none) (hi : parseInstr s = some (inst,u)) :
    lexPiece s = (lexArg inst u).map fun r => (⟨s.takeWhile isBlank,inst.name⟩ :: r.1,r.2) := by
  have hlex : lexInstr s = some ([⟨s.takeWhile isBlank,inst.name⟩],u) :=
    lexeme_eq hi (parseInstr_split hi).2.symm
  rw [lexPiece,hl]
  dsimp only
  rw [hi,Option.bind_some,seq,hlex,Option.bind_some]
  rfl

theorem reading_label (hn : name ∈ symbol) (hb : b ∈ blanks)
    (hs : name ++ (b ++ ':' :: t) = skipBlank s) :
    spelling.Reading false false scanPiece s (.label name) t
      [⟨s.takeWhile isBlank,name⟩,⟨b,[':']⟩] := by
  have hword := symbol_word hn
  have hne : name ≠ [] := by
    obtain ⟨c,cs,rfl,-⟩ := hn
    exact List.cons_ne_nil c cs
  refine ⟨?_,?_,fun _ _ => show spelling.sticky [':'] = false by decide,fun w gs' t' hw hk hf => ?_⟩
  · simp only [spread]
    rw [List.singleton_append,hs,blanks_skipBlank]
  · refine List.forall_mem_cons.mpr ⟨⟨takeWhile_blanks s,isToken_word hne hword⟩,fun g hg => ?_⟩
    obtain rfl := List.mem_singleton.mp hg
    exact ⟨hb,isToken_mark (by decide) (by decide)⟩
  · cases hk with
    | cons hb1 _ hk =>
      cases hk with
      | cons hb2 _ hk =>
        cases hk
        simp only [spread,tight,hw,sticky_word hword,Bool.not_false,Bool.true_or,Bool.and_true,if_true]
        rw [← scanPiece_skip,skipBlank_append hb1 (solid_symbol.head hn)]
        exact scanPiece_label (parseLabel_append hn hb2)

theorem free_piece (h : scanPiece s = some (p,t)) (ht : Clean t) : ∃ gs, lexPiece s = some (gs,t) ∧
    gs ≠ [] ∧ spelling.Reading false false scanPiece s p t gs := by
  cases hl : parseLabel s with
  | some l =>
    obtain ⟨name,u⟩ := l
    rw [scanPiece_label hl] at h
    cases h
    obtain ⟨hn,b,hb,hs⟩ := parseLabel_split hl
    exact ⟨_,lexPiece_label hl hn hb hs,List.cons_ne_nil _ _,reading_label hn hb hs⟩
  | none =>
    cases hi : parseInstr s with
    | none =>
      rw [scanPiece,hl,hi] at h
      cases h
    | some r =>
      obtain ⟨inst,u⟩ := r
      rw [scanPiece_item hl hi] at h
      obtain ⟨⟨arg,t⟩,ha,he⟩ := Option.bind_eq_some_iff.mp h
      cases he
      obtain ⟨gs,hg,hr⟩ := free_arg inst u arg t ha ht
      refine ⟨_,?_,List.cons_ne_nil _ _,reading_item hl hi hr⟩
      rw [lexPiece_item hl hi,hg]
      rfl

end Pieces

section Lines

variable {n k : Nat} {s tail : Text} {ps : List Piece}

theorem atEnd_first (s : Text) : atEnd (skipBlank s) = (spelling.first s).all (· == '#') := by
  change atEnd (skipBlank s) = (skipBlank s).head?.all _
  cases skipBlank s with
  | nil => rfl
  | cons c t => simp [atEnd,starts_cons]

theorem findInstr_sign {c : Char} {r : Text} (hsign : c = '-' ∨ c = '+') :
    findInstr (c :: r) = none := by
  refine findInstr_none.mpr fun i hi ⟨t,hs⟩ => ?_
  obtain ⟨d,ds,hd,-⟩ := starts_iff.mp (instr_spec i hi).2.1
  have hall := (instr_shape i hi).2.2.2.2
  rw [hd] at hs hall
  obtain rfl : d = c := (List.cons.inj hs).1
  rcases hsign with rfl | rfl <;> simp at hall

theorem scanPiece_sign {c : Char} {r : Text} (hsign : c = '-' ∨ c = '+') :
    scanPiece (c :: r) = none := by
  have hl : parseLabel (c :: r) = none := by rcases hsign with rfl | rfl <;> rfl
  have hskip : skipBlank (c :: r) = c :: r := by rcases hsign with rfl | rfl <;> rfl
  rw [scanPiece,hl,parseInstr,hskip,findInstr_sign hsign]
  rfl

theorem clean_of_scan (h : scanLoop n s = some ps) (hn : 0 < n) : Clean s := by
  obtain ⟨n,rfl⟩ : ∃ m, n = m + 1 := ⟨n - 1,by omega⟩
  intro c hc
  obtain ⟨r,rfl⟩ := List.head?_eq_some_iff.mp hc
  refine not_or.mp fun hsign => ?_
  have he : atEnd (skipBlank (c :: r)) = false := by
    rcases hsign with rfl | rfl <;> rfl
  rw [scanLoop_step he,scanPiece_skip,scanPiece_sign hsign] at h
  cases h

theorem scanLoop_turn {p : Piece} {t t' u : Text} {gs gs' : List (Lexeme Char)}
    (hr : spelling.Reading false false scanPiece s p t gs) (hne : gs ≠ [])
    (he : atEnd (skipBlank s) = false) (hu : spelling.sticky u = false)
    (hk : spelling.Respaced u gs gs')
    (hf : spelling.ends (final u gs) = true → spelling.Follow t t') :
    scanLoop (n + 1) (spread gs' t') =
      if spelling.tight u gs' = true then (scanLoop n t').map (p :: ·) else none := by
  have hp := hr.free u gs' t' hu hk hf
  have he' : atEnd (skipBlank (spread gs' t')) = false := by
    rw [atEnd_first,hk.first hr.lexed hne,hr.split,← atEnd_first,he]
  rw [scanLoop_step he',scanPiece_skip,hp]
  split <;> rfl

theorem scanLoop_free (h : scanLoop n s = some ps) (hn : s.length < n) :
    ∃ gs tail, lexLoop n s = some (gs,tail) ∧ spread gs tail = s ∧ (∀ g ∈ gs, spelling.Lexed g) ∧
      ∀ u gs' m, spelling.sticky u = false → spelling.Respaced u gs gs' →
        (spread gs' tail).length < m →
          scanLoop m (spread gs' tail) = if spelling.tight u gs' = true then some ps else none := by
  induction n generalizing s ps with
  | zero => omega
  | succ n ih =>
    cases he : atEnd (skipBlank s) with
    | true =>
      rw [scanLoop,if_pos he] at h
      cases h
      refine ⟨[],s,if_pos he,rfl,by simp,fun u gs' m _ hk hm => ?_⟩
      cases hk
      obtain ⟨m,rfl⟩ : ∃ j, m = j + 1 := ⟨m - 1,by omega⟩
      exact if_pos he
    | false =>
      rw [scanLoop_step he,scanPiece_skip] at h
      obtain ⟨⟨p,t⟩,hp,h⟩ := Option.bind_eq_some_iff.mp h
      obtain ⟨qs,hq,rfl⟩ := Option.map_eq_some_iff.mp h
      have hlen := (scanPiece_spec hp).2.1
      obtain ⟨hs,tail,hlex,hsplit,hlexed,hfree⟩ := ih hq (by omega)
      obtain ⟨gs,hg,hne,hr⟩ := free_piece hp (clean_of_scan hq (by omega))
      refine ⟨gs ++ hs,tail,?_,?_,?_,fun u ks m hu hk hm => ?_⟩
      · rw [lexLoop,if_neg (by simp [he]),seq,hg,Option.bind_some,hlex]
        rfl
      · rw [spread_append,hsplit,hr.split]
      · exact fun g hg => (List.mem_append.mp hg).elim (hr.lexed g) (hlexed g)
      · obtain ⟨gs',hs',rfl,h1,h2⟩ := hk.append
        rw [spread_append] at hm ⊢
        have hfol := h2.follow hlexed (fun _ => Follow.refl tail)
        rw [hsplit] at hfol
        obtain ⟨m,rfl⟩ : ∃ j, m = j + 1 := ⟨m - 1,by omega⟩
        rw [scanLoop_turn hr hne he hu h1 hfol,tight_append,h1.final]
        cases ht : spelling.tight u gs' with
        | false => rfl
        | true =>
          have hp' := hr.free u gs' (spread hs' tail) hu h1 hfol
          rw [if_pos ht] at hp'
          have hlt := (scanPiece_spec hp').2.1
          rw [if_pos rfl,hfree _ hs' m (hr.final u hu) h2 (by omega),Bool.true_and]
          split <;> rfl

end Lines

section Lines

variable {k : Nat} {s r : Parse} {p : Piece} {ps : List Piece} {text : Text}

def Parse.reline (s : Parse) (text : Text) : Parse := { s with line.y64asm := text }

theorem apply_reline : p.apply k (s.reline text) = (p.apply k s).map fun r => r.reline text := by
  cases p with
  | label name =>
    simp only [Piece.apply]
    change (orErr _ (addSymbol name s.vmaddr s.symtab)).map _ = _
    cases addSymbol name s.vmaddr s.symtab <;> rfl
  | item inst arg =>
    cases arg with
    | align v =>
      simp only [Piece.apply,Arg.apply]
      change (quot ((s.place inst).vmaddr + v - 1) v).map _ = _
      cases quot ((s.place inst).vmaddr + v - 1) v <;> rfl
    | immReg imm b | dest imm | data imm => cases imm <;> rfl
    | none | reg a | regs a b | regMem a disp b | memReg disp b a | pos v => rfl

theorem applyAll_reline : applyAll k ps (s.reline text) =
    (applyAll k ps s).map fun r => r.reline text := by
  induction ps generalizing s with
  | nil => rfl
  | cons p ps ih =>
    rw [applyAll_cons,applyAll_cons,apply_reline]
    cases p.apply k s with
    | error e => rfl
    | ok u => exact ih

end Lines

theorem blanks_free {k : Nat} {s r : Parse} (h : parseLine k s = .ok r) :
    ∃ gs tail, lexLine s.line.y64asm = some (gs,tail) ∧ spread gs tail = s.line.y64asm ∧
      ∀ gs', spelling.Respaced [] gs gs' →
        (parseLine k (s.reline (spread gs' tail)) = .ok (r.reline (spread gs' tail)) ↔
          spelling.tight [] gs' = true) := by
  cases hs : scanLine s.line.y64asm with
  | none =>
    obtain ⟨e,he⟩ := parseLine_of_none (k := k) hs
    rw [he] at h
    cases h
  | some ps =>
    obtain ⟨gs,tail,hlex,hsplit,-,hfree⟩ := scanLoop_free hs (Nat.lt_succ_self _)
    refine ⟨gs,tail,hlex,hsplit,fun gs' hk => ?_⟩
    have hscan : scanLine (spread gs' tail) = _ := hfree [] gs' _ rfl hk (Nat.lt_succ_self _)
    rw [parseLine_of_scan hs] at h
    cases ht : spelling.tight [] gs' with
    | false =>
      rw [ht,if_neg Bool.false_ne_true] at hscan
      obtain ⟨e,he⟩ := parseLine_of_none (k := k) (s := s.reline (spread gs' tail)) hscan
      rw [he]
      exact iff_of_false (fun hr => by cases hr) Bool.false_ne_true
    | true =>
      rw [ht,if_pos rfl] at hscan
      rw [parseLine_of_scan (s := s.reline (spread gs' tail)) hscan,applyAll_reline,h]
      exact iff_of_true rfl rfl

theorem parse_of_vmaddr {k : Nat} {s : Parse} {v : Word}
    (h : (parseLine k s).map Parse.vmaddr = .ok v) : ∃ r, parseLine k s = .ok r := by
  cases hr : parseLine k s with
  | ok r => exact ⟨r,rfl⟩
  | error e =>
    rw [hr] at h
    cases h

theorem blanks_free_fails : ∃ r gs gs', parseLine 0 (.start 0 "mrmovq (%rbp),%rax") = .ok r ∧
    lexLine "mrmovq (%rbp),%rax".toList = some (gs,[]) ∧ spelling.Respaced [] gs gs' ∧
      spread gs' [] = "mrmovq ( %rbp),%rax".toList ∧
        ¬ ∃ r', parseLine 0 (.start 0 "mrmovq ( %rbp),%rax") = .ok r' := by
  have hok : (parseLine 0 (.start 0 "mrmovq (%rbp),%rax")).map Parse.vmaddr = .ok 10 := by
    decide +kernel
  have herr : (parseLine 0 (.start 0 "mrmovq ( %rbp),%rax")).map Parse.vmaddr =
      .error (.err "Invalid MEM") := by decide +kernel
  obtain ⟨r,hr⟩ := parse_of_vmaddr hok
  refine ⟨r,[⟨[],"mrmovq".toList⟩,⟨[' '],['(']⟩,⟨[],"%rbp".toList⟩,⟨[],[')']⟩,⟨[],[',']⟩,
    ⟨[],"%rax".toList⟩],[⟨[],"mrmovq".toList⟩,⟨[' '],['(']⟩,⟨[' '],"%rbp".toList⟩,⟨[],[')']⟩,
    ⟨[],[',']⟩,⟨[],"%rax".toList⟩],hr,by decide +kernel,?_,by decide +kernel,?_⟩
  · have hnil : ∀ c ∈ [], spelling.blank c = true := List.forall_mem_nil _
    have hone : ∀ c ∈ [' '], spelling.blank c = true := List.forall_mem_singleton.mpr rfl
    exact .cons hnil (by decide) (.cons hone (by decide) (.cons hone (by decide)
      (.cons hnil (by decide) (.cons hnil (by decide) (.cons hnil (by decide) .nil)))))
  · rintro ⟨r',hr'⟩
    rw [hr'] at herr
    cases herr

theorem blanks_free_label : ∃ r, parseLine 0 (.start 0 "L : mrmovq -8 (%rbp),%rax # x") = .ok r ∧
    ∃ gs tail, lexLine (Parse.start 0 "L : mrmovq -8 (%rbp),%rax # x").line.y64asm = some (gs,tail) ∧
      spread gs tail = (Parse.start 0 "L : mrmovq -8 (%rbp),%rax # x").line.y64asm ∧
        ∀ gs', spelling.Respaced [] gs gs' →
          (parseLine 0 ((Parse.start 0 "L : mrmovq -8 (%rbp),%rax # x").reline (spread gs' tail)) =
            .ok (r.reline (spread gs' tail)) ↔ spelling.tight [] gs' = true) := by
  have hok : (parseLine 0 (.start 0 "L : mrmovq -8 (%rbp),%rax # x")).map Parse.vmaddr = .ok 10 := by
    decide +kernel
  obtain ⟨r,hr⟩ := parse_of_vmaddr hok
  exact ⟨r,hr,blanks_free hr⟩

end Asm
