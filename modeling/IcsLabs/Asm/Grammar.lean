import IcsLabs.Asm.Source
import IcsLabs.Lib.Numeral
import Mathlib.Data.List.DropRight

namespace Asm
open Libc

-- a character of a symbol or of a number
def isWord (c : Char) : Bool := isLetter c || isDigit c

def blanks : Language Char := allOf isBlank

def tok (L : Language Char) : Language Char := blanks * L

def symbol : Language Char := {w | ∃ c cs, w = c :: cs ∧ isLetter c = true ∧ cs ∈ allOf isWord}

def named (name : Text) : Language Char := {w | w ∈ symbol ∧ w = name}

def number (v : Word) : Language Char := {w | w ∈ numeral ∧ (strtoull w).1 = v}

def register (a : Nat) : Language Char := {w | ∃ r ∈ regTable, r.id = a ∧ r.name = w}

def delim (c : Char) : Language Char := tok {[c]}

def Operand.immText : Operand → Language Char
  | .digit v => delim '$' * tok (number v)
  | .symbol name => tok (named name)

def Operand.dataText : Operand → Language Char
  | .digit v => tok (number v)
  | .symbol name => tok (named name)

def baseOf (reg : Nat → Language Char) (b : Nat) : Language Char := delim '(' * (reg b * delim ')')

def memBase (reg : Nat → Language Char) : Nat → Language Char := baseOf fun b => tok (reg b)

-- as parse_mem has it, with no blank before the register
def closeBase (reg : Nat → Language Char) : Nat → Language Char := baseOf reg

def memText (base : Nat → Language Char) (disp : Option Word) (b : Nat) : Language Char :=
  match disp with
  | none => base b
  | some v => tok (number v) * base b

-- how operands are written
def Arg.text (reg base : Nat → Language Char) : Arg → Language Char
  | .none => 1
  | .reg a => tok (reg a)
  | .regs a b => tok (reg a) * (delim ',' * tok (reg b))
  | .immReg imm b => imm.immText * (delim ',' * tok (reg b))
  | .regMem a disp b => tok (reg a) * (delim ',' * memText base disp b)
  | .memReg disp b a => memText base disp b * (delim ',' * tok (reg a))
  | .dest imm => imm.immText
  | .data d => d.dataText
  | .pos v | .align v => tok (number v)

-- the operands each kind of item requires
def operands (inst : Instr) : Language Char :=
  {w | ∃ arg : Arg, arg.Fits inst ∧ w ∈ arg.text register (memBase register)}

-- no ( that a blank follows
def gapless : Text → Bool
  | [] => true
  | c :: s => !(c == '(' && starts isBlank s) && gapless s

-- no word goes on into t
def Breaks (t : Text) : Prop := ∀ c ∈ t.head?, isWord c = false

-- a sign that no number takes in would be read again
def Clean (t : Text) : Prop := ∀ c ∈ t.head?, c ≠ '-' ∧ c ≠ '+'

def image {α β : Type} (f : α → β) (L : α → Language Char) (b : β) : Language Char :=
  {w | ∃ a, f a = b ∧ w ∈ L a}

def union {α : Type} (L : α → Language Char) : Language Char := {w | ∃ a, w ∈ L a}

-- no longer word of L starts w ++ t
def LongestIn (L : Language Char) (w t : Text) : Prop := ∀ x, x <+: t → w ++ x ∈ L → x = []

-- a parser that reads a where the longest word is one of L a; what is no word ends a word
structure Reads {α : Type} (p : Text → Option (α × Text)) (L : α → Language Char) : Prop where
  iff : ∀ {s t a}, Clean t → (p s = some (a,t) ↔ ∃ w ∈ L a, w ++ t = s ∧ LongestIn (union L) w t)
  stops : ∀ {a w t}, w ∈ L a → Breaks t → LongestIn (union L) w t

-- words that start with a character outside every word and number
def Firm (L : Language Char) : Prop := ∀ w ∈ L, ∃ c cs, w = c :: cs ∧ isWord c = false

def Solid (L : Language Char) : Prop := ∀ w ∈ L, ∃ c cs, w = c :: cs ∧ isBlank c = false

section Words

variable {L M : Language Char} {s t u v w : Text} {c : Char} {p : Char → Bool}

theorem starts_cons : starts p (c :: s) = p c := rfl

theorem starts_append (hL : ∃ d cs, w = d :: cs ∧ p d = true) : starts p (w ++ t) = true := by
  obtain ⟨d,cs,rfl,h⟩ := hL
  exact h

theorem starts_iff : starts p s = true ↔ ∃ c t, s = c :: t ∧ p c = true := by
  cases s with
  | nil => simp [starts]
  | cons c s => simp [starts_cons]

theorem skipBlank_append (hw : w ∈ blanks) (hs : ∀ c ∈ s.head?, isBlank c = false) :
    skipBlank (w ++ s) = s := by
  rw [skipBlank,List.dropWhile_append_of_pos hw]
  cases s with
  | nil => rfl
  | cons c s => exact List.dropWhile_cons_of_neg (by simp [hs c rfl])

theorem takeWhile_blanks (s : Text) : s.takeWhile isBlank ∈ blanks :=
  fun _ hc => List.mem_takeWhile_imp hc

theorem blanks_skipBlank (s : Text) : s.takeWhile isBlank ++ skipBlank s = s :=
  List.takeWhile_append_dropWhile

theorem skipBlank_skipBlank (s : Text) : skipBlank (skipBlank s) = skipBlank s :=
  List.dropWhile_idempotent _ _

theorem Solid.head (hL : Solid L) (hw : w ∈ L) : ∀ c ∈ (w ++ t).head?, isBlank c = false := by
  obtain ⟨c,cs,rfl,hc⟩ := hL w hw
  rintro _ ⟨⟩
  exact hc

theorem mem_tok (hL : Solid L) : (∃ w ∈ tok L, w ++ t = s) ↔ ∃ w ∈ L, w ++ t = skipBlank s := by
  constructor
  · rintro ⟨w,hw,rfl⟩
    obtain ⟨b,hb,u,hu,rfl⟩ := Language.mem_mul.mp hw
    refine ⟨u,hu,?_⟩
    rw [List.append_assoc,skipBlank_append hb (hL.head hu)]
  · rintro ⟨w,hw,he⟩
    refine ⟨_,Language.mem_mul.mpr ⟨_,takeWhile_blanks s,w,hw,rfl⟩,?_⟩
    rw [List.append_assoc,he,blanks_skipBlank]

theorem Firm.breaks (hL : Firm L) (hw : w ∈ L) (t : Text) : Breaks (w ++ t) := by
  obtain ⟨c,cs,rfl,hc⟩ := hL w hw
  rintro _ ⟨⟩
  exact hc

theorem Firm.mul (hL : Firm L) : Firm (L * M) := by
  intro w hw
  obtain ⟨u,hu,v,-,rfl⟩ := Language.mem_mul.mp hw
  obtain ⟨c,cs,rfl,hc⟩ := hL u hu
  exact ⟨c,cs ++ v,rfl,hc⟩

theorem isWord_of_blank (hc : isBlank c = true) : isWord c = false := by
  have : c = ' ' ∨ c = '\t' := by simpa [isBlank] using hc
  rcases this with rfl | rfl <;> decide

theorem Firm.tok (hL : Firm L) : Firm (tok L) := by
  intro w hw
  obtain ⟨b,hb,v,hv,rfl⟩ := Language.mem_mul.mp hw
  cases b with
  | nil => exact hL v hv
  | cons c b => exact ⟨c,b ++ v,rfl,isWord_of_blank (hb c (List.mem_cons_self ..))⟩

theorem firm_delim (hc : isWord c = false) : Firm (delim c) :=
  Firm.tok fun _ hw => ⟨c,[],hw,hc⟩

theorem Breaks.clean (h : Breaks t) : Clean t := fun c hc => by
  have hw := h c hc
  constructor <;> rintro rfl <;> cases hw

theorem Breaks.of_prefix (h : Breaks t) (hx : v <+: t) : Breaks v := by
  obtain ⟨u,rfl⟩ := hx
  cases v with
  | nil => rintro _ ⟨⟩
  | cons c v => exact h

theorem register_start : ∀ r ∈ regTable, starts (· == '%') r.name = true := by
  decide +kernel

theorem register_percent {a : Nat} (hw : w ∈ register a) : ∃ cs, w = '%' :: cs := by
  obtain ⟨r,hr,-,rfl⟩ := hw
  obtain ⟨c,cs,he,hc⟩ := starts_iff.mp (register_start r hr)
  exact ⟨cs,by rw [he,eq_of_beq hc]⟩

theorem solid_register (a : Nat) : Solid (register a) := fun _ hw => by
  obtain ⟨cs,rfl⟩ := register_percent hw
  exact ⟨'%',cs,rfl,by decide⟩

theorem register_lt {a : Nat} (hw : w ∈ register a) : a < regNone := by
  obtain ⟨r,hr,rfl,-⟩ := hw
  have hall : ∀ r ∈ regTable, r.id < regNone := by decide
  exact hall r hr

theorem isBlank_of_word (hc : isWord c = true) : isBlank c = false :=
  Bool.eq_false_iff.mpr fun hb => by simp [isWord_of_blank hb] at hc

theorem symbol_word (hw : w ∈ symbol) : w ∈ allOf isWord := by
  obtain ⟨c,cs,rfl,hc,hcs⟩ := hw
  exact List.forall_mem_cons.mpr ⟨by simp [isWord,hc],hcs⟩

theorem solid_symbol : Solid symbol := by
  rintro _ ⟨c,cs,rfl,hc,-⟩
  exact ⟨c,cs,rfl,isBlank_of_word (by simp [isWord,hc])⟩

theorem isWord_of_digitOf (h : digitOf c < 36) : isWord c = true := by
  rcases digitOf_cases c with h' | h' | h' | h'
  · omega
  · simp [isWord,isDigit,h']
  · simp [isWord,isLetter,h']
  · simp [isWord,isLetter,h']

theorem numeral_word (hw : w ∈ numeral) : w ∈ allOf isWord := fun c hc => by
  rcases numeral_letters hw c hc with rfl | rfl | h
  · decide
  · decide
  · exact isWord_of_digitOf h

theorem isDigit_cases (h : c = '-' ∨ c = '+' ∨ digitOf c < 10) : isDigit c = true := by
  simp only [isDigit,decide_eq_true_eq]
  rcases h with h | h | h
  · exact Or.inr (Or.inl h)
  · exact Or.inr (Or.inr h)
  · exact Or.inl (digitOf_decimal h)

theorem starts_numeral (hw : w ∈ numeral) (t : Text) : starts isDigit (w ++ t) = true := by
  obtain ⟨c,cs,rfl,hc⟩ := numeral_head hw
  exact isDigit_cases hc

theorem solid_numeral : Solid numeral := fun w hw => by
  obtain ⟨c,cs,rfl,hc⟩ := numeral_head hw
  exact ⟨c,cs,rfl,isBlank_of_word (by simp [isWord,isDigit_cases hc])⟩

theorem takeWhile_word (s : Text) : s.takeWhile isWord ∈ allOf isWord :=
  fun _ hc => List.mem_takeWhile_imp hc

theorem word_append (hw : w ∈ allOf isWord) (ht : Breaks t) : word (w ++ t) = w ∧
    afterWord (w ++ t) = t := by
  have hs : t.takeWhile isWord = [] ∧ t.dropWhile isWord = t := by
    cases t with
    | nil => exact ⟨rfl,rfl⟩
    | cons c t => exact ⟨List.takeWhile_cons_of_neg (by simp [ht c rfl]),
        List.dropWhile_cons_of_neg (by simp [ht c rfl])⟩
  have h1 : (w ++ t).takeWhile isWord = w := by
    rw [List.takeWhile_append_of_pos hw,hs.1,List.append_nil]
  have h2 : (w ++ t).dropWhile isWord = t := by
    rw [List.dropWhile_append_of_pos hw,hs.2]
  exact ⟨h1,h2⟩

theorem word_afterWord (s : Text) : word s ++ afterWord s = s := List.takeWhile_append_dropWhile

theorem breaks_afterWord (s : Text) : Breaks (afterWord s) := fun c hc => by
  have hnot := List.head?_dropWhile_not isWord s
  have he : (s.dropWhile isWord).head? = some c := hc
  rw [he] at hnot
  exact hnot

theorem word_symbol (h : starts isLetter s = true) : word s ∈ symbol := by
  obtain ⟨c,u,rfl,hc⟩ := starts_iff.mp h
  have hw : isWord c = true := by simp [isWord,hc]
  exact ⟨c,u.takeWhile isWord,List.takeWhile_cons_of_pos hw,hc,takeWhile_word u⟩

theorem starts_symbol (hw : w ∈ symbol) (t : Text) : starts isLetter (w ++ t) = true := by
  obtain ⟨c,cs,rfl,hc,-⟩ := hw
  exact hc

theorem Breaks.nil_of_word (ht : Breaks t) (hv : v <+: t) (hw : u ++ v ∈ allOf isWord) : v = [] := by
  cases v with
  | nil => rfl
  | cons c v =>
    have hc := ht.of_prefix hv c rfl
    rw [hw c (List.mem_append_right _ List.mem_cons_self)] at hc
    cases hc

end Words

section Readers

variable {α β γ : Type} {p : Text → Option (α × Text)} {L : α → Language Char}
  {s t u v w : Text} {c : Char} {a b : α}

theorem Reads.exact (h : ∀ s t a, p s = some (a,t) ↔ ∃ w ∈ L a, w ++ t = s) : Reads p L := by
  have hl {a w} (hw : w ∈ L a) (t : Text) : LongestIn (union L) w t := by
    rintro x - ⟨b,hx⟩
    have h1 := (h (w ++ x) x a).mpr ⟨w,hw,rfl⟩
    have h2 := (h (w ++ x) [] b).mpr ⟨w ++ x,hx,List.append_nil _⟩
    exact congrArg Prod.snd (Option.some.inj (h1.symm.trans h2))
  refine ⟨fun _ => (h _ _ _).trans (exists_congr fun w => and_congr_right fun hw => ?_),
    fun hw _ => hl hw _⟩
  exact (and_iff_left (hl hw _)).symm

theorem Reads.congr {L' : α → Language Char} (hp : Reads p L) (h : ∀ a w, w ∈ L a ↔ w ∈ L' a) :
    Reads p L' := by
  obtain rfl : L = L' := funext fun a => Set.ext (h a)
  exact hp

theorem Reads.of_word (hp : Reads p L) (hw : w ∈ L a) (ht : Breaks t) : p (w ++ t) = some (a,t) :=
  (hp.iff ht.clean).mpr ⟨w,hw,rfl,hp.stops hw ht⟩

theorem Reads.same (hp : Reads p L) (hu : u ∈ L a) (hv : v ∈ L b) (hs : Breaks s) (ht : Breaks t)
    (he : u ++ s = v ++ t) : a = b ∧ u = v ∧ s = t := by
  have h1 := hp.of_word hu hs
  rw [he,hp.of_word hv ht] at h1
  cases h1
  exact ⟨rfl,List.append_cancel_right he,rfl⟩

theorem Reads.map {f : α → β} (hp : Reads p L) :
    Reads (fun s => (p s).bind fun (a,s) => some (f a,s)) (image f L) := by
  have hu : union (image f L) = union L := Set.ext fun w =>
    ⟨fun ⟨_,a,_,hw⟩ => ⟨a,hw⟩,fun ⟨a,hw⟩ => ⟨f a,a,rfl,hw⟩⟩
  refine ⟨fun {s t b} ht => ?_,fun {b w t} hw ht => ?_⟩
  · rw [hu]
    constructor
    · intro h
      obtain ⟨⟨a,s'⟩,ha,he⟩ := Option.bind_eq_some_iff.mp h
      cases he
      obtain ⟨w,hw,he,hl⟩ := (hp.iff ht).mp ha
      exact ⟨w,⟨a,rfl,hw⟩,he,hl⟩
    · rintro ⟨w,⟨a,rfl,hw⟩,he,hl⟩
      exact Option.bind_eq_some_iff.mpr ⟨_,(hp.iff ht).mpr ⟨w,hw,he,hl⟩,rfl⟩
  · obtain ⟨a,-,hw⟩ := hw
    rw [hu]
    exact hp.stops hw ht

theorem Reads.seq {q : α → Text → Option (β × Text)} {M : α → β → Language Char} (hp : Reads p L)
    (hq : ∀ a, Reads (q a) (M a)) (hM : ∀ a b, Firm (M a b)) :
    Reads (fun s => (p s).bind fun (a,s) => q a s) (fun b => {w | ∃ a, w ∈ L a * M a b}) := by
  have hlong {a b u v t} (hu : u ∈ L a) (hv : v ∈ M a b) (hl : LongestIn (union (M a)) v t) :
      LongestIn (union fun b => {w | ∃ a, w ∈ L a * M a b}) (u ++ v) t := by
    rintro x hx ⟨b',a',hm⟩
    obtain ⟨u',hu',v',hv',he⟩ := Language.mem_mul.mp hm
    have hbr' : Breaks v' := List.append_nil v' ▸ (hM a' b').breaks hv' []
    rw [List.append_assoc] at he
    obtain ⟨rfl,rfl,rfl⟩ := hp.same hu' hu hbr' ((hM a b).breaks hv x) he
    exact hl x hx ⟨b',hv'⟩
  refine ⟨fun {s t b} ht => ?_,fun {b w t} hw ht => ?_⟩
  · constructor
    · intro h
      obtain ⟨⟨a,u⟩,ha,hb⟩ := Option.bind_eq_some_iff.mp h
      obtain ⟨v,hv,rfl,hlv⟩ := ((hq a).iff ht).mp hb
      obtain ⟨w,hw,rfl,-⟩ := (hp.iff ((hM a b).breaks hv t).clean).mp ha
      exact ⟨w ++ v,⟨a,Language.mem_mul.mpr ⟨w,hw,v,hv,rfl⟩⟩,List.append_assoc w v t,hlong hw hv hlv⟩
    · rintro ⟨_,⟨a,hm⟩,rfl,hl⟩
      obtain ⟨w,hw,v,hv,rfl⟩ := Language.mem_mul.mp hm
      refine Option.bind_eq_some_iff.mpr ⟨(a,v ++ t),?_,((hq a).iff ht).mpr ⟨v,hv,rfl,?_⟩⟩
      · rw [List.append_assoc]
        exact hp.of_word hw ((hM a b).breaks hv t)
      · rintro x hx ⟨b',hvx⟩
        refine hl x hx ⟨b',a,?_⟩
        rw [List.append_assoc]
        exact Language.mem_mul.mpr ⟨w,hw,v ++ x,hvx,rfl⟩
  · obtain ⟨a,hm⟩ := hw
    obtain ⟨w,hw,v,hv,rfl⟩ := Language.mem_mul.mp hm
    exact hlong hw hv ((hq a).stops hv ht)

theorem Reads.or {q : Text → Option (α × Text)} {M : α → Language Char} {test : Text → Bool}
    (hp : Reads p L) (hq : Reads q M) (hL : ∀ a, ∀ w ∈ L a, ∀ t, test (w ++ t) = true)
    (hM : ∀ a, ∀ w ∈ M a, ∀ t, test (w ++ t) = false) :
    Reads (fun s => if test s = true then p s else q s) (fun a => L a + M a) := by
  have hleft {a w t} (hw : w ∈ L a) (hl : LongestIn (union L) w t) :
      LongestIn (union fun a => L a + M a) w t := by
    rintro x hx ⟨b,hb | hb⟩
    · exact hl x hx ⟨b,hb⟩
    · have h := hM b _ hb []
      rw [List.append_nil,hL a w hw x] at h
      cases h
  have hright {a w t} (hw : w ∈ M a) (hl : LongestIn (union M) w t) :
      LongestIn (union fun a => L a + M a) w t := by
    rintro x hx ⟨b,hb | hb⟩
    · have h := hL b _ hb []
      rw [List.append_nil,hM a w hw x] at h
      cases h
    · exact hl x hx ⟨b,hb⟩
  refine ⟨fun {s t a} ht => ?_,fun {a w t} hw ht => ?_⟩
  · constructor
    · intro h
      split at h
      · obtain ⟨w,hw,he,hl⟩ := (hp.iff ht).mp h
        exact ⟨w,Or.inl hw,he,hleft hw hl⟩
      · obtain ⟨w,hw,he,hl⟩ := (hq.iff ht).mp h
        exact ⟨w,Or.inr hw,he,hright hw hl⟩
    · rintro ⟨w,hw | hw,rfl,hl⟩
      · rw [if_pos (hL a w hw t)]
        exact (hp.iff ht).mpr ⟨w,hw,rfl,fun x hx ⟨b,hb⟩ => hl x hx ⟨b,Or.inl hb⟩⟩
      · rw [if_neg (by simp [hM a w hw t])]
        exact (hq.iff ht).mpr ⟨w,hw,rfl,fun x hx ⟨b,hb⟩ => hl x hx ⟨b,Or.inr hb⟩⟩
  · rcases hw with hw | hw
    · exact hleft hw (hp.stops hw ht)
    · exact hright hw (hq.stops hw ht)

theorem longest_tok (hL : ∀ a, Solid (L a)) {b w : Text} (hb : b ∈ blanks) (hw : w ∈ L a) :
    LongestIn (union fun a => tok (L a)) (b ++ w) t ↔ LongestIn (union L) w t := by
  refine forall_congr' fun x => imp_congr_right fun _ => imp_congr_left ?_
  rw [List.append_assoc]
  constructor
  · rintro ⟨a',hm⟩
    obtain ⟨b',hb',w',hw',he⟩ := Language.mem_mul.mp hm
    have hs := congrArg skipBlank he
    have hs' := (skipBlank_append hb' ((hL a').head (t := []) hw'))
    rw [List.append_nil] at hs'
    rw [hs',skipBlank_append hb ((hL a).head hw)] at hs
    exact ⟨a',hs ▸ hw'⟩
  · rintro ⟨a',hw'⟩
    exact ⟨a',Language.mem_mul.mpr ⟨b,hb,w ++ x,hw',rfl⟩⟩

theorem Reads.tok {q : Text → Option (α × Text)} (hL : ∀ a, Solid (L a)) (hp : Reads p L)
    (hq : ∀ s, q s = p (skipBlank s)) : Reads q (fun a => tok (L a)) := by
  refine ⟨fun {s t a} ht => ?_,fun {a w t} hw ht => ?_⟩
  · rw [hq,hp.iff ht]
    constructor
    · rintro ⟨w,hw,he,hl⟩
      refine ⟨_,Language.mem_mul.mpr ⟨_,takeWhile_blanks s,w,hw,rfl⟩,?_,?_⟩
      · rw [List.append_assoc,he,blanks_skipBlank]
      · exact (longest_tok hL (takeWhile_blanks s) hw).mpr hl
    · rintro ⟨_,hm,rfl,hl⟩
      obtain ⟨b,hb,w,hw,rfl⟩ := Language.mem_mul.mp hm
      refine ⟨w,hw,?_,(longest_tok hL hb hw).mp hl⟩
      rw [List.append_assoc,skipBlank_append hb ((hL a).head hw)]
  · obtain ⟨b,hb,v,hv,rfl⟩ := Language.mem_mul.mp hw
    exact (longest_tok hL hb hv).mpr (hp.stops hv ht)

theorem parseDelim_iff (hc : isBlank c = false) :
    parseDelim c s = some t ↔ ∃ w ∈ delim c, w ++ t = s := by
  have hs : Solid {[c]} := fun w hw => ⟨c,[],hw,hc⟩
  rw [delim,mem_tok hs,parseDelim]
  constructor
  · intro h
    split at h
    · rename_i hst
      obtain ⟨d,u,hu,hd⟩ := starts_iff.mp hst
      obtain rfl := Option.some.inj h
      refine ⟨[c],rfl,?_⟩
      rw [hu,← eq_of_beq hd]
      rfl
    · cases h
  · rintro ⟨_,rfl,he⟩
    rw [← he]
    exact if_pos (beq_self_eq_true c)

theorem Reads.delim (hc : isBlank c = false) (hp : Reads p L) :
    Reads (fun s => (parseDelim c s).bind p) (fun a => delim c * L a) := by
  have hlong {u v t : Text} (hu : u ∈ Asm.delim c) (hl : LongestIn (union L) v t) :
      LongestIn (union fun a => Asm.delim c * L a) (u ++ v) t := by
    rintro x hx ⟨b,hm⟩
    obtain ⟨u',hu',v',hv',he⟩ := Language.mem_mul.mp hm
    rw [List.append_assoc] at he
    have h1 : parseDelim c (u ++ (v ++ x)) = some (v ++ x) := (parseDelim_iff hc).mpr ⟨u,hu,rfl⟩
    rw [(parseDelim_iff hc).mpr ⟨u',hu',he⟩] at h1
    exact hl x hx ⟨b,Option.some.inj h1 ▸ hv'⟩
  refine ⟨fun {s t a} ht => ?_,fun {a w t} hw ht => ?_⟩
  · constructor
    · intro h
      obtain ⟨u,hd,ha⟩ := Option.bind_eq_some_iff.mp h
      obtain ⟨v,hv,rfl,hl⟩ := (hp.iff ht).mp ha
      obtain ⟨w,hw,rfl⟩ := (parseDelim_iff hc).mp hd
      exact ⟨w ++ v,Language.mem_mul.mpr ⟨w,hw,v,hv,rfl⟩,List.append_assoc w v t,hlong hw hl⟩
    · rintro ⟨_,hm,rfl,hl⟩
      obtain ⟨w,hw,v,hv,rfl⟩ := Language.mem_mul.mp hm
      refine Option.bind_eq_some_iff.mpr ⟨v ++ t,(parseDelim_iff hc).mpr ⟨w,hw,?_⟩,
        (hp.iff ht).mpr ⟨v,hv,rfl,fun x hx ⟨b,hvx⟩ => hl x hx ⟨b,?_⟩⟩⟩
      · rw [List.append_assoc]
      · rw [List.append_assoc]
        exact Language.mem_mul.mpr ⟨w,hw,v ++ x,hvx,rfl⟩
  · obtain ⟨u,hu,v,hv,rfl⟩ := Language.mem_mul.mp hw
    exact hlong hu (hp.stops hv ht)

theorem mul_image {M : β → Language Char} {f : β → γ} {d : γ} {N : Language Char} :
    w ∈ N * image f M d ↔ ∃ b, f b = d ∧ w ∈ N * M b := by
  constructor
  · intro h
    obtain ⟨u,hu,v,⟨b,hb,hv⟩,rfl⟩ := Language.mem_mul.mp h
    exact ⟨b,hb,Language.mem_mul.mpr ⟨u,hu,v,hv,rfl⟩⟩
  · rintro ⟨b,hb,h⟩
    obtain ⟨u,hu,v,hv,rfl⟩ := Language.mem_mul.mp h
    exact Language.mem_mul.mpr ⟨u,hu,v,⟨b,hb,hv⟩,rfl⟩

theorem Reads.comma {q : Text → Option (β × Text)} {M : β → Language Char} (f : α → β → γ)
    (hp : Reads p L) (hq : Reads q M) :
    Reads (fun s => (p s).bind fun (a,s) => (parseDelim ',' s).bind fun s =>
        (q s).bind fun (b,s) => some (f a b,s))
      (fun c => {w | ∃ a b, f a b = c ∧ w ∈ L a * (Asm.delim ',' * M b)}) := by
  refine (Reads.seq hp (fun a => Reads.delim (by decide) (hq.map (f := f a))) fun a c =>
    Firm.mul (firm_delim (by decide))).congr fun c w => exists_congr fun a => ?_
  constructor
  · intro h
    obtain ⟨u,hu,v,hv,rfl⟩ := Language.mem_mul.mp h
    obtain ⟨b,hb,hv⟩ := mul_image.mp hv
    exact ⟨b,hb,Language.mem_mul.mpr ⟨u,hu,v,hv,rfl⟩⟩
  · rintro ⟨b,hb,h⟩
    obtain ⟨u,hu,v,hv,rfl⟩ := Language.mem_mul.mp h
    exact Language.mem_mul.mpr ⟨u,hu,v,mul_image.mpr ⟨b,hb,hv⟩,rfl⟩

-- the register after its blanks
def plainReg (s : Text) : Option (Nat × Text) := (findRegister s).map fun r => (r.id,s.drop r.namelen)

theorem findRegister_name {r : Reg} (hr : r ∈ regTable) (t : Text) :
    plainReg (r.name ++ t) = some (r.id,t) := by
  rw [plainReg,findRegister_append hr,Option.map_some,← register_len hr,List.drop_left]

theorem plainReg_split {r : Nat} (h : plainReg s = some (r,t)) :
    ∃ g ∈ regTable, g.id = r ∧ g.name ++ t = s := by
  obtain ⟨g,hf,he⟩ := Option.map_eq_some_iff.mp h
  cases he
  obtain ⟨hg,hs⟩ := findRegister_split hf
  exact ⟨g,hg,rfl,hs⟩

theorem plainReg_iff {r : Nat} : plainReg s = some (r,t) ↔ ∃ w ∈ register r, w ++ t = s := by
  constructor
  · intro h
    obtain ⟨g,hg,hr,hs⟩ := plainReg_split h
    exact ⟨g.name,⟨g,hg,hr,rfl⟩,hs⟩
  · rintro ⟨_,⟨g,hg,rfl,rfl⟩,rfl⟩
    exact findRegister_name hg t

theorem parseReg_eq (s : Text) : parseReg s = plainReg (skipBlank s) := by
  rw [parseReg]
  split
  · rfl
  · rename_i hst
    symm
    rw [plainReg,Option.map_eq_none_iff]
    by_contra hne
    obtain ⟨r,hf⟩ := Option.ne_none_iff_exists'.mp hne
    obtain ⟨hr,hs⟩ := findRegister_split hf
    refine hst ?_
    rw [← hs]
    exact starts_append (starts_iff.mp (register_start r hr))

theorem parseReg_iff {r : Nat} : parseReg s = some (r,t) ↔ ∃ w ∈ tok (register r), w ++ t = s := by
  rw [parseReg_eq,plainReg_iff,mem_tok (solid_register r)]

theorem reads_parseReg : Reads parseReg (fun a => tok (register a)) :=
  .exact fun _ _ _ => parseReg_iff

-- !IS_REG(*ptr) || parse_reg(ptr, regid) == PARSE_ERR
def memReg (s : Text) : Option (Nat × Text) := if starts (· == '%') s = true then parseReg s else none

theorem memReg_eq (s : Text) : memReg s = plainReg s := by
  rw [memReg]
  split
  · rename_i h
    obtain ⟨c,u,rfl,hc⟩ := starts_iff.mp h
    obtain rfl := eq_of_beq hc
    exact parseReg_eq _
  · rename_i h
    cases hr : plainReg s with
    | none => rfl
    | some r =>
      obtain ⟨w,hw,rfl⟩ := plainReg_iff.mp hr
      obtain ⟨cs,rfl⟩ := register_percent hw
      exact absurd rfl h

theorem reads_parseSymbol : Reads parseSymbol (fun name => tok (named name)) := by
  refine Reads.tok (p := fun s => if starts isLetter s = true then some (word s,afterWord s) else none)
    (fun name w hw => solid_symbol w hw.1) ⟨fun {s t a} ht => ?_,fun {a w t} hw ht => ?_⟩ fun _ => rfl
  · constructor
    · intro h
      split at h
      · rename_i hst
        cases h
        refine ⟨word s,⟨word_symbol hst,rfl⟩,word_afterWord s,?_⟩
        rintro x hx ⟨b,hb,-⟩
        exact (breaks_afterWord s).nil_of_word hx (symbol_word hb)
      · cases h
    · rintro ⟨w,⟨hw,rfl⟩,rfl,hl⟩
      have hb : Breaks t := fun c hc => Bool.eq_false_iff.mpr fun hcw => by
        obtain ⟨r,rfl⟩ := List.head?_eq_some_iff.mp hc
        obtain ⟨d,ds,rfl,hd,hds⟩ := hw
        have hsym : d :: ds ++ [c] ∈ symbol := ⟨d,ds ++ [c],rfl,hd,fun e he => by
          rcases List.mem_append.mp he with he | he
          · exact hds e he
          · rwa [List.mem_singleton.mp he]⟩
        cases hl [c] ⟨r,rfl⟩ ⟨_,hsym,rfl⟩
      obtain ⟨h1,h2⟩ := word_append (symbol_word hw) hb
      rw [if_pos (starts_symbol hw t),h1,h2]
  · rintro x hx ⟨b,hb,-⟩
    exact ht.nil_of_word hx (symbol_word hb)

theorem isSpace_of_isDigit (h : isDigit c = true) : isSpace c.toNat = false := by
  simp only [isDigit,decide_eq_true_eq] at h
  rcases h with h | rfl | rfl
  · refine isSpace_of_digit ?_
    have hle : c.toNat ≤ '9'.toNat := h.2
    have h9 : '9'.toNat = 57 := rfl
    rw [digitOf,if_pos h]
    omega
  · rfl
  · rfl

theorem digit_space (h : starts isDigit s = true) : ∀ c ∈ s.head?, isSpace c.toNat = false := by
  obtain ⟨c,u,rfl,hc⟩ := starts_iff.mp h
  rintro _ ⟨⟩
  exact isSpace_of_isDigit hc

theorem strtoull_clean (hst : starts isDigit s = true) (ht : Clean (strtoull s).2) :
    ∃ w ∈ numeral, w ++ (strtoull s).2 = s := by
  refine (strtoull_split (digit_space hst)).resolve_left fun heq => ?_
  obtain ⟨c,u,hu,hc⟩ := starts_iff.mp hst
  have hsign := ht c (by rw [heq,hu]; rfl)
  have hnum : [c] ∈ numeral := by
    simp only [isDigit,decide_eq_true_eq,hsign.1,hsign.2,or_false] at hc
    exact decimal_numeral hc
  have hlen := strtoull_length hnum u
  rw [List.singleton_append,← hu,heq,hu,List.length_cons] at hlen
  omega

theorem number_alone (hw : w ∈ numeral) (ht : (strtoull (w ++ t)).2 = t) :
    (strtoull w).1 = (strtoull (w ++ t)).1 := by
  have h := @strtoull_follow t w [] hw ht fun x hx _ => by
    rw [List.prefix_nil.mp hx]
    exact List.nil_prefix
  rw [List.append_nil] at h
  rw [h]

theorem strtoull_longest (hw : w ∈ numeral) (hl : LongestIn numeral w t) :
    (strtoull (w ++ t)).2 = t := by
  have hlen := strtoull_length hw t
  rcases strtoull_split (digit_space (starts_numeral hw t)) with heq | ⟨n,hn,heq⟩
  · obtain ⟨c,cs,rfl,-⟩ := numeral_head hw
    rw [heq,List.length_append,List.length_cons] at hlen
    omega
  · rcases List.append_eq_append_iff.mp heq with ⟨z,-,ht⟩ | ⟨z,hz,ht⟩
    · rw [ht,List.length_append] at hlen
      obtain rfl := List.eq_nil_of_length_eq_zero (l := z) (by omega)
      exact ht
    · obtain rfl := hl z ⟨_,ht.symm⟩ (hz ▸ hn)
      exact ht.symm

theorem reads_parseDigit : Reads parseDigit (fun v => tok (number v)) := by
  refine Reads.tok (p := fun s => if starts isDigit s = true then some (strtoull s) else none)
    (fun v w hw => solid_numeral w hw.1) ⟨fun {s t v} ht => ?_,fun {v w t} hw ht => ?_⟩ fun _ => rfl
  · constructor
    · intro h
      split at h
      · rename_i hst
        have hread := Option.some.inj h
        have hrest : (strtoull s).2 = t := congrArg Prod.snd hread
        obtain ⟨w,hw,hs⟩ := strtoull_clean hst (hrest ▸ ht)
        rw [hrest] at hs
        rw [← hs] at hread
        refine ⟨w,⟨hw,?_⟩,hs,?_⟩
        · rw [number_alone hw (by rw [hread]),hread]
        · rintro x ⟨y,rfl⟩ ⟨_,hx,-⟩
          have hlen := strtoull_length hx y
          rw [List.append_assoc,hread,List.length_append] at hlen
          exact List.length_eq_zero_iff.mp (by omega)
      · cases h
    · rintro ⟨w,⟨hw,rfl⟩,rfl,hl⟩
      have hrest : (strtoull (w ++ t)).2 = t := strtoull_longest hw fun x hx hn =>
        hl x hx ⟨_,hn,rfl⟩
      rw [if_pos (starts_numeral hw t),number_alone hw hrest]
      exact congrArg some (Prod.ext rfl hrest)
  · rintro x hx ⟨b,hb,-⟩
    exact ht.nil_of_word hx (numeral_word hb)

theorem starts_tok {L : Language Char} {q : Char → Bool} (hL : Solid L)
    (hq : ∀ w ∈ L, ∀ t, starts q (w ++ t) = true) :
    ∀ w ∈ tok L, ∀ t, starts q (skipBlank (w ++ t)) = true := by
  intro w hw t
  obtain ⟨v,hv,he⟩ := (mem_tok hL).mp ⟨w,hw,rfl⟩
  rw [← he]
  exact hq v hv t

theorem starts_not {q r : Char → Bool} (h : starts q s = true) (hqr : ∀ c, q c = true → r c = false) :
    starts r s = false := by
  obtain ⟨c,u,rfl,hc⟩ := starts_iff.mp h
  exact hqr c hc

theorem digit_not_letter (h : isDigit c = true) : isLetter c = false := by
  simp only [isDigit,isLetter,decide_eq_true_eq,decide_eq_false_iff_not] at h ⊢
  rintro (⟨h1,-⟩ | ⟨h1,-⟩) <;> rcases h with ⟨-,h2⟩ | rfl | rfl
  · exact absurd (Char.le_trans h1 h2) (by decide)
  · exact absurd h1 (by decide)
  · exact absurd h1 (by decide)
  · exact absurd (Char.le_trans h1 h2) (by decide)
  · exact absurd h1 (by decide)
  · exact absurd h1 (by decide)

theorem letter_not_digit (h : isLetter c = true) : isDigit c = false := by
  cases hd : isDigit c with
  | false => rfl
  | true =>
    have := digit_not_letter hd
    simp [h] at this

theorem starts_delim {L : Language Char} {d : Char} (hd : isBlank d = false) (hw : w ∈ delim d * L)
    (t : Text) : starts (· == d) (skipBlank (w ++ t)) = true := by
  obtain ⟨u,hu,v,-,rfl⟩ := Language.mem_mul.mp hw
  rw [List.append_assoc]
  refine starts_tok (L := {[d]}) (q := (· == d)) (fun w hw => ⟨d,[],hw,hd⟩) ?_ u hu (v ++ t)
  rintro _ rfl t
  exact beq_self_eq_true d

theorem starts_letter_tok {name : Text} :
    ∀ w ∈ tok (named name), ∀ t, starts isLetter (skipBlank (w ++ t)) = true :=
  starts_tok (fun w hw => solid_symbol w hw.1) fun _ hw t => starts_symbol hw.1 t

theorem starts_digit_tok {v : Word} :
    ∀ w ∈ tok (number v), ∀ t, starts isDigit (skipBlank (w ++ t)) = true :=
  starts_tok (fun w hw => solid_numeral w hw.1) fun _ hw t => starts_numeral hw.1 t

theorem parseSymbol_skip (s : Text) : parseSymbol (skipBlank s) = parseSymbol s := by
  rw [parseSymbol,parseSymbol,skipBlank_skipBlank]

theorem parseDigit_skip (s : Text) : parseDigit (skipBlank s) = parseDigit s := by
  rw [parseDigit,parseDigit,skipBlank_skipBlank]

theorem letter_or_none (s : Text) {f : Text × Text → β} :
    (if starts isLetter (skipBlank s) = true then (parseSymbol (skipBlank s)).map f else none) =
      (parseSymbol s).map f := by
  rw [parseSymbol_skip]
  split
  · rfl
  · rename_i h
    rw [parseSymbol,if_neg h]
    rfl

theorem parseData_eq (s : Text) : parseData s = if starts isDigit (skipBlank s) = true then
    (parseDigit s).bind fun (v,s) => some (.digit v,s)
    else (parseSymbol s).bind fun (name,s) => some (.symbol name,s) := by
  rw [parseData,letter_or_none,parseDigit_skip,Option.map_eq_bind,Option.map_eq_bind]
  rfl

theorem parseImm_eq (s : Text) : parseImm s = if starts (· == '$') (skipBlank s) = true then
    (parseDelim '$' s).bind fun s => (parseDigit s).bind fun (v,s) => some (.digit v,s)
    else (parseSymbol s).bind fun (name,s) => some (.symbol name,s) := by
  rw [parseImm,letter_or_none,parseDelim,Option.map_eq_bind,Option.map_eq_bind]
  dsimp only
  split
  · rfl
  · rfl

theorem reads_parseData : Reads parseData Operand.dataText := by
  rw [funext parseData_eq]
  refine (Reads.or reads_parseDigit.map reads_parseSymbol.map ?_ ?_).congr fun d w => ?_
  · rintro _ w ⟨v,-,hw⟩ t
    exact starts_digit_tok w hw t
  · rintro _ w ⟨name,-,hw⟩ t
    exact starts_not (starts_letter_tok w hw t) fun c hc => letter_not_digit hc
  · cases d with
    | digit v =>
      refine ⟨?_,fun hw => Or.inl ⟨v,rfl,hw⟩⟩
      rintro (⟨_,⟨⟩,hw⟩ | ⟨_,⟨⟩,-⟩)
      exact hw
    | symbol name =>
      refine ⟨?_,fun hw => Or.inr ⟨name,rfl,hw⟩⟩
      rintro (⟨_,⟨⟩,-⟩ | ⟨_,⟨⟩,hw⟩)
      exact hw

theorem reads_parseImm : Reads parseImm Operand.immText := by
  rw [funext parseImm_eq]
  refine (Reads.or (Reads.delim (by decide) reads_parseDigit.map) reads_parseSymbol.map
    (fun _ w hw t => starts_delim (by decide) hw t) ?_).congr fun d w => ?_
  · rintro _ w ⟨name,-,hw⟩ t
    refine starts_not (starts_letter_tok w hw t) fun c hc => beq_eq_false_iff_ne.mpr ?_
    rintro rfl
    cases hc
  · cases d with
    | digit v =>
      refine ⟨?_,fun hw => Or.inl (mul_image.mpr ⟨v,rfl,hw⟩)⟩
      rintro (h | ⟨_,⟨⟩,-⟩)
      obtain ⟨_,⟨⟩,hw⟩ := mul_image.mp h
      exact hw
    | symbol name =>
      refine ⟨?_,fun hw => Or.inr ⟨name,rfl,hw⟩⟩
      rintro (h | ⟨_,⟨⟩,hw⟩)
      · obtain ⟨_,⟨⟩,-⟩ := mul_image.mp h
      · exact hw

-- a memory operand whose register is read by reg
def baseBy (reg : Text → Option (Nat × Text)) (disp : Option Word) (s : Text) :
    Option ((Option Word × Nat) × Text) :=
  (parseDelim '(' s).bind fun s => (reg s).bind fun r =>
    (parseDelim ')' r.2).bind fun s => some ((disp,r.1),s)

def memBy (reg : Text → Option (Nat × Text)) (s : Text) : Option ((Option Word × Nat) × Text) :=
  if starts isDigit (skipBlank s) = true then (parseDigit s).bind fun r => baseBy reg (some r.1) r.2
  else baseBy reg none s

theorem parseMem_eq (s : Text) : parseMem s = memBy memReg s := by
  have hbase (disp : Option Word) (s : Text) : ((parseDelim '(' s).bind fun s =>
      if starts (· == '%') s = true then (parseReg s).bind fun r =>
        (parseDelim ')' r.2).bind fun s => some ((disp,r.1),s) else none) = baseBy memReg disp s := by
    rw [baseBy]
    congr 1
    funext s
    rw [memReg]
    split <;> rfl
  have hskip (disp : Option Word) (s : Text) :
      baseBy memReg disp (skipBlank s) = baseBy memReg disp s := by
    rw [baseBy,baseBy,parseDelim,parseDelim,skipBlank_skipBlank]
  rw [parseMem,memBy]
  split
  · rw [parseDigit_skip,Option.map_eq_bind]
    change (Option.bind _ _).bind _ = _
    rw [Option.bind_assoc]
    congr 1
    funext r
    exact hbase (some r.1) r.2
  · exact (hbase none (skipBlank s)).trans (hskip none s)

section Memory

variable {reg : Text → Option (Nat × Text)} {R : Nat → Language Char} {disp : Option Word}

theorem baseBy_iff (hR : ∀ s t b, reg s = some (b,t) ↔ ∃ w ∈ R b, w ++ t = s)
    {m : Option Word × Nat} : baseBy reg disp s = some (m,t) ↔
      ∃ w ∈ image (Prod.mk disp) (baseOf R) m, w ++ t = s := by
  constructor
  · intro h
    obtain ⟨u,h1,h⟩ := Option.bind_eq_some_iff.mp h
    obtain ⟨⟨b,v⟩,h2,h⟩ := Option.bind_eq_some_iff.mp h
    obtain ⟨t',h3,h⟩ := Option.bind_eq_some_iff.mp h
    cases h
    obtain ⟨w1,hw1,rfl⟩ := (parseDelim_iff (by decide)).mp h1
    obtain ⟨w2,hw2,rfl⟩ := (hR _ _ _).mp h2
    obtain ⟨w3,hw3,rfl⟩ := (parseDelim_iff (by decide)).mp h3
    refine ⟨w1 ++ (w2 ++ w3),⟨b,rfl,?_⟩,by simp only [List.append_assoc]⟩
    exact Language.mem_mul.mpr ⟨w1,hw1,_,Language.mem_mul.mpr ⟨w2,hw2,w3,hw3,rfl⟩,rfl⟩
  · rintro ⟨_,⟨b,rfl,hm⟩,rfl⟩
    obtain ⟨w1,hw1,_,hr,rfl⟩ := Language.mem_mul.mp hm
    obtain ⟨w2,hw2,w3,hw3,rfl⟩ := Language.mem_mul.mp hr
    simp only [List.append_assoc]
    rw [baseBy,(parseDelim_iff (by decide)).mpr ⟨w1,hw1,rfl⟩,Option.bind_some,
      (hR _ _ _).mpr ⟨w2,hw2,rfl⟩,Option.bind_some,(parseDelim_iff (by decide)).mpr ⟨w3,hw3,rfl⟩]
    rfl

theorem firm_base (b : Nat) : Firm (baseOf R b) := Firm.mul (firm_delim (by decide))

theorem reads_memBy (hR : ∀ s t b, reg s = some (b,t) ↔ ∃ w ∈ R b, w ++ t = s) :
    Reads (memBy reg) fun m => memText (baseOf R) m.1 m.2 := by
  have hbase (disp : Option Word) : Reads (baseBy reg disp) (image (Prod.mk disp) (baseOf R)) :=
    .exact fun _ _ _ => baseBy_iff hR
  refine (Reads.or (Reads.seq reads_parseDigit (fun v => hbase (some v)) ?_) (hbase none)
    ?_ ?_).congr fun m w => ?_
  · rintro v m w ⟨b,-,hw⟩
    exact firm_base b w hw
  · rintro m w ⟨v,hw⟩ t
    obtain ⟨u,hu,v,-,rfl⟩ := Language.mem_mul.mp hw
    rw [List.append_assoc]
    exact starts_digit_tok u hu (v ++ t)
  · rintro m w ⟨b,-,hw⟩ t
    refine starts_not (starts_delim (by decide) hw t) fun c hc => ?_
    obtain rfl := eq_of_beq hc
    decide
  · obtain ⟨disp,b⟩ := m
    cases disp with
    | none =>
      refine ⟨?_,fun hw => Or.inr ⟨b,rfl,hw⟩⟩
      rintro (⟨v,h⟩ | ⟨_,⟨⟩,hw⟩)
      · obtain ⟨_,⟨⟩,-⟩ := mul_image.mp h
      · exact hw
    | some v =>
      refine ⟨?_,fun hw => Or.inl ⟨v,mul_image.mpr ⟨b,rfl,hw⟩⟩⟩
      rintro (⟨v,h⟩ | ⟨_,⟨⟩,-⟩)
      obtain ⟨_,⟨⟩,hw⟩ := mul_image.mp h
      exact hw

end Memory

theorem memReg_iff {b : Nat} : memReg s = some (b,t) ↔ ∃ w ∈ register b, w ++ t = s := by
  rw [memReg_eq,plainReg_iff]

theorem reads_parseMem : Reads parseMem fun m => memText (closeBase register) m.1 m.2 := by
  rw [funext parseMem_eq]
  exact reads_memBy fun _ _ _ => memReg_iff

theorem reads_looseMem : Reads (memBy parseReg) fun m => memText (memBase register) m.1 m.2 :=
  reads_memBy fun _ _ _ => parseReg_iff

theorem Reads.ite {q : Text → Option (α × Text)} {P : Prop} [Decidable P] (hp : P → Reads p L)
    (hq : ¬ P → Reads q L) : Reads (fun s => if P then p s else q s) L := by
  split
  · rename_i h
    exact hp h
  · rename_i h
    exact hq h

end Readers

section Operands

variable {inst : Instr} {arg : Arg} {L M : Language Char} {w : Text} {a b : Nat} {disp : Option Word}

theorem mul_left (h : w ∈ L * M) : ∃ u, u ∈ L := by
  obtain ⟨u,hu,-⟩ := Language.mem_mul.mp h
  exact ⟨u,hu⟩

theorem mul_right (h : w ∈ L * M) : ∃ u, u ∈ M := by
  obtain ⟨-,-,v,hv,-⟩ := Language.mem_mul.mp h
  exact ⟨v,hv⟩

theorem tok_register_lt (h : w ∈ tok (register a)) : a < regNone := by
  obtain ⟨u,hu⟩ := mul_right h
  exact register_lt hu

theorem memText_lt {base : Nat → Language Char} (hb : ∀ b, ∀ w ∈ base b, b < regNone)
    (h : w ∈ memText base disp b) : b < regNone := by
  cases disp with
  | none => exact hb b w h
  | some v =>
    obtain ⟨u,hu⟩ := mul_right h
    exact hb b u hu

theorem closeBase_lt : ∀ b, ∀ w ∈ closeBase register b, b < regNone := by
  intro b w h
  obtain ⟨u,hu⟩ := mul_right h
  obtain ⟨v,hv⟩ := mul_left hu
  exact register_lt hv

attribute [local simp] Arg.Fits iHalt iNop iRrmovq iIrmovq iRmmovq iMrmovq iAlu iJmp iCall iRet
  iPushq iPopq in
-- the kinds are apart, so an item with operands of one shape is of one kind
theorem reads_scanArg (inst : Instr) : Reads (scanArg inst)
    (fun arg => {w | arg.Fits inst ∧ w ∈ arg.text register (closeBase register)}) := by
  unfold scanArg
  refine .ite (fun h0 => ?_) fun h0 => .ite (fun h3 => ?_) fun h3 => .ite (fun h4 => ?_) fun h4 =>
    .ite (fun h5 => ?_) fun h5 => .ite (fun h2 => ?_) fun h2 => .ite (fun h7 => ?_) fun h7 =>
    .ite (fun h10 => ?_) fun h10 => .ite (fun hd => ?_) fun hd => .ite (fun hp => ?_) fun hp => ?_
  · refine Reads.exact fun s t arg => ?_
    constructor
    · rintro ⟨⟩
      exact ⟨[],⟨h0,rfl⟩,rfl⟩
    · rintro ⟨w,⟨hf,hw⟩,rfl⟩
      cases arg with
      | none =>
        obtain rfl : w = [] := hw
        rfl
      | _ => rcases h0 with h | h | h <;> simp [h] at hf
  · refine (Reads.comma Arg.immReg reads_parseImm reads_parseReg).congr fun arg w => ?_
    constructor
    · rintro ⟨imm,b,rfl,hw⟩
      obtain ⟨u,hu⟩ := mul_right hw
      obtain ⟨v,hv⟩ := mul_right hu
      exact ⟨⟨h3,tok_register_lt hv⟩,hw⟩
    · rintro ⟨hf,hw⟩
      cases arg with
      | immReg imm b => exact ⟨imm,b,rfl,hw⟩
      | _ => simp [h3] at hf
  · refine (Reads.comma (fun a m => Arg.regMem a m.1 m.2) reads_parseReg reads_parseMem).congr
      fun arg w => ?_
    constructor
    · rintro ⟨a,⟨disp,b⟩,rfl,hw⟩
      obtain ⟨u,hu⟩ := mul_left hw
      obtain ⟨v,hv⟩ := mul_right hw
      obtain ⟨v,hv⟩ := mul_right hv
      exact ⟨⟨h4,tok_register_lt hu,memText_lt closeBase_lt hv⟩,hw⟩
    · rintro ⟨hf,hw⟩
      cases arg with
      | regMem a disp b => exact ⟨a,(disp,b),rfl,hw⟩
      | _ => simp [h4] at hf
  · refine (Reads.comma (fun m a => Arg.memReg m.1 m.2 a) reads_parseMem reads_parseReg).congr
      fun arg w => ?_
    constructor
    · rintro ⟨⟨disp,b⟩,a,rfl,hw⟩
      obtain ⟨u,hu⟩ := mul_left hw
      obtain ⟨v,hv⟩ := mul_right hw
      obtain ⟨v,hv⟩ := mul_right hv
      exact ⟨⟨h5,tok_register_lt hv,memText_lt closeBase_lt hu⟩,hw⟩
    · rintro ⟨hf,hw⟩
      cases arg with
      | memReg disp b a => exact ⟨(disp,b),a,rfl,hw⟩
      | _ => simp [h5] at hf
  · refine (Reads.comma Arg.regs reads_parseReg reads_parseReg).congr fun arg w => ?_
    constructor
    · rintro ⟨a,b,rfl,hw⟩
      obtain ⟨u,hu⟩ := mul_left hw
      obtain ⟨v,hv⟩ := mul_right hw
      obtain ⟨v,hv⟩ := mul_right hv
      exact ⟨⟨h2,tok_register_lt hu,tok_register_lt hv⟩,hw⟩
    · rintro ⟨hf,hw⟩
      cases arg with
      | regs a b => exact ⟨a,b,rfl,hw⟩
      | _ => rcases h2 with h | h <;> simp [h] at hf
  · refine (reads_parseImm.map (f := Arg.dest)).congr fun arg w => ?_
    constructor
    · rintro ⟨imm,rfl,hw⟩
      exact ⟨h7,hw⟩
    · rintro ⟨hf,hw⟩
      cases arg with
      | dest imm => exact ⟨imm,rfl,hw⟩
      | _ => rcases h7 with h | h <;> simp [h] at hf
  · refine (reads_parseReg.map (f := Arg.reg)).congr fun arg w => ?_
    constructor
    · rintro ⟨a,rfl,hw⟩
      exact ⟨⟨h10,tok_register_lt hw⟩,hw⟩
    · rintro ⟨hf,hw⟩
      cases arg with
      | reg a => exact ⟨a,rfl,hw⟩
      | _ => rcases h10 with h | h <;> simp [h] at hf
  all_goals
    have hdir : iPopq < high inst.code := by
      simp at h0 h3 h4 h5 h2 h7 h10 ⊢
      omega
  · refine (reads_parseData.map (f := Arg.data)).congr fun arg w => ?_
    constructor
    · rintro ⟨d,rfl,hw⟩
      exact ⟨⟨hdir,hd⟩,hw⟩
    · rintro ⟨hf,hw⟩
      cases arg with
      | data d => exact ⟨d,rfl,hw⟩
      | pos v => exact absurd (hd.symm.trans hf.2) (by decide)
      | align v => exact absurd hd hf.2.1
      | _ => simp at hf hdir; omega
  · refine (reads_parseDigit.map (f := Arg.pos)).congr fun arg w => ?_
    constructor
    · rintro ⟨d,rfl,hw⟩
      exact ⟨⟨hdir,hp⟩,hw⟩
    · rintro ⟨hf,hw⟩
      cases arg with
      | pos v => exact ⟨v,rfl,hw⟩
      | data d => exact absurd hf.2 hd
      | align v => exact absurd hp hf.2.2
      | _ => simp at hf hdir; omega
  · refine (reads_parseDigit.map (f := Arg.align)).congr fun arg w => ?_
    constructor
    · rintro ⟨d,rfl,hw⟩
      exact ⟨⟨hdir,hd,hp⟩,hw⟩
    · rintro ⟨hf,hw⟩
      cases arg with
      | align v => exact ⟨v,rfl,hw⟩
      | data d => exact absurd hf.2 hd
      | pos v => exact absurd hf.2 hp
      | _ => simp at hf hdir; omega

end Operands

end Asm
