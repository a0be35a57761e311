import IcsLabs.Asm.Accept

namespace Asm
open Libc Keywords

-- an item as it stands on a line, and what comes after it
structure Item where
  inst : Instr
  arg : Arg
  text : Text
  rest : Text

inductive Chunk where
  | label (name : Text)
  | item (i : Item)

def Chunk.piece : Chunk → Piece
  | .label name => .label name
  | .item i => .item i.inst i.arg

-- a word before a colon
def Labelled (s : Text) : Prop := ∃ name ∈ symbol, ∃ b ∈ blanks, ∃ t, s = name ++ (b ++ ':' :: t)

def Item.whole (i : Item) : Text := i.inst.name ++ (i.text ++ i.rest)

-- the longest mnemonic and after it the longest operands for it
structure Item.Stands (i : Item) : Prop where
  label : ¬ Labelled i.whole
  mnemonic : Longest Instr.name instrSet i.whole i.inst
  fits : i.arg.Fits i.inst
  text : i.text ∈ i.arg.text register (memBase register)
  longest : LongestIn (operands i.inst) i.text i.rest

-- a line cut into labels and items, in any order
inductive Cuts : Text → List Chunk → Prop
  | tail {t : Text} : t ∈ trailer → Cuts t []
  | label {b name b' t : Text} {cs : List Chunk} : b ∈ blanks → name ∈ symbol → b' ∈ blanks →
    Cuts t cs → Cuts (b ++ (name ++ (b' ++ ':' :: t))) (.label name :: cs)
  | item {b : Text} {i : Item} {cs : List Chunk} : b ∈ blanks → i.Stands → Cuts i.rest cs →
    Cuts (b ++ i.whole) (.item i :: cs)

-- no mnemonic runs on into a letter or digit, and nothing comes after an item
def neat : List Chunk → Bool
  | [] => true
  | .label _ :: cs => neat cs
  | .item i :: cs => !starts isAlnum (i.text ++ i.rest) && cs.isEmpty

def closed : List Chunk → Bool
  | [] => true
  | .label _ :: cs => closed cs
  | .item i :: cs => gapless i.text && closed cs

section Gapless

variable {u v w t : Text} {inst : Instr} {arg : Arg} {b : Nat} {disp : Option Word}

theorem gapless_append (hu : '(' ∉ u) : gapless (u ++ v) = gapless v := by
  induction u with
  | nil => rfl
  | cons c u ih =>
    obtain ⟨hc,hu⟩ := not_or.mp (mt List.mem_cons.mpr hu)
    have hne : (c == '(') = false := beq_eq_false_iff_ne.mpr fun h => hc h.symm
    rw [List.cons_append,gapless,hne,ih hu]
    rfl

theorem gapless_of_lacks (hw : '(' ∉ w) : gapless w = true := by
  rw [← List.append_nil w,gapless_append hw]
  rfl

theorem gapless_close (u v : Text) : gapless (u ++ ')' :: v) = (gapless (u ++ [')']) && gapless v) := by
  induction u with
  | nil => rfl
  | cons c u ih =>
    have hs : starts isBlank (u ++ ')' :: v) = starts isBlank (u ++ [')']) := by
      cases u <;> rfl
    rw [List.cons_append,List.cons_append,gapless,gapless,ih,hs,Bool.and_assoc]

theorem lacks_blanks (hu : u ∈ blanks) : '(' ∉ u := lacks_allOf (by decide) u hu

theorem lacks_reg {a : Nat} (hw : w ∈ register a) : '(' ∉ w :=
  lacks_register (by decide) (by decide) a w hw

theorem lacks_close (hw : w ∈ delim ')') : '(' ∉ w := lacks_delim (by decide) (by decide) w hw

theorem gapless_base {g g' r z : Text} (hg : g ∈ blanks) (hg' : g' ∈ blanks) (hr : r ∈ register b)
    (hz : z ∈ delim ')') : gapless (g ++ '(' :: (g' ++ (r ++ z))) = g'.isEmpty := by
  have hlast : gapless (g' ++ (r ++ z)) = true := by
    rw [gapless_append (lacks_blanks hg'),gapless_append (lacks_reg hr)]
    exact gapless_of_lacks (lacks_close hz)
  rw [gapless_append (lacks_blanks hg),gapless,hlast]
  cases g' with
  | nil =>
    obtain ⟨cs,rfl⟩ := register_percent hr
    rfl
  | cons c g' =>
    rw [List.cons_append,starts_cons,hg' c List.mem_cons_self]
    rfl

theorem memBase_split (h : w ∈ memBase register b) : ∃ g ∈ blanks, ∃ g' ∈ blanks,
    ∃ r ∈ register b, ∃ z ∈ delim ')', w = g ++ '(' :: (g' ++ (r ++ z)) := by
  obtain ⟨u,hu,v,hv,rfl⟩ := Language.mem_mul.mp h
  obtain ⟨g,hg,_,rfl,rfl⟩ := Language.mem_mul.mp hu
  obtain ⟨x,hx,z,hz,rfl⟩ := Language.mem_mul.mp hv
  obtain ⟨g',hg',r,hr,rfl⟩ := Language.mem_mul.mp hx
  exact ⟨g,hg,g',hg',r,hr,z,hz,by simp⟩

theorem nil_blanks : [] ∈ blanks := fun _ hc => absurd hc List.not_mem_nil

theorem closeBase_iff :
    w ∈ closeBase register b ↔ w ∈ memBase register b ∧ gapless w = true := by
  constructor
  · intro h
    obtain ⟨u,hu,v,hv,rfl⟩ := Language.mem_mul.mp h
    obtain ⟨r,hr,z,hz,rfl⟩ := Language.mem_mul.mp hv
    have htok : r ∈ tok (register b) := Language.mem_mul.mpr ⟨[],nil_blanks,r,hr,rfl⟩
    refine ⟨Language.mem_mul.mpr ⟨u,hu,_,Language.mem_mul.mpr ⟨r,htok,z,hz,rfl⟩,rfl⟩,?_⟩
    obtain ⟨g,hg,_,rfl,rfl⟩ := Language.mem_mul.mp hu
    rw [List.append_assoc]
    exact gapless_base hg nil_blanks hr hz
  · rintro ⟨h,hgap⟩
    obtain ⟨g,hg,g',hg',r,hr,z,hz,rfl⟩ := memBase_split h
    rw [gapless_base hg hg' hr hz] at hgap
    obtain rfl := List.isEmpty_iff.mp hgap
    refine Language.mem_mul.mpr ⟨g ++ ['('],Language.mem_mul.mpr ⟨g,hg,['('],rfl,rfl⟩,r ++ z,
      Language.mem_mul.mpr ⟨r,hr,z,hz,rfl⟩,by simp⟩

-- parse_mem stops at a blank after the (
theorem baseBy_gap (h : w ∈ memBase register b) (hgap : gapless w = false) (disp : Option Word)
    (t : Text) : baseBy memReg disp (w ++ t) = none := by
  obtain ⟨g,hg,g',hg',r,hr,z,hz,rfl⟩ := memBase_split h
  rw [gapless_base hg hg' hr hz] at hgap
  cases g' with
  | nil => cases hgap
  | cons c g' =>
    have hd : parseDelim '(' (g ++ '(' :: (c :: g' ++ (r ++ z)) ++ t) =
        some (c :: g' ++ (r ++ z) ++ t) :=
      (parseDelim_iff (by decide)).mpr ⟨g ++ ['('],Language.mem_mul.mpr ⟨g,hg,_,rfl,rfl⟩,by simp⟩
    have hb := hg' c List.mem_cons_self
    have hm : memReg (c :: g' ++ (r ++ z) ++ t) = none := by
      refine if_neg fun h => ?_
      obtain rfl : c = '%' := eq_of_beq h
      cases hb
    rw [baseBy,hd,Option.bind_some,hm]
    rfl

theorem memText_iff : w ∈ memText (closeBase register) disp b ↔
    w ∈ memText (memBase register) disp b ∧ gapless w = true := by
  cases disp with
  | none => exact closeBase_iff
  | some v =>
    have hnum {u : Text} (hu : u ∈ tok (number v)) : '(' ∉ u :=
      (lacks_number (by decide) v).tok (by decide) u hu
    constructor
    · intro h
      obtain ⟨u,hu,m,hm,rfl⟩ := Language.mem_mul.mp h
      obtain ⟨hm,hgap⟩ := closeBase_iff.mp hm
      exact ⟨Language.mem_mul.mpr ⟨u,hu,m,hm,rfl⟩,by rw [gapless_append (hnum hu),hgap]⟩
    · rintro ⟨h,hgap⟩
      obtain ⟨u,hu,m,hm,rfl⟩ := Language.mem_mul.mp h
      rw [gapless_append (hnum hu)] at hgap
      exact Language.mem_mul.mpr ⟨u,hu,m,closeBase_iff.mpr ⟨hm,hgap⟩,rfl⟩

theorem parseMem_gap (h : w ∈ memText (memBase register) disp b) (hgap : gapless w = false)
    (t : Text) : parseMem (w ++ t) = none := by
  rw [parseMem_eq,memBy]
  cases disp with
  | none =>
    rw [if_neg,baseBy_gap h hgap]
    refine Bool.eq_false_iff.mp (starts_not (starts_delim (by decide) h t) fun c hc => ?_)
    obtain rfl := eq_of_beq hc
    decide
  | some v =>
    obtain ⟨u,hu,m,hm,rfl⟩ := Language.mem_mul.mp h
    rw [gapless_append ((lacks_number (by decide) v).tok (by decide) u hu)] at hgap
    rw [List.append_assoc,if_pos (starts_digit_tok u hu _),
      reads_parseDigit.of_word hu ((firm_base b).breaks hm t),Option.bind_some,baseBy_gap hm hgap]

theorem memText_close (h : w ∈ memText (memBase register) disp b) : ∃ u, w = u ++ [')'] := by
  have hbase {w : Text} (h : w ∈ memBase register b) : ∃ u, w = u ++ [')'] := by
    obtain ⟨g,-,g',-,r,-,z,hz,rfl⟩ := memBase_split h
    obtain ⟨x,-,_,rfl,rfl⟩ := Language.mem_mul.mp hz
    exact ⟨g ++ '(' :: (g' ++ (r ++ x)),by simp⟩
  cases disp with
  | none => exact hbase h
  | some v =>
    obtain ⟨u,-,m,hm,rfl⟩ := Language.mem_mul.mp h
    obtain ⟨x,rfl⟩ := hbase hm
    exact ⟨u ++ x,(List.append_assoc u x _).symm⟩

-- the operands without a memory operand
def Arg.plain : Arg → Bool
  | .regMem .. | .memReg .. => false
  | _ => true

theorem gapless_plain {base : Nat → Language Char} (hp : arg.plain = true)
    (hw : w ∈ arg.text register base) : gapless w = true := by
  have hempty : w ∈ arg.text register fun _ => (0 : Language Char) := by
    cases arg with
    | regMem a disp b | memReg disp b a => cases hp
    | _ => exact hw
  refine gapless_of_lacks (lacks_text (by decide) (by decide) (by decide) (fun _ w hw => ?_) arg w hempty)
  cases hw

theorem lacks_comma {a : Nat} (hu : u ∈ delim ',' * tok (register a)) : '(' ∉ u :=
  ((lacks_delim (by decide) (by decide)).mul
    ((lacks_register (by decide) (by decide) a).tok (by decide))) u hu

theorem text_iff : w ∈ arg.text register (closeBase register) ↔
    w ∈ arg.text register (memBase register) ∧ gapless w = true := by
  cases arg with
  | regMem a disp b =>
    have hgap {u c : Text} (hu : u ∈ tok (register a)) (hc : c ∈ delim ',') (m : Text) :
        gapless (u ++ (c ++ m)) = gapless m := by
      rw [gapless_append ((lacks_register (by decide) (by decide) a).tok (by decide) u hu),
        gapless_append (lacks_delim (by decide) (by decide) c hc)]
    constructor
    · intro h
      obtain ⟨u,hu,x,hx,rfl⟩ := Language.mem_mul.mp h
      obtain ⟨c,hc,m,hm,rfl⟩ := Language.mem_mul.mp hx
      obtain ⟨hm,hg⟩ := memText_iff.mp hm
      exact ⟨Language.mem_mul.mpr ⟨u,hu,_,Language.mem_mul.mpr ⟨c,hc,m,hm,rfl⟩,rfl⟩,
        (hgap hu hc m).trans hg⟩
    · rintro ⟨h,hg⟩
      obtain ⟨u,hu,x,hx,rfl⟩ := Language.mem_mul.mp h
      obtain ⟨c,hc,m,hm,rfl⟩ := Language.mem_mul.mp hx
      rw [hgap hu hc m] at hg
      exact Language.mem_mul.mpr
        ⟨u,hu,_,Language.mem_mul.mpr ⟨c,hc,m,memText_iff.mpr ⟨hm,hg⟩,rfl⟩,rfl⟩
  | memReg disp b a =>
    have hgap {m u : Text} (hm : m ∈ memText (memBase register) disp b)
        (hu : u ∈ delim ',' * tok (register a)) : gapless (m ++ u) = gapless m := by
      obtain ⟨x,rfl⟩ := memText_close hm
      rw [List.append_assoc,List.singleton_append,gapless_close,gapless_of_lacks (lacks_comma hu),
        Bool.and_true]
    constructor
    · intro h
      obtain ⟨m,hm,u,hu,rfl⟩ := Language.mem_mul.mp h
      obtain ⟨hm,hg⟩ := memText_iff.mp hm
      exact ⟨Language.mem_mul.mpr ⟨m,hm,u,hu,rfl⟩,(hgap hm hu).trans hg⟩
    · rintro ⟨h,hg⟩
      obtain ⟨m,hm,u,hu,rfl⟩ := Language.mem_mul.mp h
      rw [hgap hm hu] at hg
      exact Language.mem_mul.mpr ⟨m,memText_iff.mpr ⟨hm,hg⟩,u,hu,rfl⟩
  | _ => exact (and_iff_left_of_imp (gapless_plain rfl)).symm

end Gapless

section Scan

variable {n : Nat} {known : List Text} {s t u w x : Text} {inst : Instr} {arg arg' : Arg}
  {name : Text} {ps : List Piece} {cs : List Chunk} {i : Item}

theorem scanArg_rmmovq (h : high inst.code = iRmmovq) (s : Text) : scanArg inst s =
    (parseReg s).bind fun (rA,s) => (parseDelim ',' s).bind fun s =>
      (parseMem s).bind fun (m,s) => some (.regMem rA m.1 m.2,s) := by
  simp only [scanArg,h]
  rfl

theorem scanArg_mrmovq (h : high inst.code = iMrmovq) (s : Text) : scanArg inst s =
    (parseMem s).bind fun (m,s) => (parseDelim ',' s).bind fun s =>
      (parseReg s).bind fun (rA,s) => some (.memReg m.1 m.2 rA,s) := by
  simp only [scanArg,h]
  rfl

theorem scanArg_gap (hf : arg.Fits inst) (hw : w ∈ arg.text register (memBase register))
    (hg : gapless w = false) (t : Text) : scanArg inst (w ++ t) = none := by
  cases arg with
  | regMem a disp b =>
    obtain ⟨u,hu,v,hv,rfl⟩ := Language.mem_mul.mp hw
    obtain ⟨c,hc,m,hm,rfl⟩ := Language.mem_mul.mp hv
    rw [gapless_append ((lacks_register (by decide) (by decide) a).tok (by decide) u hu),
      gapless_append (lacks_delim (by decide) (by decide) c hc)] at hg
    simp only [List.append_assoc]
    rw [scanArg_rmmovq hf.1,parseReg_iff.mpr ⟨u,hu,rfl⟩,Option.bind_some]
    dsimp only
    rw [(parseDelim_iff (by decide)).mpr ⟨c,hc,rfl⟩,Option.bind_some,parseMem_gap hm hg]
    rfl
  | memReg disp b a =>
    obtain ⟨m,hm,u,hu,rfl⟩ := Language.mem_mul.mp hw
    obtain ⟨x,rfl⟩ := memText_close hm
    rw [List.append_assoc,List.singleton_append,gapless_close,gapless_of_lacks (lacks_comma hu),
      Bool.and_true] at hg
    rw [List.append_assoc,scanArg_mrmovq hf.1,parseMem_gap hm hg]
    rfl
  | _ =>
    rw [gapless_plain rfl hw] at hg
    cases hg

theorem fits_mem (h : arg.Fits inst) (hp : arg.plain = false) :
    (∃ a disp b, arg = .regMem a disp b ∧ high inst.code = iRmmovq) ∨
      ∃ disp b a, arg = .memReg disp b a ∧ high inst.code = iMrmovq := by
  cases arg with
  | regMem a disp b => exact Or.inl ⟨a,disp,b,rfl,h.1⟩
  | memReg disp b a => exact Or.inr ⟨disp,b,a,rfl,h.1⟩
  | _ => cases hp

theorem close_of_plain (hp : arg.plain = true) (hw : w ∈ arg.text register (memBase register)) :
    w ∈ arg.text register (closeBase register) := text_iff.mpr ⟨hw,gapless_plain hp hw⟩

theorem plain_iff (h : arg.Fits inst) :
    arg.plain = false ↔ high inst.code = iRmmovq ∨ high inst.code = iMrmovq := by
  cases arg with
  | regMem a disp b => exact iff_of_true rfl (Or.inl h.1)
  | memReg disp b a => exact iff_of_true rfl (Or.inr h.1)
  | _ =>
    refine iff_of_false Bool.noConfusion fun hc => ?_
    rcases hc with hc | hc <;> simp [Arg.Fits,hc,iHalt,iNop,iRrmovq,iIrmovq,iRmmovq,iMrmovq,iAlu,
      iJmp,iCall,iRet,iPushq,iPopq] at h

theorem operands_stops (hf : arg.Fits inst) (hw : w ∈ arg.text register (memBase register))
    (ht : Breaks t) : LongestIn (operands inst) w t := by
  rintro x hx ⟨arg',hf',hx'⟩
  have hsame : arg.plain = false ↔ arg'.plain = false := (plain_iff hf).trans (plain_iff hf').symm
  cases hp : arg.plain with
  | true =>
    have hp' : arg'.plain = true := by
      rw [← Bool.not_eq_false,← hsame,hp]
      decide
    exact (reads_scanArg inst).stops ⟨hf,close_of_plain hp hw⟩ ht x hx
      ⟨arg',hf',close_of_plain hp' hx'⟩
  | false =>
    have hk := fits_mem hf' (hsame.mp hp)
    obtain ⟨a,disp,b,rfl,hc⟩ | ⟨disp,b,a,rfl,hc⟩ := fits_mem hf hp
    · obtain ⟨a',disp',b',rfl,-⟩ | ⟨disp',b',a',rfl,hc'⟩ := hk
      · exact (Reads.comma (fun a m => Arg.regMem a m.1 m.2) reads_parseReg reads_looseMem).stops
          ⟨a,(disp,b),rfl,hw⟩ ht x hx ⟨_,a',(disp',b'),rfl,hx'⟩
      · exact absurd (hc.symm.trans hc') (by decide)
    · obtain ⟨a',disp',b',rfl,hc'⟩ | ⟨disp',b',a',rfl,-⟩ := hk
      · exact absurd (hc.symm.trans hc') (by decide)
      · exact (Reads.comma (fun m a => Arg.memReg m.1 m.2 a) reads_looseMem reads_parseReg).stops
          ⟨(disp,b),a,rfl,hw⟩ ht x hx ⟨_,(disp',b'),a',rfl,hx'⟩

theorem scanArg_longest (h : scanArg inst s = some (arg,t)) (ht : Clean t) :
    ∃ w, arg.Fits inst ∧ w ∈ arg.text register (memBase register) ∧ gapless w = true ∧ w ++ t = s ∧
      LongestIn (operands inst) w t := by
  obtain ⟨w,⟨hf,hw⟩,rfl,hl⟩ := ((reads_scanArg inst).iff ht).mp h
  obtain ⟨hw,hg⟩ := text_iff.mp hw
  refine ⟨w,hf,hw,hg,rfl,?_⟩
  rintro x ⟨y,rfl⟩ ⟨arg',hf',hx⟩
  cases hg' : gapless (w ++ x) with
  | true => exact hl x ⟨y,rfl⟩ ⟨arg',hf',text_iff.mpr ⟨hx,hg'⟩⟩
  | false =>
    have hn := scanArg_gap hf' hx hg' y
    rw [List.append_assoc,h] at hn
    cases hn

theorem scanArg_of_longest (hf : arg.Fits inst) (hw : w ∈ arg.text register (memBase register))
    (hl : LongestIn (operands inst) w t) (ht : Clean t) :
    scanArg inst (w ++ t) = if gapless w = true then some (arg,t) else none := by
  cases hg : gapless w with
  | true =>
    refine ((reads_scanArg inst).iff ht).mpr ⟨w,⟨hf,text_iff.mpr ⟨hw,hg⟩⟩,rfl,?_⟩
    rintro x hx ⟨arg',hf',hx'⟩
    exact hl x hx ⟨arg',hf',(text_iff.mp hx').1⟩
  | false => exact scanArg_gap hf hw hg t

theorem parseLabel_eq_none (hs : skipBlank s = s) : parseLabel s = none ↔ ¬ Labelled s := by
  rw [← not_iff_not,not_not]
  constructor
  · intro h
    obtain ⟨⟨name,t⟩,hl⟩ := Option.ne_none_iff_exists'.mp h
    obtain ⟨hn,b,hb,he⟩ := parseLabel_split hl
    exact ⟨name,hn,b,hb,t,by rw [he,hs]⟩
  · rintro ⟨name,hn,b,hb,t,rfl⟩ h
    rw [parseLabel_append hn hb] at h
    cases h

theorem clean_of_letter {c : Char} (hc : isLetter c = true) : c ≠ '-' ∧ c ≠ '+' := by
  constructor <;> rintro rfl <;> cases hc

theorem instr_head (hi : inst ∈ instrSet) : ∃ c cs, inst.name = c :: cs ∧ c ≠ '-' ∧ c ≠ '+' := by
  have h : ∀ inst ∈ instrSet, starts (fun c => c != '-' && c != '+') inst.name = true := by
    decide +kernel
  obtain ⟨c,cs,he,hc⟩ := starts_iff.mp (h inst hi)
  exact ⟨c,cs,he,by simpa using hc⟩

theorem Cuts.clean (h : Cuts s cs) : Clean s := by
  have hblank {b u : Text} (hb : b ∈ blanks) (hu : Clean u) : Clean (b ++ u) := by
    cases b with
    | nil => exact hu
    | cons c b =>
      rintro _ ⟨⟩
      have := hb c List.mem_cons_self
      constructor <;> rintro rfl <;> cases this
  cases h with
  | tail ht => exact (trailer_breaks ht).clean
  | label hb hn =>
    obtain ⟨c,cs,rfl,hc,-⟩ := hn
    refine hblank hb ?_
    rintro _ ⟨⟩
    exact clean_of_letter hc
  | item hb hi =>
    obtain ⟨c,cs,he,hc⟩ := instr_head hi.mnemonic.mem
    refine hblank hb ?_
    rw [Item.whole,he]
    rintro _ ⟨⟩
    exact hc

theorem skipBlank_whole (hb : t ∈ blanks) (hi : inst ∈ instrSet) (u : Text) :
    skipBlank (t ++ (inst.name ++ u)) = inst.name ++ u := by
  rw [← skipBlank_item hi u,skipBlank,skipBlank,List.dropWhile_append_of_pos hb,
    List.dropWhile_idempotent]

theorem atEnd_symbol (hn : name ∈ symbol) (u : Text) : atEnd (name ++ u) = false := by
  obtain ⟨c,cs,rfl,hc,-⟩ := hn
  have hne : (c == '#') = false := beq_eq_false_iff_ne.mpr (by
    rintro rfl
    cases hc)
  rw [atEnd,List.cons_append,starts_cons,hne]
  simp

theorem scanLoop_item {b : Text} (hb : b ∈ blanks) (hi : i.Stands) (hc : Clean i.rest) :
    scanLoop (n + 1) (b ++ i.whole) = if gapless i.text = true then
      (scanLoop n i.rest).map (.item i.inst i.arg :: ·) else none := by
  have hm := hi.mnemonic.mem
  have hs : skipBlank (b ++ i.whole) = i.whole := skipBlank_whole hb hm _
  have he : atEnd (skipBlank (b ++ i.whole)) = false := by
    rw [hs]
    exact atEnd_item hm _
  have hl : parseLabel i.whole = none := (parseLabel_eq_none (skipBlank_item hm _)).mpr hi.label
  have hp : parseInstr i.whole = some (i.inst,i.text ++ i.rest) := by
    rw [parseInstr,show skipBlank i.whole = i.whole from skipBlank_item hm _,
      findInstr_iff.mpr hi.mnemonic,Option.map_some,← instr_len hm,Item.whole,List.drop_left]
  rw [scanLoop_step he,hs,scanPiece_item hl hp,scanArg_of_longest hi.fits hi.text hi.longest hc]
  split <;> rfl

theorem scanLoop_label {b b' : Text} (hb : b ∈ blanks) (hn : name ∈ symbol) (hb' : b' ∈ blanks) :
    scanLoop (n + 1) (b ++ (name ++ (b' ++ ':' :: t))) = (scanLoop n t).map (.label name :: ·) := by
  have hs : skipBlank (b ++ (name ++ (b' ++ ':' :: t))) = name ++ (b' ++ ':' :: t) :=
    skipBlank_append hb (solid_symbol.head hn)
  have he : atEnd (skipBlank (b ++ (name ++ (b' ++ ':' :: t)))) = false := by
    rw [hs]
    exact atEnd_symbol hn _
  rw [scanLoop_step he,hs,scanPiece_label (parseLabel_append hn hb')]
  rfl

theorem Cuts.scan (h : Cuts s cs) (hn : s.length < n) :
    scanLoop n s = if closed cs = true then some (cs.map Chunk.piece) else none := by
  induction h generalizing n with
  | tail ht => exact scanLoop_trailer ht n
  | @label b name b' t cs hb hm hb' _ ih =>
    obtain ⟨n,rfl⟩ : ∃ m, n = m + 1 := ⟨n - 1,by omega⟩
    have hs := @ih n (by simp only [List.length_append,List.length_cons] at hn; omega)
    rw [scanLoop_label hb hm hb',hs,closed]
    split <;> rfl
  | @item b i cs hb hi ht ih =>
    obtain ⟨n,rfl⟩ : ∃ m, n = m + 1 := ⟨n - 1,by omega⟩
    obtain ⟨c,ds,he,-⟩ := instr_head hi.mnemonic.mem
    have hs := @ih n (by
      rw [Item.whole,he] at hn
      simp only [List.length_append,List.length_cons] at hn
      omega)
    rw [scanLoop_item hb hi ht.clean,hs,closed]
    cases gapless i.text with
    | true =>
      rw [if_pos rfl,Bool.true_and]
      split <;> rfl
    | false => rfl

theorem cuts_of_scan (h : scanLoop n s = some ps) (hn : s.length < n) :
    ∃ cs, Cuts s cs ∧ closed cs = true ∧ cs.map Chunk.piece = ps := by
  induction n generalizing s ps with
  | zero => omega
  | succ n ih =>
    cases he : atEnd (skipBlank s) with
    | true =>
      have hp : scanLoop (n + 1) s = some [] := if_pos he
      rw [hp] at h
      cases h
      exact ⟨[],.tail (atEnd_iff.mp he),rfl,rfl⟩
    | false =>
      rw [scanLoop_step he] at h
      obtain ⟨⟨p,t⟩,hp,h⟩ := Option.bind_eq_some_iff.mp h
      obtain ⟨qs,hq,rfl⟩ := Option.map_eq_some_iff.mp h
      have hle : (skipBlank s).length ≤ s.length := (skipBlank_suffix s).length_le
      have hlen := (scanPiece_spec hp).2.1
      cases hl : parseLabel (skipBlank s) with
      | some l =>
        obtain ⟨name,u⟩ := l
        rw [scanPiece_label hl] at hp
        cases hp
        obtain ⟨hm,b,hb,heq⟩ := parseLabel_split hl
        rw [skipBlank_skipBlank] at heq
        obtain ⟨cs,hc,hcl,hps⟩ := ih hq (by omega)
        refine ⟨.label name :: cs,?_,hcl,congrArg (Piece.label name :: ·) hps⟩
        rw [← blanks_skipBlank s,← heq]
        exact .label (takeWhile_blanks s) hm hb hc
      | none =>
        cases hi : parseInstr (skipBlank s) with
        | none =>
          rw [scanPiece,hl,hi] at hp
          cases hp
        | some l =>
          obtain ⟨inst,u⟩ := l
          rw [scanPiece_item hl hi] at hp
          obtain ⟨⟨arg,v⟩,ha,he'⟩ := Option.bind_eq_some_iff.mp hp
          cases he'
          obtain ⟨cs,hc,hcl,hps⟩ := ih hq (by omega)
          obtain ⟨w,hfit,hw,hg,hu,hlong⟩ := scanArg_longest ha hc.clean
          obtain ⟨hmem,heq⟩ := parseInstr_split hi
          rw [skipBlank_skipBlank,← hu] at heq
          have hfind : findInstr (skipBlank s) = some inst := by
            obtain ⟨j,hj,he⟩ := Option.map_eq_some_iff.mp hi
            cases he
            rwa [skipBlank_skipBlank] at hj
          let i : Item := ⟨inst,arg,w,t⟩
          have hwhole : i.whole = skipBlank s := heq
          refine ⟨.item i :: cs,?_,?_,congrArg (Piece.item inst arg :: ·) hps⟩
          · rw [← blanks_skipBlank s,← hwhole]
            refine .item (takeWhile_blanks s) ⟨?_,?_,hfit,hw,hlong⟩ hc
            · rw [hwhole]
              exact (parseLabel_eq_none (skipBlank_skipBlank s)).mp hl
            · rw [hwhole]
              exact findInstr_iff.mp hfind
          · rw [closed,hcl,Bool.and_true]
            exact hg

theorem Cuts.trailer (h : Cuts s []) : s ∈ trailer := by
  cases h with
  | tail ht => exact ht

theorem Cuts.neat_eq {ds : List Chunk} (hc : Cuts s cs) (hd : Cuts s ds)
    (he : cs.map Chunk.piece = ds.map Chunk.piece) : neat cs = neat ds := by
  induction hc generalizing ds with
  | tail _ =>
    obtain rfl := List.map_eq_nil_iff.mp he.symm
    rfl
  | @label b name b' t cs hb hn hb' _ ih =>
    generalize hs : b ++ (name ++ (b' ++ ':' :: t)) = s at hd
    cases hd with
    | tail _ => cases he
    | item _ _ _ => cases (List.cons.inj he).1
    | @label c m c' u ds hc hm hc' hds =>
      obtain ⟨hp,htl⟩ := List.cons.inj he
      have h1 := congrArg (fun s => parseLabel (skipBlank s)) hs
      rw [skipBlank_append hb (solid_symbol.head hn),skipBlank_append hc (solid_symbol.head hm),
        parseLabel_append hn hb',parseLabel_append hm hc'] at h1
      cases h1
      rw [neat,neat]
      exact ih hds htl
  | @item b i cs hb hi _ ih =>
    generalize hs : b ++ i.whole = s at hd
    cases hd with
    | tail _ => cases he
    | label _ _ _ _ => cases (List.cons.inj he).1
    | @item c j ds hc hj hd =>
      obtain ⟨hp,htl⟩ := List.cons.inj he
      have hinst : i.inst = j.inst := (Piece.item.inj hp).1
      have h1 := congrArg skipBlank hs
      rw [Item.whole,skipBlank_whole hb hi.mnemonic.mem,Item.whole,
        skipBlank_whole hc hj.mnemonic.mem,hinst] at h1
      have hempty : cs.isEmpty = ds.isEmpty := by
        rw [← List.isEmpty_map (f := Chunk.piece),htl,List.isEmpty_map]
      rw [neat,neat,List.append_cancel_left h1,hempty]

theorem grammar_iff : Grammar known s ↔
    ∃ cs, Cuts s cs ∧ Fresh known (cs.map Chunk.piece) ∧ neat cs = true := by
  constructor
  · intro h
    induction h with
    | tail ht => exact ⟨[],.tail ht,trivial,rfl⟩
    | @item known b inst w t hb hi hw ht hal =>
      obtain ⟨arg,hf,hw⟩ := hw
      let i : Item := ⟨inst,arg,w,t⟩
      have hstands : i.Stands := by
        refine ⟨?_,findInstr_iff.mp (findInstr_append hi hal),hf,hw,?_⟩
        · exact (parseLabel_eq_none (skipBlank_item hi _)).mp (parseLabel_item hi ⟨arg,hf,hw⟩ ht)
        · exact operands_stops hf hw (trailer_breaks ht)
      refine ⟨[.item i],.item hb hstands (.tail ht),trivial,?_⟩
      change (!starts isAlnum (w ++ t) && true) = true
      rw [hal]
      rfl
    | label hb hm hb' hk _ ih =>
      obtain ⟨cs,hc,hf,hn⟩ := ih
      exact ⟨_,.label hb hm hb' hc,⟨hk,hf⟩,hn⟩
  · rintro ⟨cs,hc,hf,hn⟩
    induction hc generalizing known with
    | tail ht => exact .tail ht
    | label hb hm hb' _ ih => exact .label hb hm hb' hf.1 (ih hf.2 hn)
    | @item b i cs hb hi ht ih =>
      rw [neat,Bool.and_eq_true,Bool.not_eq_true',List.isEmpty_iff] at hn
      obtain ⟨hal,rfl⟩ := hn
      exact .item hb hi.mnemonic.mem ⟨i.arg,hi.fits,hi.text⟩ ht.trailer hal

end Scan

section Lines

variable {k : Nat} {s : Parse}

theorem parse_cuts : (∃ s', parseLine k s = .ok s') ↔
    ∃ cs, Cuts s.line.y64asm cs ∧ Fresh (names s.symtab) (cs.map Chunk.piece) ∧
      closed cs = true ∧ divides s.vmaddr (cs.map Chunk.piece) = true := by
  rw [parseLine_ok]
  constructor
  · rintro ⟨ps,hs,hf,hd⟩
    obtain ⟨cs,hc,hcl,rfl⟩ := cuts_of_scan hs (Nat.lt_succ_self _)
    exact ⟨cs,hc,hf,hcl,hd⟩
  · rintro ⟨cs,hc,hf,hcl,hd⟩
    have hs := hc.scan (Nat.lt_succ_self _)
    rw [hcl] at hs
    exact ⟨_,hs,hf,hd⟩

theorem cuts_unique {t : Text} {cs ds : List Chunk} (hc : Cuts t cs) (hd : Cuts t ds)
    (hcl : closed cs = true) : closed ds = true ∧ ds.map Chunk.piece = cs.map Chunk.piece := by
  have h1 := hc.scan (Nat.lt_succ_self _)
  have h2 := hd.scan (Nat.lt_succ_self _)
  rw [hcl,if_pos rfl,h2] at h1
  cases hds : closed ds with
  | true =>
    rw [hds] at h1
    exact ⟨rfl,Option.some.inj h1⟩
  | false =>
    rw [hds] at h1
    cases h1

-- parse_line accepts more than the language where a mnemonic runs on or something comes after an
-- item, and less where a blank comes before the register of a memory operand or an .align traps
theorem parseLine_grammar (k : Nat) (s : Parse) :
    ((∃ s', parseLine k s = .ok s') ↔ Grammar (names s.symtab) s.line.y64asm) ↔
      ∀ cs, Cuts s.line.y64asm cs → Fresh (names s.symtab) (cs.map Chunk.piece) →
        (closed cs = true ∧ divides s.vmaddr (cs.map Chunk.piece) = true ↔ neat cs = true) := by
  rw [parse_cuts,grammar_iff]
  constructor
  · intro h cs hc hf
    constructor
    · intro hok
      obtain ⟨ds,hds,-,hn⟩ := h.mp ⟨cs,hc,hf,hok⟩
      rwa [hc.neat_eq hds (cuts_unique hc hds hok.1).2.symm]
    · intro hn
      obtain ⟨ds,hds,-,hcl,hd⟩ := h.mpr ⟨cs,hc,hf,hn⟩
      obtain ⟨h1,h2⟩ := cuts_unique hds hc hcl
      exact ⟨h1,h2 ▸ hd⟩
  · intro h
    exact exists_congr fun cs => and_congr_right fun hc => and_congr_right fun hf => h cs hc hf

def lineOnly (text : String) : Parse := ⟨0,(Draft.blank 0 text.toList).line,0,[],[]⟩

theorem parseLine_grammar_fails :
    ¬ ((∃ s', parseLine 0 (lineOnly "nopnop") = .ok s') ↔ Grammar [] "nopnop".toList) ∧
    ¬ ((∃ s', parseLine 0 (lineOnly "mrmovq ( %rbp),%rax") = .ok s') ↔
      Grammar [] "mrmovq ( %rbp),%rax".toList) := by
  constructor
  · intro h
    have hs : scanLine "nopnop".toList = some [.item instrSet[0] .none,.item instrSet[0] .none] := by
      decide +kernel
    obtain ⟨cs,hc,-,hn⟩ := grammar_iff.mp (h.mp (parseLine_ok.mpr ⟨_,hs,trivial,by decide +kernel⟩))
    have hscan := hc.scan (Nat.lt_succ_self _)
    change scanLine "nopnop".toList = _ at hscan
    rw [hs] at hscan
    split at hscan
    · have hp := Option.some.inj hscan
      obtain ⟨c,ds,rfl,hi,hds⟩ := List.map_eq_cons_iff.mp hp.symm
      cases c with
      | label name => cases hi
      | item i =>
        rw [neat,Bool.and_eq_true,List.isEmpty_iff] at hn
        rw [hn.2] at hds
        cases hds
    · cases hscan
  · intro h
    have hs : scanLine "mrmovq ( %rbp),%rax".toList = none := by decide +kernel
    have hread := (Reads.comma (fun m a => Arg.memReg m.1 m.2 a) reads_looseMem reads_parseReg).iff
      (s := " ( %rbp),%rax".toList) (t := []) (a := .memReg none 5 0) (by simp [Clean])
    obtain ⟨w,⟨m,a,he,hw⟩,hws,-⟩ := hread.mp (by decide +kernel)
    obtain ⟨h1,h2,rfl⟩ := Arg.memReg.inj he
    have hg : Grammar [] ([] ++ ("mrmovq".toList ++ (w ++ []))) :=
      @Grammar.item _ _ ⟨"mrmovq".toList,6,hpack iMrmovq fNone,10⟩ _ _ nil_blanks
        (by decide +kernel) ⟨.memReg m.1 m.2 0,⟨by decide,by decide,h2 ▸ by decide⟩,hw⟩ (atEnd_iff.mp rfl) (by
          rw [hws]
          decide)
    rw [hws] at hg
    obtain ⟨ps,hp,-⟩ := parseLine_ok.mp (h.mpr hg)
    change scanLine "mrmovq ( %rbp),%rax".toList = _ at hp
    rw [hs] at hp
    cases hp

end Lines

end Asm
