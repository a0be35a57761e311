import IcsLabs.Asm.Assemble
import IcsLabs.Lib.Traced
import Mathlib.Data.List.DropRight

namespace Asm

-- i of an access to asm_buf[i]
abbrev Accesses := Traced Int

def InBuf (i : Int) : Prop := 0 ≤ i ∧ i < maxInslen

instance : DecidablePred InBuf := fun i => inferInstanceAs (Decidable (0 ≤ i ∧ i < maxInslen))

def access (i : Int) : Accesses Unit := ⟨(),[i]⟩

-- a string of n characters and its end mark, read or written from asm_buf on
def accessString (n : Nat) : Accesses Unit := ⟨(),(List.range (n + 1)).map Int.ofNat⟩

def isEol (c : Char) : Bool := c = '\n' ∨ c = '\r'

-- while (asm_buf[slen - 1] is a line end) asm_buf[--slen] = 0; below holds what lies under slen,
-- as far as it is known
def stripLoop : List Char → Int → Accesses Int
  | [], slen => do
    access (slen - 1)
    return slen
  | c :: below, slen => do
    access (slen - 1)
    if isEol c then
      access (slen - 1)
      stripLoop below (slen - 1)
    else return slen

-- one turn of assemble up to parse_line; before holds what lies under asm_buf, the next cell first
def readLine (before : List Char) (file : Text) : Accesses (Text × Text) := do
  let (line,rest) := Libc.fgets (maxInslen - 1) file
  accessString line.length
  let buf := line.takeWhile (· ≠ '\x00')
  accessString buf.length
  let slen ← stripLoop (buf.reverse ++ before) buf.length
  let y64asm := buf.take slen.toNat
  accessString y64asm.length
  return (y64asm,rest)

-- the line_t's that assemble hands to parse_line, and what it ends with
def assembleFrom (before : List Char) :
    Nat → State → Text → Accesses (List Text × Except Stop State)
  | 0, st, _ => return ([],.ok st)
  | n + 1, st, file =>
    if file = [] then return ([],.ok st)
    else do
      let (y64asm,rest) ← readLine before file
      match assembleLine st y64asm with
      | .error e => return ([y64asm],.error e)
      | .ok st => do
        let (handed,r) ← assembleFrom before n st rest
        return (y64asm :: handed,r)

-- the lines of a file, each with its newline
def textLines : Text → List Text
  | [] => []
  | c :: s =>
    if c = '\n' then [c] :: textLines s
    else
      match textLines s with
      | [] => [[c]]
      | l :: ls => (c :: l) :: ls

def lineText (l : Text) : Text := l.rdropWhile isEol

-- the lines up to the first one that parse_line rejects
def parsedLines (st : State) : List Text → List Text
  | [] => []
  | l :: ls => lineText l :: match assembleLine st (lineText l) with
    | .ok st => parsedLines st ls
    | .error _ => []

-- a line that is parsed has a character besides carriage returns, and asm_buf has room for it
def Readable (st : State) : List Text → Prop
  | [] => True
  | l :: ls => lineText l ≠ [] ∧ match assembleLine st (lineText l) with
    | .ok st => l.length < maxInslen ∧ Readable st ls
    | .error _ => (lineText l).length < maxInslen

section Lines

variable {n : Nat} {l s file : Text}

theorem textLines_cons (h : file ≠ []) : ∃ l rest, file = l ++ rest ∧
    textLines file = l :: textLines rest ∧ l ≠ [] ∧ '\n' ∉ l.dropLast ∧ ('\n' ∈ l ∨ rest = []) := by
  induction file with
  | nil => exact absurd rfl h
  | cons c s ih =>
    by_cases hc : c = '\n'
    · exact ⟨[c],s,rfl,by rw [textLines,if_pos hc],List.cons_ne_nil _ _,by simp,by simp [hc]⟩
    · cases s with
      | nil => exact ⟨[c],[],rfl,by simp [textLines],List.cons_ne_nil _ _,by simp,Or.inr rfl⟩
      | cons d s =>
        obtain ⟨l,rest,hs,ht,hne,hl,hr⟩ := ih (List.cons_ne_nil _ _)
        refine ⟨c :: l,rest,by rw [hs]; rfl,?_,List.cons_ne_nil _ _,?_,?_⟩
        · rw [textLines,if_neg hc,ht]
        · rw [List.dropLast_cons_of_ne_nil hne,List.mem_cons,not_or]
          exact ⟨Ne.symm hc,hl⟩
        · exact hr.imp_left (List.mem_cons_of_mem c)

end Lines

section Strip

variable {before text : List Char} {n : Nat}

theorem accessString_all : (accessString n).All InBuf ↔ n < maxInslen := by
  constructor
  · intro h
    have := (h n (List.mem_map.mpr ⟨n,by simp,rfl⟩)).2
    exact_mod_cast this
  · intro h i hi
    obtain ⟨k,hk,rfl⟩ := List.mem_map.mp hi
    rw [List.mem_range] at hk
    exact ⟨Int.natCast_nonneg k,Int.ofNat_lt.mpr (by omega)⟩

theorem stripLoop_le (below : List Char) (slen : Int) : (stripLoop below slen).val ≤ slen := by
  induction below generalizing slen with
  | nil => exact Int.le_refl slen
  | cons c below ih =>
    rw [stripLoop]
    split
    · have := ih (slen - 1)
      simp only [Traced.val_bind]
      omega
    · exact Int.le_refl slen

theorem stripLoop_zero (before : List Char) : ¬ (stripLoop before 0).All InBuf := by
  have hout : ¬ (access (0 - 1)).All InBuf := fun h => absurd (h (-1) (by decide)).1 (by decide)
  intro h
  cases before with
  | nil => exact hout ((Traced.all_bind _ _).mp h).1
  | cons c before => exact hout ((Traced.all_bind _ _).mp h).1

theorem stripLoop_concat (c : Char) : stripLoop ((text ++ [c]).reverse ++ before) (text ++ [c]).length =
    do
      access text.length
      if isEol c then
        access text.length
        stripLoop (text.reverse ++ before) text.length
      else return ((text ++ [c]).length : Int) := by
  have hlen : ((text ++ [c]).length : Int) - 1 = text.length := by
    rw [List.length_append,List.length_singleton]
    omega
  rw [List.reverse_append,List.reverse_singleton,List.singleton_append,List.cons_append,stripLoop,hlen]

theorem stripLoop_text (before text : List Char) :
    text.take (stripLoop (text.reverse ++ before) text.length).val.toNat = text.rdropWhile isEol := by
  induction text using List.reverseRecOn with
  | nil => exact List.take_nil
  | append_singleton text c ih =>
    rw [stripLoop_concat]
    cases hc : isEol c with
    | true =>
      rw [List.rdropWhile_concat_pos _ _ _ hc,← ih]
      have hle := stripLoop_le (text.reverse ++ before) text.length
      exact List.take_append_of_le_length (by simp only [Traced.val_bind,if_true]; omega)
    | false =>
      rw [List.rdropWhile_concat_neg _ _ _ (by simp [hc])]
      exact List.take_length

theorem stripLoop_all (h : text.length < maxInslen) :
    (stripLoop (text.reverse ++ before) text.length).All InBuf ↔ text.rdropWhile isEol ≠ [] := by
  induction text using List.reverseRecOn with
  | nil => exact iff_of_false (stripLoop_zero before) fun hne => hne rfl
  | append_singleton text c ih =>
    rw [List.length_append,List.length_singleton] at h
    have hin : (access text.length).All InBuf :=
      (Traced.all_mk ..).mpr ⟨Int.natCast_nonneg _,Int.ofNat_lt.mpr (by omega)⟩
    rw [stripLoop_concat,Traced.all_bind,and_iff_right hin]
    cases hc : isEol c with
    | true =>
      rw [List.rdropWhile_concat_pos _ _ _ hc,if_pos rfl,Traced.all_bind,and_iff_right hin]
      exact ih (by omega)
    | false =>
      rw [List.rdropWhile_concat_neg _ _ _ (by simp [hc])]
      exact iff_of_true (Traced.all_pure _) (by simp)

end Strip

section Read

variable {before : List Char} {file l rest : Text} {st st' : State} {n : Nat}

theorem asmBuf_eq (s : Text) : asmBuf s = (s.takeWhile (· ≠ '\x00')).rdropWhile isEol := rfl

theorem readLine_val (before : List Char) (file : Text) : (readLine before file).val =
    (asmBuf (Libc.fgets (maxInslen - 1) file).1,(Libc.fgets (maxInslen - 1) file).2) := by
  rw [asmBuf_eq,← stripLoop_text before]
  rfl

theorem assembleFrom_val : (assembleFrom before n st file).val.2 =
    (readLines n file).foldlM assembleLine st := by
  induction n generalizing st file with
  | zero => rfl
  | succ n ih =>
    rw [assembleFrom,readLines]
    split
    · rfl
    · rw [Traced.val_bind,readLine_val,List.foldlM_cons]
      dsimp only
      cases assembleLine st (asmBuf (Libc.fgets (maxInslen - 1) file).1) with
      | error e => rfl
      | ok st' => exact ih

theorem readLine_all (h : (Libc.fgets (maxInslen - 1) file).1.length < maxInslen) :
    (readLine before file).All InBuf ↔ asmBuf (Libc.fgets (maxInslen - 1) file).1 ≠ [] := by
  have hle := (List.takeWhile_prefix (l := (Libc.fgets (maxInslen - 1) file).1) (· ≠ '\x00')).length_le
  have hlt := Nat.lt_of_le_of_lt hle h
  have htake (k : Nat) := Nat.lt_of_le_of_lt (List.length_take_le' k
    ((Libc.fgets (maxInslen - 1) file).1.takeWhile (· ≠ '\x00'))) hlt
  rw [asmBuf_eq,← @stripLoop_all before _ hlt,readLine]
  simp only [Traced.all_bind,accessString_all,Traced.all_pure,h,hlt,htake,true_and,and_true]

-- a line of the file, as fgets and the loop after it see it
structure IsLine (l rest : Text) : Prop where
  nonempty : l ≠ []
  newline : '\n' ∉ l.dropLast
  last : '\n' ∈ l ∨ rest = []
  clean : '\x00' ∉ l

theorem textLines_isLine (h : file ≠ []) (hc : '\x00' ∉ file) : ∃ l rest, file = l ++ rest ∧
    textLines file = l :: textLines rest ∧ IsLine l rest := by
  obtain ⟨l,rest,rfl,ht,hne,hl,hr⟩ := textLines_cons h
  exact ⟨l,rest,rfl,ht,hne,hl,hr,fun hm => hc (List.mem_append_left rest hm)⟩

theorem IsLine.fgets (h : IsLine l rest) : Libc.fgets (maxInslen - 1) (l ++ rest) =
    (l.take (maxInslen - 1),l.drop (maxInslen - 1) ++ rest) := by
  rw [Libc.fgets_append h.newline h.last]

theorem IsLine.asmBuf (h : IsLine l rest) : Asm.asmBuf (l.take (maxInslen - 1)) =
    lineText (l.take (maxInslen - 1)) := by
  rw [asmBuf_eq,lineText,List.takeWhile_eq_self_iff.mpr]
  intro c hc
  refine decide_eq_true fun he => h.clean ?_
  exact he ▸ List.mem_of_mem_take hc

theorem IsLine.read_val (h : IsLine l rest) : (readLine before (l ++ rest)).val =
    (lineText (l.take (maxInslen - 1)),l.drop (maxInslen - 1) ++ rest) := by
  rw [readLine_val,h.fgets,h.asmBuf]

theorem IsLine.read_all (h : IsLine l rest) : (readLine before (l ++ rest)).All InBuf ↔
    lineText (l.take (maxInslen - 1)) ≠ [] := by
  have hlt : (l.take (maxInslen - 1)).length < maxInslen :=
    Nat.lt_of_le_of_lt (List.length_take_le ..) (by decide)
  rw [readLine_all (by rw [h.fgets]; exact hlt),h.fgets,h.asmBuf]

theorem IsLine.drop (h : IsLine l rest) (hlong : n < l.length) : IsLine (l.drop n) rest := by
  have hne : l.drop n ≠ [] := by simpa using hlong
  rw [← List.take_append_drop n l] at h
  obtain ⟨-,hnew,hlast,hclean⟩ := h
  rw [List.dropLast_append_of_ne_nil hne,List.mem_append,not_or] at hnew
  refine ⟨hne,hnew.2,hlast.imp_left fun hm => ?_,fun hm => hclean (List.mem_append_right _ hm)⟩
  exact (List.mem_append.mp hm).resolve_left hnew.1

theorem lineText_split (l : Text) : ∃ e, lineText l ++ e = l ∧ ∀ c ∈ e, isEol c = true :=
  ⟨_,List.rdropWhile_append_rtakeWhile,fun _ hc => List.mem_rtakeWhile_imp hc⟩

theorem lineText_append {t e : Text} (he : ∀ c ∈ e, isEol c = true) :
    lineText (t ++ e) = lineText t := by
  rw [lineText,lineText,List.rdropWhile,List.reverse_append,
    List.dropWhile_append_of_pos (by simpa using he)]
  rfl

theorem lineText_take : lineText (l.take n) = lineText l ↔ (lineText l).length ≤ n := by
  constructor
  · intro h
    rw [← h]
    exact (List.rdropWhile_prefix ..).length_le.trans (List.length_take_le ..)
  · intro h
    obtain ⟨e,he,heol⟩ := lineText_split l
    have ht : lineText (lineText l) = lineText l := List.rdropWhile_idempotent ..
    conv_lhs => rw [← he,List.take_append,List.take_of_length_le h]
    rw [lineText_append fun c hc => heol c (List.mem_of_mem_take hc),ht]

theorem lineText_drop (h : (lineText l).length ≤ n) : lineText ((l.drop n).take n) = [] := by
  obtain ⟨e,he,heol⟩ := lineText_split l
  refine List.rdropWhile_eq_nil_iff.mpr fun c hc => heol c ?_
  have hd := List.mem_of_mem_take hc
  rw [← he,List.drop_append,List.drop_of_length_le h] at hd
  exact List.mem_of_mem_drop hd

theorem IsLine.append_ne_nil (h : IsLine l rest) : l ++ rest ≠ [] := by simp [h.nonempty]

theorem IsLine.handed (h : IsLine l rest) : (assembleFrom before (n + 1) st (l ++ rest)).val.1 =
    lineText (l.take (maxInslen - 1)) :: match assembleLine st (lineText (l.take (maxInslen - 1))) with
      | .ok st => (assembleFrom before n st (l.drop (maxInslen - 1) ++ rest)).val.1
      | .error _ => [] := by
  rw [assembleFrom,if_neg h.append_ne_nil,Traced.val_bind,h.read_val]
  dsimp only
  cases assembleLine st (lineText (l.take (maxInslen - 1))) <;> rfl

theorem IsLine.turn_all (h : IsLine l rest) :
    (assembleFrom before (n + 1) st (l ++ rest)).All InBuf ↔ lineText (l.take (maxInslen - 1)) ≠ [] ∧
      match assembleLine st (lineText (l.take (maxInslen - 1))) with
      | .ok st => (assembleFrom before n st (l.drop (maxInslen - 1) ++ rest)).All InBuf
      | .error _ => True := by
  rw [assembleFrom,if_neg h.append_ne_nil,Traced.all_bind,h.read_all,h.read_val]
  refine and_congr_right fun _ => ?_
  dsimp only
  cases assembleLine st (lineText (l.take (maxInslen - 1))) with
  | error e => exact iff_of_true (Traced.all_pure _) trivial
  | ok st' =>
    rw [Traced.all_bind]
    exact and_iff_left (Traced.all_pure _)

theorem IsLine.tail_out (h : IsLine l rest) (hlong : maxInslen ≤ l.length)
    (ht : (lineText l).length ≤ maxInslen - 1) :
    ¬ (assembleFrom before (n + 1) st (l.drop (maxInslen - 1) ++ rest)).All InBuf := fun hall =>
  ((h.drop (Nat.lt_of_lt_of_le (by decide) hlong)).turn_all.mp hall).1 (lineText_drop ht)

theorem IsLine.turn_fits (h : IsLine l rest) (hfit : l.length < maxInslen)
    (ih : ∀ st, ((assembleFrom before n st rest).val.1 = parsedLines st (textLines rest) ∧
      (assembleFrom before n st rest).All InBuf) ↔ Readable st (textLines rest)) :
    ((assembleFrom before (n + 1) st (l ++ rest)).val.1 = parsedLines st (l :: textLines rest) ∧
      (assembleFrom before (n + 1) st (l ++ rest)).All InBuf) ↔ Readable st (l :: textLines rest) := by
  have htake : l.take (maxInslen - 1) = l := List.take_of_length_le (Nat.le_sub_one_of_lt hfit)
  have hdrop : l.drop (maxInslen - 1) = [] := List.drop_of_length_le (Nat.le_sub_one_of_lt hfit)
  have hle : (lineText l).length < maxInslen :=
    Nat.lt_of_le_of_lt (List.rdropWhile_prefix ..).length_le hfit
  rw [parsedLines,Readable,h.handed,h.turn_all,htake,hdrop,List.nil_append]
  cases assembleLine st (lineText l) with
  | error e => simp [hle]
  | ok st' =>
    simp only [List.cons.injEq,true_and,hfit]
    rw [← ih st']
    exact and_left_comm

theorem IsLine.turn_long (h : IsLine l rest) (hlong : maxInslen ≤ l.length) (hn : 0 < n) :
    ((assembleFrom before (n + 1) st (l ++ rest)).val.1 = parsedLines st (l :: textLines rest) ∧
      (assembleFrom before (n + 1) st (l ++ rest)).All InBuf) ↔ Readable st (l :: textLines rest) := by
  obtain ⟨n,rfl⟩ := Nat.exists_eq_add_one.mpr hn
  have hno := Nat.not_lt.mpr hlong
  rw [parsedLines,Readable,h.handed,h.turn_all]
  by_cases hle : (lineText l).length ≤ maxInslen - 1
  · rw [lineText_take.mpr hle]
    cases assembleLine st (lineText l) with
    | error e => simp [Nat.lt_of_le_of_lt hle (by decide : maxInslen - 1 < maxInslen)]
    | ok st' => exact iff_of_false (fun hr => h.tail_out hlong hle hr.2.2) fun hr => hno hr.2.1
  · refine iff_of_false (fun hr => hle (lineText_take.mp (List.cons.inj hr.1).1)) fun hr => ?_
    have h2 := hr.2
    cases ha : assembleLine st (lineText l) with
    | error e =>
      rw [ha] at h2
      exact hle (Nat.le_sub_one_of_lt h2)
    | ok st' =>
      rw [ha] at h2
      exact hno h2.1

theorem assembleFrom_iff (hc : '\x00' ∉ file) (hn : file.length ≤ n) :
    ((assembleFrom before n st file).val.1 = parsedLines st (textLines file) ∧
      (assembleFrom before n st file).All InBuf) ↔ Readable st (textLines file) := by
  induction n generalizing st file with
  | zero =>
    obtain rfl : file = [] := List.length_eq_zero_iff.mp (Nat.le_zero.mp hn)
    exact iff_of_true ⟨rfl,Traced.all_pure _⟩ trivial
  | succ n ih =>
    by_cases hf : file = []
    · subst hf
      exact iff_of_true ⟨rfl,Traced.all_pure _⟩ trivial
    · obtain ⟨l,rest,rfl,ht,hl⟩ := textLines_isLine hf hc
      rw [ht]
      have hrest : '\x00' ∉ rest := fun hm => hc (List.mem_append_right l hm)
      have hpos := List.length_pos_iff.mpr hl.nonempty
      rw [List.length_append] at hn
      rcases Nat.lt_or_ge l.length maxInslen with hfit | hlong
      · exact hl.turn_fits hfit fun st' => ih hrest (by omega)
      · have : 0 < maxInslen - 1 := by decide
        exact hl.turn_long hlong (by omega)

end Read

theorem reads_lines {before : List Char} {file : Text} (hc : '\x00' ∉ file) :
    let r := assembleFrom before file.length State.init file
    r.val.2 = assemble file ∧
      ((r.val.1 = parsedLines State.init (textLines file) ∧ r.All InBuf) ↔
        Readable State.init (textLines file)) :=
  ⟨assembleFrom_val,assembleFrom_iff hc (Nat.le_refl _)⟩

-- a blank line is looked for below asm_buf, and the end of a long comment is read as code
theorem reads_lines_fails :
    (let file := "nop\n\nhalt\n".toList
      let r := assembleFrom [] file.length State.init file
      ¬ (r.val.1 = parsedLines State.init (textLines file) ∧ r.All InBuf)) ∧
    let file := '#' :: List.replicate 520 'x'
    let r := assembleFrom [] file.length State.init file
    ¬ (r.val.1 = parsedLines State.init (textLines file) ∧ r.All InBuf) := by
  constructor
  · intro file r h
    exact absurd h.2 (by decide +kernel)
  · intro file r h
    exact absurd (congrArg List.length h.1) (by decide +kernel)

theorem reads_lines_crlf :
    let file := "nop\r\n halt\r\n".toList
    let r := assembleFrom [] file.length State.init file
    r.val.2 = assemble file ∧
      ((r.val.1 = parsedLines State.init (textLines file) ∧ r.All InBuf) ↔
        Readable State.init (textLines file)) :=
  reads_lines (by decide)

end Asm
