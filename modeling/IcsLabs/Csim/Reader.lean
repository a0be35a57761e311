import IcsLabs.Lib.Numeral
import IcsLabs.Lib.Traced

namespace Csim.Reader
open Libc

-- a read of line[i], where fgets stored len characters, and a write to str[i]
inductive Event where
  | line (len i : Nat)
  | str (i : Nat)
deriving DecidableEq

def Event.Inside : Event → Prop
  | .line len i => i < len
  | .str i => i < 10

instance : DecidablePred Event.Inside
  | .line _ _ => inferInstanceAs (Decidable (_ < _))
  | .str _ => inferInstanceAs (Decidable (_ < _))

abbrev Trace := Traced Event

-- line[i], none past the end of the array
def charAt (len : Nat) (line : List Char) (i : Nat) : Trace (Option Char) := ⟨(line)[i]?,[.line len i]⟩

def put (str : List Char) (i : Nat) (c : Char) : Trace (List Char) := ⟨str.set i c,[.str i]⟩

-- for (; line[i] != ','; i++) str[i - 3] = line[i], at most n turns
def copyAddress (len : Nat) (line : List Char) : Nat → Nat → List Char → Trace (List Char)
  | 0, _, str => return str
  | n + 1, i, str => do
    match ← charAt len line i with
    | none => return str
    | some c =>
      if c = ',' then return str
      else
        let str ← put str (i - 3) c
        copyAddress len line n (i + 1) str

-- the body of the loop of main; behind str lies what the stack holds
def readAccess (stack : List Char) (len : Nat) (line : List Char) : Trace (Char × Int) := do
  let action ← charAt len line 1
  let str := List.replicate 10 '\x00' ++ stack
  let str ← copyAddress len line line.length 3 str
  return (action.getD '\x00',strtollHex (str.takeWhile (· ≠ '\x00')))

-- line[120] once fgets has stored text and its end mark
def storeLine (text line : List Char) : List Char :=
  text ++ '\x00' :: line.drop (text.length + 1)

-- the calls of addressCache
def readTrace (stack : List Char) : Nat → List Char → List Char → Trace (List (Char × Int))
  | 0, _, _ => return []
  | n + 1, line, file =>
    if file = [] then return []
    else do
      let (text,file) := fgets 99 file
      let line := storeLine text line
      let call ← readAccess stack text.length line
      let calls ← readTrace stack n line file
      return call :: calls

-- ' X hexaddr,size'
structure TraceLine where
  op : Char
  digits : List Char
  size : List Char
  isOp : op = 'L' ∨ op = 'S' ∨ op = 'M'
  hex : digits ∈ digitsOf 16
  nonempty : digits ≠ []
  short : digits.length ≤ 16
  oneLine : '\n' ∉ size

def TraceLine.text (l : TraceLine) : List Char := ' ' :: l.op :: ' ' :: l.digits ++ ',' :: l.size

def TraceLine.call (l : TraceLine) : Char × Int := (l.op,hexValue l.digits)

def fileOf (ls : List TraceLine) : List Char := ls.flatMap fun l => l.text ++ ['\n']

section Copy

variable {len n i : Nat} {line ds post pre rest : List Char}

theorem copyAddress_val (hl : line.drop i = ds ++ ',' :: post) (hc : ',' ∉ ds) (hn : ds.length < n)
    (hp : pre.length + 3 = i) (hr : ds.length ≤ rest.length) :
    (copyAddress len line n i (pre ++ rest)).val = pre ++ (ds ++ rest.drop ds.length) := by
  induction ds generalizing n i pre rest with
  | nil =>
    obtain ⟨n,rfl⟩ : ∃ m, n = m + 1 := ⟨n - 1,by simp at hn; omega⟩
    have h0 : (line)[i]? = some ',' := by rw [← List.head?_drop,hl]; rfl
    simp [copyAddress,charAt,h0]
  | cons c ds ih =>
    obtain ⟨n,rfl⟩ : ∃ m, n = m + 1 := ⟨n - 1,by omega⟩
    obtain ⟨x,rest,rfl⟩ : ∃ x xs, rest = x :: xs := List.exists_cons_of_length_pos (by simp at hr; omega)
    simp only [List.mem_cons,not_or,List.length_cons] at hc hn hr
    have h0 : (line)[i]? = some c := by rw [← List.head?_drop,hl]; rfl
    have hset : (pre ++ x :: rest).set (i - 3) c = (pre ++ [c]) ++ rest := by
      rw [List.set_append_right _ _ (by omega),show i - 3 - pre.length = 0 by omega]
      simp
    have hd : line.drop (i + 1) = ds ++ ',' :: post := by
      rw [← List.drop_drop,hl]
      rfl
    simp only [copyAddress,charAt,put,h0,Traced.val_bind,if_neg (Ne.symm hc.1),hset]
    rw [ih hd hc.2 (by omega) (by simp; omega) (by omega)]
    simp

theorem copyAddress_all {str : List Char} {p : Nat} (hl : line.drop (p + 3) = ds ++ ',' :: post)
    (hc : ',' ∉ ds) (hn : ds.length < n) (hlen : p + 3 + ds.length < len) :
    (copyAddress len line n (p + 3) str).All Event.Inside ↔ ∀ k < ds.length, p + k < 10 := by
  induction ds generalizing n p str with
  | nil =>
    obtain ⟨n,rfl⟩ : ∃ m, n = m + 1 := ⟨n - 1,by simp at hn; omega⟩
    have h0 : (line)[p + 3]? = some ',' := by rw [← List.head?_drop,hl]; rfl
    have hi : Event.Inside (.line len (p + 3)) := hlen
    simp [copyAddress,charAt,h0,hi]
  | cons c ds ih =>
    obtain ⟨n,rfl⟩ : ∃ m, n = m + 1 := ⟨n - 1,by omega⟩
    simp only [List.mem_cons,not_or,List.length_cons] at hc hn hlen
    have h0 : (line)[p + 3]? = some c := by rw [← List.head?_drop,hl]; rfl
    have hd : line.drop (p + 1 + 3) = ds ++ ',' :: post := by
      rw [show p + 1 + 3 = p + 3 + 1 by omega,← List.drop_drop,hl]
      rfl
    have hi : Event.Inside (.line len (p + 3)) := show p + 3 < len by omega
    have hs : Event.Inside (.str (p + 3 - 3)) ↔ p < 10 := Iff.rfl
    have hrest (str : List Char) := @ih n str (p + 1) hd hc.2 (by omega) (by omega)
    rw [show p + 1 + 3 = p + 3 + 1 by omega] at hrest
    simp only [copyAddress,charAt,put,h0,Traced.all_bind,Traced.all_mk,hi,if_neg (Ne.symm hc.1),
      true_and,hrest,List.length_cons,hs]
    rw [Nat.forall_lt_succ_left]
    simp only [Nat.add_zero,Nat.add_assoc,Nat.add_comm 1]

end Copy

section Line

variable {stack line file : List Char} {c : Char} {n : Nat}

theorem TraceLine.digit_ne (l : TraceLine) (hc : digitOf c = 36) : c ∉ l.digits := by
  intro hm
  have h : digitOf c < 16 := by simpa using l.hex c hm
  omega

theorem TraceLine.newline_not_mem (l : TraceLine) : '\n' ∉ l.text := by
  have hop : '\n' ≠ l.op := by rcases l.isOp with h | h | h <;> simp [h]
  have hd : '\n' ∉ l.digits := l.digit_ne (by decide)
  simp [TraceLine.text,hop,hd,l.oneLine]

-- what fgets leaves in line for l
def TraceLine.stored (l : TraceLine) (line : List Char) : List Char :=
  storeLine (l.text ++ ['\n']) line

theorem TraceLine.stored_drop (l : TraceLine) (line : List Char) :
    ∃ post, (l.stored line).drop 3 = l.digits ++ ',' :: post ∧
      l.digits.length < (l.stored line).length :=
  ⟨l.size ++ '\n' :: '\x00' :: line.drop ((l.text ++ ['\n']).length + 1),
    by simp [TraceLine.stored,storeLine,TraceLine.text],
    by simp [TraceLine.stored,storeLine,TraceLine.text]; omega⟩

theorem TraceLine.stored_op (l : TraceLine) (line : List Char) : (l.stored line)[1]? = some l.op := rfl

def TraceLine.read (l : TraceLine) (stack line : List Char) : Trace (Char × Int) :=
  readAccess stack (l.text.length + 1) (l.stored line)

theorem TraceLine.read_all (l : TraceLine) :
    (l.read stack line).All Event.Inside ↔ l.digits.length ≤ 10 := by
  obtain ⟨post,hdrop,hlen⟩ := l.stored_drop line
  have h1 : Event.Inside (.line (l.text.length + 1) 1) := show 1 < _ by simp [TraceLine.text]
  have hcopy := @copyAddress_all (l.text.length + 1) _ _ l.digits post
    (List.replicate 10 '\x00' ++ stack) 0 hdrop (l.digit_ne (by decide)) hlen
    (by simp [TraceLine.text]; omega)
  simp only [TraceLine.read,readAccess,charAt,Traced.all_bind,Traced.all_mk,Traced.all_pure,h1,
    true_and,and_true]
  refine hcopy.trans ⟨fun h => ?_,fun h k hk => by omega⟩
  by_contra hd
  exact absurd (h 10 (by omega)) (by decide)

theorem TraceLine.read_val (l : TraceLine) (hd : l.digits.length ≤ 10) :
    (l.read stack line).val = (l.op,strtollHex
      ((l.digits ++ (List.replicate (10 - l.digits.length) '\x00' ++ stack)).takeWhile
        (· ≠ '\x00'))) := by
  obtain ⟨post,hdrop,hlen⟩ := l.stored_drop line
  have hcopy := @copyAddress_val (l.text.length + 1) _ 3 _ l.digits post []
    (List.replicate 10 '\x00' ++ stack) hdrop (l.digit_ne (by decide)) hlen rfl (by simp; omega)
  rw [List.nil_append,List.nil_append,List.drop_append_of_le_length (by simpa using hd),
    List.drop_replicate] at hcopy
  simp only [TraceLine.read,readAccess,charAt,Traced.val_bind,Traced.val_pure,hcopy,l.stored_op]
  rfl

theorem TraceLine.takeWhile_digits (l : TraceLine) (rest : List Char) :
    (l.digits ++ rest).takeWhile (· ≠ '\x00') = l.digits ++ rest.takeWhile (· ≠ '\x00') := by
  refine List.takeWhile_append_of_pos fun c hc => decide_eq_true fun h => ?_
  exact l.digit_ne (c := '\x00') (by decide) (h ▸ hc)

-- ten digits fill str, and the number runs on into what lies behind it
theorem TraceLine.read_iff (l : TraceLine) (line : List Char) :
    (∀ stack, (l.read stack line).val = l.call ∧ (l.read stack line).All Event.Inside) ↔
      l.digits.length ≤ 9 := by
  constructor
  · intro h
    obtain ⟨hv,ha⟩ := h ['f']
    have h10 := l.read_all.mp ha
    by_contra hd
    have hz : 10 - l.digits.length = 0 := by omega
    have hlong : l.digits ++ ['f'] ∈ digitsOf 16 := by
      intro c hc
      rcases List.mem_append.mp hc with hc | hc
      · exact l.hex c hc
      · obtain rfl : c = 'f' := by simpa using hc
        decide
    rw [l.read_val h10,hz,l.takeWhile_digits] at hv
    have hs := (Prod.mk.inj hv).2
    have he : strtollHex (l.digits ++ ['f']) = hexValue l.digits := hs
    rw [strtollHex_digits hlong (by simp; omega),hexValue_concat] at he
    have hf : digitOf 'f' = 15 := by decide
    omega
  · intro hd stack
    refine ⟨?_,l.read_all.mpr (by omega)⟩
    obtain ⟨k,hk⟩ : ∃ k, 10 - l.digits.length = k + 1 := ⟨9 - l.digits.length,by omega⟩
    rw [l.read_val (by omega),hk,l.takeWhile_digits,List.replicate_succ,List.cons_append,
      List.takeWhile_cons_of_neg (by simp),List.append_nil,
      strtollHex_digits l.hex (by omega)]
    rfl

theorem fileOf_cons (l : TraceLine) (ls : List TraceLine) :
    fileOf (l :: ls) = l.text ++ '\n' :: fileOf ls := by
  simp [fileOf]

theorem readTrace_cons (l : TraceLine) (ls : List TraceLine) (hl : l.text.length + 1 < 100) :
    readTrace stack (n + 1) line (fileOf (l :: ls)) = do
      let call ← l.read stack line
      let calls ← readTrace stack n (l.stored line) (fileOf ls)
      return call :: calls := by
  have hne : l.text ++ '\n' :: fileOf ls ≠ [] := by simp
  have hg : fgets 99 (l.text ++ '\n' :: fileOf ls) = (l.text ++ ['\n'],fileOf ls) :=
    fgets_line l.newline_not_mem (by omega)
  rw [readTrace,fileOf_cons,if_neg hne,hg]
  simp only [List.length_append,List.length_singleton]
  rfl

theorem count_fileOf (ls : List TraceLine) : ls.length ≤ (fileOf ls).count '\n' := by
  induction ls with
  | nil => exact Nat.zero_le _
  | cons l ls ih =>
    rw [fileOf_cons,List.count_append,List.count_cons_self,List.length_cons]
    omega

theorem readTrace_step (hf : file ≠ []) : ∃ line', (readTrace stack (n + 1) line file).val.length =
    (readTrace stack n line' (fgets 99 file).2).val.length + 1 :=
  ⟨storeLine (fgets 99 file).1 line,by rw [readTrace,if_neg hf]; rfl⟩

theorem readTrace_length (hn : file.length ≤ n) (line : List Char) :
    file.count '\n' ≤ (readTrace stack n line file).val.length := by
  induction n generalizing file line with
  | zero =>
    obtain rfl := List.length_eq_zero_iff.mp (Nat.le_zero.mp hn)
    exact Nat.zero_le _
  | succ n ih =>
    by_cases hf : file = []
    · subst hf
      exact Nat.zero_le _
    · obtain ⟨line',hlen⟩ := @readTrace_step stack line file n hf
      have hsplit := fgets_split 99 file
      have hpos := List.length_pos_iff.mpr (fgets_ne_nil (by decide : 0 < 99) hf)
      have hone := fgets_count 99 file
      have hl := congrArg List.length hsplit
      have hc := congrArg (List.count '\n') hsplit
      rw [List.length_append] at hl
      rw [List.count_append] at hc
      have hrest := @ih (fgets 99 file).2 (by omega) line'
      omega

theorem readTrace_long (l : TraceLine) (ls : List TraceLine) (hlong : ¬ l.text.length + 1 < 100)
    (hn : (fileOf (l :: ls)).length ≤ n + 1) :
    (l :: ls).length < (readTrace stack (n + 1) line (fileOf (l :: ls))).val.length := by
  have hfile : fileOf (l :: ls) = (l.text ++ ['\n']) ++ fileOf ls := by simp [fileOf_cons]
  have hne : fileOf (l :: ls) ≠ [] := by simp [hfile]
  have hg : fgets 99 (fileOf (l :: ls)) =
      ((l.text ++ ['\n']).take 99,(l.text ++ ['\n']).drop 99 ++ fileOf ls) := by
    rw [hfile]
    exact fgets_append (by simpa using l.newline_not_mem) (Or.inl (by simp))
  have hdrop : (l.text ++ ['\n']).drop 99 = l.text.drop 99 ++ ['\n'] :=
    List.drop_append_of_le_length (by omega)
  obtain ⟨line',hlen⟩ := @readTrace_step stack line _ n hne
  rw [hg,hdrop] at hlen
  dsimp only at hlen
  have hle : (l.text.drop 99 ++ ['\n'] ++ fileOf ls).length ≤ n := by
    rw [hfile,List.length_append,List.length_append] at hn
    simp only [List.length_append,List.length_drop]
    omega
  have hrest := @readTrace_length stack _ n hle line'
  have hcount := count_fileOf ls
  rw [List.count_append,List.count_append,List.count_singleton_self] at hrest
  rw [List.length_cons,hlen]
  omega

theorem readTrace_iff (ls : List TraceLine) (hn : (fileOf ls).length ≤ n) (line : List Char) :
    (∀ stack, (readTrace stack n line (fileOf ls)).val = ls.map TraceLine.call ∧
      (readTrace stack n line (fileOf ls)).All Event.Inside) ↔
        ∀ l ∈ ls, l.digits.length ≤ 9 ∧ l.text.length + 1 < 100 := by
  induction ls generalizing n line with
  | nil =>
    have he (stack : List Char) : readTrace stack n line (fileOf []) = return [] := by
      cases n <;> rfl
    simp [he]
  | cons l ls ih =>
    have hlen := congrArg List.length (fileOf_cons l ls)
    rw [List.length_append,List.length_cons] at hlen
    obtain ⟨n,rfl⟩ : ∃ m, n = m + 1 := ⟨n - 1,by omega⟩
    by_cases hl : l.text.length + 1 < 100
    · have hrest := @ih n (by omega) (l.stored line)
      rw [List.forall_mem_cons,and_iff_left hl,← l.read_iff line,← hrest,← forall_and]
      refine forall_congr' fun stack => ?_
      rw [readTrace_cons l ls hl]
      simp only [Traced.val_bind,Traced.val_pure,Traced.all_bind,Traced.all_pure,and_true,
        List.map_cons,List.cons.injEq]
      exact and_and_and_comm
    · refine iff_of_false (fun h => ?_) fun h => hl (h l List.mem_cons_self).2
      have hlt := @readTrace_long [] line n l ls hl hn
      rw [(h []).1,List.length_map] at hlt
      exact Nat.lt_irrefl _ hlt

end Line

theorem trace_read (ls : List TraceLine) :
    (∀ stack, let r := readTrace stack (fileOf ls).length (List.replicate 120 '\x00') (fileOf ls)
      r.val = ls.map TraceLine.call ∧ r.All Event.Inside) ↔
        ∀ l ∈ ls, l.digits.length ≤ 9 ∧ l.text.length + 1 < 100 :=
  readTrace_iff ls (Nat.le_refl _) _

-- ' L 04222cac80,8'
def tenDigits : TraceLine where
  op := 'L'
  digits := "04222cac80".toList
  size := ['8']
  isOp := by decide
  hex := by
    have h : "04222cac80".toList.all (fun c => digitOf c < 16) = true := by decide
    exact List.all_eq_true.mp h
  nonempty := by decide
  short := by decide
  oneLine := by decide

theorem trace_read_ten : ¬ ∀ stack,
    let r := readTrace stack (fileOf [tenDigits]).length (List.replicate 120 '\x00')
      (fileOf [tenDigits])
    r.val = [tenDigits].map TraceLine.call ∧ r.All Event.Inside := by
  intro h
  have hv := (h ['f']).1
  revert hv
  decide +kernel

end Csim.Reader
