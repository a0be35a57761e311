import IcsLabs.Lib.Conversion
import Mathlib.Algebra.Ring.Int.Defs
import Mathlib.Algebra.Ring.Nat
import Mathlib.Data.Nat.Digits.Defs

namespace Libc

-- character codes; isspace and isdigit in the C locale
def isSpace (c : Nat) : Bool := c = 32 ∨ 9 ≤ c ∧ c ≤ 13
def isDigit (c : Nat) : Bool := 48 ≤ c ∧ c ≤ 57

def decimal (s : List Nat) : Nat :=
  (s.takeWhile isDigit).foldl (fun n c => n * 10 + (c - 48)) 0

-- strtol in base 10, saturating
def clamp (n : Int) : Int :=
  if n < -2 ^ 63 then -2 ^ 63 else if n ≥ 2 ^ 63 then 2 ^ 63 - 1 else n

def strtol (s : List Nat) : Int :=
  match s.dropWhile isSpace with
  | 45 :: s => clamp (-(decimal s : Int))
  | 43 :: s => clamp (decimal s)
  | s => clamp (decimal s)

def atoi (s : List Nat) : Int := (strtol s).bmod (2 ^ 32)

-- %d of a positive number
def digitCodes (n : Nat) : List Nat := (Nat.digits 10 n).reverse.map (48 + ·)

-- the value of a letter or digit as a digit, 36 for any other character
def digitOf (c : Char) : Nat :=
  if '0' ≤ c ∧ c ≤ '9' then c.toNat - 48
  else if 'a' ≤ c ∧ c ≤ 'z' then c.toNat - 87
  else if 'A' ≤ c ∧ c ≤ 'Z' then c.toNat - 55
  else 36

def signOf : List Char → Bool × List Char
  | '-' :: s => (true,s)
  | '+' :: s => (false,s)
  | s => (false,s)

def baseOf : List Char → Nat × List Char
  | '0' :: x :: d :: s =>
    if (x = 'x' ∨ x = 'X') ∧ digitOf d < 16 then (16,d :: s) else (8,'0' :: x :: d :: s)
  | '0' :: s => (8,'0' :: s)
  | s => (10,s)

-- strtoull in base 0: the value and what follows the number, the whole string where there is none
def strtoull (s : List Char) : BitVec 64 × List Char :=
  let (neg,t) := signOf (s.dropWhile fun c => isSpace c.toNat)
  let (base,t) := baseOf t
  let ds := t.takeWhile fun c => digitOf c < base
  if ds = [] then (0,s)
  else
    let n := ds.foldl (fun n c => n * base + digitOf c) 0
    let v := if n < 2 ^ 64 then BitVec.ofNat 64 n else BitVec.allOnes 64
    (if n < 2 ^ 64 ∧ neg then -v else v,t.dropWhile fun c => digitOf c < base)

def skipHexMark : List Char → List Char
  | '0' :: x :: d :: s => if (x = 'x' ∨ x = 'X') ∧ digitOf d < 16 then d :: s else '0' :: x :: d :: s
  | s => s

-- strtoll in base 16, saturating
def strtollHex (s : List Char) : Int :=
  let (neg,t) := signOf (s.dropWhile fun c => isSpace c.toNat)
  let ds := (skipHexMark t).takeWhile fun c => digitOf c < 16
  let n := ds.foldl (fun n c => n * 16 + digitOf c) 0
  clamp (if neg then -n else n)

-- fgets with room for n characters: what it stores, and what it leaves
def fgets : Nat → List Char → List Char × List Char
  | 0, s => ([],s)
  | _, [] => ([],[])
  | n + 1, c :: s =>
    if c = '\n' then ([c],s)
    else
      let (line,rest) := fgets n s
      (c :: line,rest)

theorem strtoull_suffix (s : List Char) : (strtoull s).2 <:+ s := by
  have hsign (s : List Char) : (signOf s).2 <:+ s := by
    unfold signOf
    split
    · exact List.suffix_cons _ _
    · exact List.suffix_cons _ _
    · exact List.suffix_rfl
  have hbase (s : List Char) : (baseOf s).2 <:+ s := by
    unfold baseOf
    split
    · split
      · exact (List.suffix_cons _ _).trans (List.suffix_cons _ _)
      · exact List.suffix_rfl
    · exact List.suffix_rfl
    · exact List.suffix_rfl
  simp only [strtoull]
  split
  · exact List.suffix_rfl
  · exact (List.dropWhile_suffix _).trans ((hbase _).trans ((hsign _).trans (List.dropWhile_suffix _)))

example : strtoull "-0x1F)".toList = (-31,[')']) := by decide +kernel

section Fgets

variable {n : Nat} {line rest : List Char}

-- a line, whole or up to n characters of it; only the last one may lack its newline
theorem fgets_append (hl : '\n' ∉ line.dropLast) (hr : '\n' ∈ line ∨ rest = []) :
    fgets n (line ++ rest) = (line.take n,line.drop n ++ rest) := by
  induction line generalizing n with
  | nil =>
    obtain rfl := hr.resolve_left List.not_mem_nil
    cases n <;> rfl
  | cons c line ih =>
    cases n with
    | zero => rfl
    | succ n =>
      rw [List.cons_append,fgets]
      split
      · rename_i hc
        cases line with
        | nil => cases n <;> rfl
        | cons d line => simp [hc] at hl
      · rename_i hc
        have hl' : '\n' ∉ line.dropLast := fun hm => hl <| by
          cases line with
          | nil => cases hm
          | cons d line => exact List.mem_cons_of_mem c hm
        have hr' : '\n' ∈ line ∨ rest = [] :=
          hr.imp_left fun hm => (List.mem_cons.mp hm).resolve_left (Ne.symm hc)
        rw [ih hl' hr']
        rfl

theorem fgets_split (n : Nat) (s : List Char) : (fgets n s).1 ++ (fgets n s).2 = s := by
  induction s generalizing n with
  | nil => cases n <;> rfl
  | cons c s ih =>
    cases n with
    | zero => rfl
    | succ n =>
      rw [fgets]
      split
      · rfl
      · exact congrArg (List.cons c) (ih n)

theorem fgets_ne_nil (hn : 0 < n) (hs : rest ≠ []) : (fgets n rest).1 ≠ [] := by
  obtain ⟨n,rfl⟩ := Nat.exists_eq_add_one.mpr hn
  obtain ⟨c,s,rfl⟩ := List.exists_cons_of_ne_nil hs
  rw [fgets]
  split <;> exact List.cons_ne_nil _ _

-- one call takes at most one newline
theorem fgets_count (n : Nat) (s : List Char) : (fgets n s).1.count '\n' ≤ 1 := by
  induction s generalizing n with
  | nil => cases n <;> exact Nat.zero_le 1
  | cons c s ih =>
    cases n with
    | zero => exact Nat.zero_le 1
    | succ n =>
      rw [fgets]
      split
      · exact List.count_le_length
      · rename_i hc
        rw [List.count_cons_of_ne hc]
        exact ih n

theorem fgets_line (hl : '\n' ∉ line) (hn : line.length < n) :
    fgets n (line ++ '\n' :: rest) = (line ++ ['\n'],rest) := by
  have h := @fgets_append n (line ++ ['\n']) rest (by simpa using hl) (Or.inl (by simp))
  rw [List.take_of_length_le (by simp; omega),List.drop_of_length_le (by simp; omega)] at h
  simpa using h

end Fgets

variable {n c : Nat}

theorem digitCodes_ge (h : c ∈ digitCodes n) : 48 ≤ c := by
  obtain ⟨d,-,rfl⟩ := List.mem_map.mp h
  omega

theorem digitCodes_lt (h : c ∈ digitCodes n) : c < 58 := by
  obtain ⟨d,hd,rfl⟩ := List.mem_map.mp h
  have hlt := Nat.digits_lt_base (by omega) (List.mem_reverse.mp hd)
  omega

theorem digitCodes_ne_nil (h : 0 < n) : digitCodes n ≠ [] := by
  have hd : Nat.digits 10 n ≠ [] := Nat.digits_ne_nil_iff_ne_zero.mpr (by omega)
  simpa [digitCodes] using hd

theorem foldl_digits (ds : List Nat) :
    (ds.reverse.map (48 + ·)).foldl (fun n c => n * 10 + (c - 48)) 0 = Nat.ofDigits 10 ds := by
  induction ds with
  | nil => rfl
  | cons d ds ih =>
    rw [List.reverse_cons,List.map_append,List.foldl_append,ih,Nat.ofDigits_cons]
    simp only [List.map_cons,List.map_nil,List.foldl_cons,List.foldl_nil]
    omega

theorem decimal_digitCodes (n : Nat) (rest : List Nat) (hr : rest.takeWhile isDigit = []) :
    decimal (digitCodes n ++ rest) = n := by
  have hd : ∀ c ∈ digitCodes n, isDigit c = true := fun c hc => by
    have hge := digitCodes_ge hc
    have hlt := digitCodes_lt hc
    simp only [isDigit,decide_eq_true_eq]
    omega
  rw [decimal,List.takeWhile_append_of_pos hd,hr,List.append_nil,digitCodes,foldl_digits,
    Nat.ofDigits_digits]

theorem atoi_digitCodes (h0 : 0 < n) (hn : n < 2 ^ 31) (blank : Nat) (rest : List Nat)
    (hb : isSpace blank = true) (hr : rest.takeWhile isDigit = []) :
    atoi (blank :: digitCodes n ++ rest) = n := by
  cases hc : digitCodes n with
  | nil => exact absurd hc (digitCodes_ne_nil h0)
  | cons c cs =>
    have hge : 48 ≤ c := digitCodes_ge (n := n) (by simp [hc])
    have hlt : c < 58 := digitCodes_lt (n := n) (by simp [hc])
    have hskip : ((blank :: c :: cs) ++ rest).dropWhile isSpace = c :: (cs ++ rest) := by
      have hsp : isSpace c = false := by
        simp only [isSpace,decide_eq_false_iff_not]
        omega
      simp [hb,hsp]
    have hdec := decimal_digitCodes n rest hr
    rw [hc,List.cons_append] at hdec
    have hclamp : strtol ((blank :: c :: cs) ++ rest) = n := by
      rw [strtol,hskip]
      split
      · rename_i heq
        have := (List.cons.inj heq).1
        omega
      · rename_i heq
        have := (List.cons.inj heq).1
        omega
      · rw [hdec,clamp,if_neg (by omega),if_neg (by omega)]
    rw [atoi,hclamp,Int.bmod_eq_of_le (by omega) (by omega)]

end Libc
