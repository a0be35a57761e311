import IcsLabs.Lib.Traced
import IcsLabs.Lib.CString
import Mathlib.Algebra.Ring.Nat

namespace Tsh
open CString

def maxLine : Nat := 1024
def maxArgs : Nat := 128

def quote : Char := Char.ofNat 39

-- while (*buf && (*buf == ' ')) buf++, at most k turns
def skipSpaces (array : Nat → Char) : Nat → Nat → Nat
  | 0, buf => buf
  | k + 1, buf => if array buf ≠ nul ∧ array buf = ' ' then skipSpaces array k (buf + 1) else buf

-- buf and delim from the next token on
def nextToken (array : Nat → Char) (buf : Nat) : Nat × Option Nat :=
  let buf := skipSpaces array maxLine buf
  if array buf = quote then (buf + 1,strchr array quote maxLine (buf + 1))
  else (buf,strchr array ' ' maxLine buf)

-- the pointers of argv are indices into array, none: NULL
structure Parse where
  array : Nat → Char
  argv : Nat → Option Nat
  argc : Nat

-- the trace holds the indices at which argv is written
def setArgv (i : Nat) (p : Option Nat) (s : Parse) : Traced Nat Parse :=
  ⟨{ s with argv := Function.update s.argv i p },[i]⟩

-- while (delim), at most k turns; none: it is not done then
def argLoop : Nat → Nat → Option Nat → Parse → Traced Nat (Option Parse)
  | _, _, none, s => return some s
  | 0, _, some _, _ => return none
  | k + 1, buf, some delim, s => do
    let s ← setArgv s.argc (some buf) s
    let array := Function.update s.array delim nul
    let t := nextToken array (delim + 1)
    argLoop k t.1 t.2 { s with array := array, argc := s.argc + 1 }

-- *argv[i]
def firstChar (s : Parse) (i : Nat) : Char := ((s.argv i).map s.array).getD nul

-- after the loop
def finish (s : Parse) : Traced Nat (Int × Parse) := do
  let s ← setArgv s.argc none s
  if s.argc = 0 then return (1,s)
  else if firstChar s (s.argc - 1) = '&' then
    let s ← setArgv (s.argc - 1) none { s with argc := s.argc - 1 }
    return (1,s)
  else return (0,s)

-- array and argv: what they hold before the call
def parseline (array : Nat → Char) (argv : Nat → Option Nat) (cmdline : List Char) :
    Traced Nat (Option (Int × Parse)) := do
  let array := Function.update (strcpy array cmdline) (cmdline.length - 1) ' '
  let t := nextToken array 0
  match ← argLoop maxLine t.1 t.2 ⟨array,argv,0⟩ with
  | none => return none
  | some s => do
    let r ← finish s
    return some r

section Holds

variable {a b : Nat → Char} {p k : Nat} {c : Char} {s t w : List Char}

theorem skipSpaces_eq (h : Holds a p s) (hk : s.length < k) :
    skipSpaces a k p = p + (s.takeWhile (· = ' ')).length := by
  induction s generalizing p k with
  | nil =>
    obtain ⟨k,rfl⟩ := Nat.exists_eq_add_one.mpr hk
    have h0 : a p = nul := h
    rw [skipSpaces,if_neg fun hc => hc.1 h0]
    rfl
  | cons c s ih =>
    obtain ⟨k,rfl⟩ := Nat.exists_eq_add_one.mpr (Nat.zero_lt_of_lt hk)
    obtain ⟨h0,hs⟩ := h
    rw [skipSpaces,h0]
    by_cases hc : c = ' '
    · subst hc
      rw [if_pos ⟨by decide,rfl⟩,ih hs (Nat.lt_of_succ_lt_succ hk),List.takeWhile_cons_of_pos (by simp),
        List.length_cons]
      omega
    · rw [if_neg fun h => hc h.2,List.takeWhile_cons_of_neg (by simpa using hc)]
      rfl

theorem nextToken_blank (h : Holds a p (' ' :: s)) (hk : s.length + 1 < maxLine) :
    nextToken a p = nextToken a (p + 1) := by
  have hskip : skipSpaces a maxLine p = skipSpaces a maxLine (p + 1) := by
    rw [skipSpaces_eq h hk,skipSpaces_eq h.2 (Nat.lt_of_succ_lt hk),
      List.takeWhile_cons_of_pos (by simp),List.length_cons]
    omega
  rw [nextToken,nextToken,hskip]

theorem skipSpaces_here (h : Holds a p s) (hs : s.head? ≠ some ' ') (hk : s.length < k) :
    skipSpaces a k p = p := by
  rw [skipSpaces_eq h hk]
  cases s with
  | nil => rfl
  | cons c s =>
    rw [List.takeWhile_cons_of_neg (by simpa using hs)]
    rfl

theorem nextToken_end (h : Holds a p []) : nextToken a p = (p,none) := by
  have h0 : a p = nul := h
  rw [nextToken,skipSpaces_here h (by simp) (by decide),h0,if_neg (by decide),
    @strchr_none a p maxLine ' ' [] h List.not_mem_nil (by decide)]

theorem head_quote (s : List Char) : (quote :: s).head? ≠ some ' ' := by
  rw [List.head?_cons]
  decide

theorem nextToken_unclosed (h : Holds a p (quote :: s)) (hs : quote ∉ s) (hk : s.length + 1 < maxLine) :
    nextToken a p = (p + 1,none) := by
  rw [nextToken,skipSpaces_here h (head_quote s) hk,if_pos h.1,strchr_none h.2 hs (by decide)]

theorem nextToken_quoted (h : Holds a p (quote :: (w ++ quote :: s))) (hw : quote ∉ w) (hn : nul ∉ w)
    (hk : w.length + s.length + 2 < maxLine) : nextToken a p = (p + 1,some (p + 1 + w.length)) := by
  rw [nextToken,skipSpaces_here h (head_quote _) (by simp; omega),if_pos h.1,
    strchr_found h.2 hw hn (by omega)]

theorem nextToken_word (h : Holds a p (w ++ ' ' :: s)) (hne : w ≠ []) (hq : w.head? ≠ some quote)
    (hw : ' ' ∉ w) (hn : nul ∉ w) (hk : w.length + s.length + 1 < maxLine) :
    nextToken a p = (p,some (p + w.length)) := by
  obtain ⟨c,w,rfl⟩ := List.exists_cons_of_ne_nil hne
  have hc : c ≠ ' ' := fun hc => hw (by simp [hc])
  have hcq : c ≠ quote := fun hc => hq (by simp [hc])
  rw [nextToken,skipSpaces_here h (by simpa using hc) (by simp at hk ⊢; omega),h.1,if_neg hcq,
    strchr_found h hw hn (by omega)]

end Holds

end Tsh
