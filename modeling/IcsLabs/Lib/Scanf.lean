import IcsLabs.Lib.Numeral

namespace Libc

def blank (c : Char) : Bool := isSpace c.toNat

def decimalValue (ds : List Char) : Nat := ds.foldl (fun n c => n * 10 + digitOf c) 0

-- what fscanf takes for a number, its sign and its digits, and what it leaves
def scanNumber (s : List Char) : Option (Bool × List Char) × List Char :=
  let (neg,t) := signOf (s.dropWhile blank)
  let ds := t.takeWhile fun c => digitOf c < 10
  (if ds = [] then none else some (neg,ds),t.dropWhile fun c => digitOf c < 10)

-- %d: as by strtol, stored in an int
def intOf (x : Bool × List Char) : Int :=
  (clamp (if x.1 then -(decimalValue x.2 : Int) else decimalValue x.2)).bmod (2 ^ 32)

-- %u: as by strtoul, stored in an unsigned int
def unsignedOf (x : Bool × List Char) : Nat :=
  let n := decimalValue x.2
  if n < 2 ^ 64 then (if x.1 then 2 ^ 64 - n else n) % 2 ^ 32 else 2 ^ 32 - 1

def scanInt (s : List Char) : Option Int × List Char := (scanNumber s).map (Option.map intOf) id

def scanUnsigned (s : List Char) : Option Nat × List Char :=
  (scanNumber s).map (Option.map unsignedOf) id

-- %s: none at the end of the file
def scanWord (s : List Char) : Option (List Char × List Char) :=
  let t := s.dropWhile blank
  if t = [] then none else some (t.takeWhile fun c => !blank c,t.dropWhile fun c => !blank c)

-- a text and its words, set apart by blanks
inductive Spaced : List (List Char) → List Char → Prop
  | nil {gap} (hg : ∀ c ∈ gap, blank c = true) : Spaced [] gap
  | cons {gap w ws rest} (hg : ∀ c ∈ gap, blank c = true) (hw : w ≠ [])
      (hc : ∀ c ∈ w, blank c = false) (hr : ∀ c ∈ rest.head?, blank c = true)
      (h : Spaced ws rest) : Spaced (w :: ws) (gap ++ (w ++ rest))

-- n in base 10, with any zeros before it
def Spells (n : Nat) (w : List Char) : Prop := w ≠ [] ∧ w ∈ digitsOf 10 ∧ decimalValue w = n

variable {s w gap rest : List Char} {ws : List (List Char)} {n : Nat} {p : Char → Bool}

theorem dropWhile_gap (hg : ∀ c ∈ gap, p c = true) (hr : ∀ c ∈ rest.head?, p c = false) :
    (gap ++ rest).dropWhile p = rest := by
  rw [List.dropWhile_append_of_pos hg]
  cases rest with
  | nil => rfl
  | cons c rest => exact List.dropWhile_cons_of_neg (by simp [hr c rfl])

theorem takeWhile_word (hw : ∀ c ∈ w, p c = true) (hr : ∀ c ∈ rest.head?, p c = false) :
    (w ++ rest).takeWhile p = w := by
  rw [List.takeWhile_append_of_pos hw]
  cases rest with
  | nil => simp
  | cons c rest => rw [List.takeWhile_cons_of_neg (by simp [hr c rfl]),List.append_nil]

theorem head_append {b : Bool} (hw : w ≠ []) (hc : ∀ c ∈ w, p c = b) :
    ∀ c ∈ (w ++ rest).head?, p c = b := by
  intro c hm
  cases w with
  | nil => exact absurd rfl hw
  | cons d w => exact hc c (by simpa using Or.inl (Option.some.inj hm).symm)

theorem scanWord_nil (h : Spaced [] s) : scanWord s = none := by
  cases h with
  | nil hg =>
    rw [scanWord]
    exact if_pos (List.dropWhile_eq_nil_iff.mpr hg)

theorem scanWord_cons (h : Spaced (w :: ws) s) :
    ∃ rest, scanWord s = some (w,rest) ∧ Spaced ws rest := by
  cases h with
  | @cons gap _ _ rest hg hw hc hr h =>
    have hdrop : (gap ++ (w ++ rest)).dropWhile blank = w ++ rest :=
      dropWhile_gap hg (head_append hw hc)
    refine ⟨rest,?_,h⟩
    simp only [scanWord]
    rw [hdrop,if_neg (by simp [hw]),takeWhile_word (fun c hm => by simp [hc c hm])
      (fun c hm => by simp [hr c hm]),dropWhile_gap (fun c hm => by simp [hc c hm])
      (fun c hm => by simp [hr c hm])]

theorem scanWord_length (h : scanWord s = some (w,rest)) : rest.length < s.length := by
  simp only [scanWord] at h
  split at h
  · cases h
  · rename_i hne
    obtain ⟨-,rfl⟩ := Prod.mk.inj (Option.some.inj h)
    have hle := List.length_dropWhile_le blank s
    cases ht : s.dropWhile blank with
    | nil => exact absurd ht hne
    | cons c t =>
      have hc : blank c = false := by
        have := List.head?_dropWhile_not blank s
        simpa [ht] using this
      rw [ht,List.length_cons] at hle
      rw [List.dropWhile_cons_of_pos (by simp [hc])]
      exact (List.length_dropWhile_le _ t).trans_lt (by omega)

theorem scanNumber_length (s : List Char) : (scanNumber s).2.length ≤ s.length := by
  have hsign (s : List Char) : (signOf s).2.length ≤ s.length := by
    obtain ⟨w,-,hs⟩ := signOf_split s
    have := congrArg List.length hs
    rw [List.length_append] at this
    omega
  exact (List.length_dropWhile_le _ _).trans ((hsign _).trans (List.length_dropWhile_le _ _))

theorem scanNumber_cons (h : Spaced (w :: ws) s) (hn : Spells n w) :
    ∃ rest, scanNumber s = (some (false,w),rest) ∧ Spaced ws rest ∧
      ∀ c ∈ rest.head?, blank c = true := by
  obtain ⟨hne,hd,-⟩ := hn
  have hdig : ∀ c ∈ w, digitOf c < 10 := fun c hc => by simpa using hd c hc
  cases h with
  | @cons gap _ _ rest hg hw hc hr h =>
    have hsign : signOf (w ++ rest) = (false,w ++ rest) := by
      cases w with
      | nil => exact absurd rfl hw
      | cons d w =>
        have h0 := hdig d List.mem_cons_self
        have hneg : digitOf '-' = 36 ∧ digitOf '+' = 36 := by decide
        rw [List.cons_append,signOf] <;> rintro r he <;> cases he <;> omega
    have hstop : ∀ c ∈ rest.head?, (decide (digitOf c < 10)) = false := fun c hc' => by
      have hb := hr c hc'
      refine decide_eq_false fun h => ?_
      rw [blank,isSpace_of_digit (by omega)] at hb
      cases hb
    have hall : ∀ c ∈ w, (decide (digitOf c < 10)) = true := fun c hc => decide_eq_true (hdig c hc)
    refine ⟨rest,?_,h,hr⟩
    rw [scanNumber,dropWhile_gap hg (head_append hw hc),hsign]
    dsimp only
    rw [takeWhile_word hall hstop,dropWhile_gap hall hstop,if_neg hne]

theorem intOf_spells (hn : Spells n w) (hb : n < 2 ^ 31) : intOf (false,w) = n := by
  obtain ⟨-,-,rfl⟩ := hn
  simp only [intOf,Bool.false_eq_true,if_false]
  rw [clamp,if_neg (by omega),if_neg (by omega)]
  exact Int.bmod_eq_of_le (by omega) (by omega)

theorem unsignedOf_spells (hn : Spells n w) (hb : n < 2 ^ 32) : unsignedOf (false,w) = n := by
  obtain ⟨-,-,rfl⟩ := hn
  simp only [unsignedOf,Bool.false_eq_true,if_false]
  rw [if_pos (by omega),Nat.mod_eq_of_lt hb]

theorem scanInt_cons (h : Spaced (w :: ws) s) (hn : Spells n w) (hb : n < 2 ^ 31) :
    ∃ rest, scanInt s = (some (n : Int),rest) ∧ Spaced ws rest := by
  obtain ⟨rest,hs,h,-⟩ := scanNumber_cons h hn
  exact ⟨rest,by rw [scanInt,hs,Prod.map,Option.map_some,intOf_spells hn hb,id],h⟩

theorem scanUnsigned_cons (h : Spaced (w :: ws) s) (hn : Spells n w) (hb : n < 2 ^ 32) :
    ∃ rest, scanUnsigned s = (some n,rest) ∧ Spaced ws rest ∧ ∀ c ∈ rest.head?, blank c = true := by
  obtain ⟨rest,hs,h⟩ := scanNumber_cons h hn
  exact ⟨rest,by rw [scanUnsigned,hs,Prod.map,Option.map_some,unsignedOf_spells hn hb,id],h⟩

theorem spells_of_all (h : (w ≠ [] ∧ w.all (fun c => digitOf c < 10) = true) ∧ decimalValue w = n) :
    Spells n w := ⟨h.1.1,List.all_eq_true.mp h.1.2,h.2⟩

theorem spaced_flatMap (hne : gap ≠ []) (hg : gap.all blank = true)
    (hw : ws.all (fun w => w ≠ [] && w.all fun c => !blank c) = true) :
    Spaced ws (ws.flatMap fun w => gap ++ w) := by
  have hg := List.all_eq_true.mp hg
  induction ws with
  | nil => exact .nil fun _ hc => absurd hc List.not_mem_nil
  | cons w ws ih =>
    rw [List.all_cons,Bool.and_eq_true] at hw
    obtain ⟨hw,hws⟩ := hw
    simp only [Bool.and_eq_true,decide_eq_true_eq,List.all_eq_true,Bool.not_eq_true'] at hw
    obtain ⟨hwne,hwc⟩ := hw
    rw [List.flatMap_cons,List.append_assoc]
    refine .cons hg hwne hwc (fun c hc => ?_) (ih hws)
    cases ws with
    | nil => cases hc
    | cons w' ws =>
      rw [List.flatMap_cons,List.append_assoc] at hc
      exact head_append hne hg c hc

end Libc
