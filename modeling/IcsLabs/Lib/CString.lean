import Mathlib.Logic.Function.Basic

namespace CString

def nul : Char := Char.ofNat 0

def strcpy (dst : Nat → Char) (src : List Char) : Nat → Char :=
  fun i => if i = src.length then nul else (src[i]?).getD (dst i)

-- strchr(s, c) over at most k characters
def strchr (array : Nat → Char) (c : Char) : Nat → Nat → Option Nat
  | 0, _ => none
  | k + 1, s => if array s = c then some s else if array s = nul then none else strchr array c k (s + 1)

-- the C string s starts at p
def Holds (array : Nat → Char) : Nat → List Char → Prop
  | p, [] => array p = nul
  | p, c :: s => array p = c ∧ Holds array (p + 1) s

variable {a b : Nat → Char} {p k : Nat} {c : Char} {s w : List Char}

theorem Holds.drop (h : Holds a p (w ++ s)) : Holds a (p + w.length) s := by
  induction w generalizing p with
  | nil => exact h
  | cons c w ih =>
    have hn := ih h.2
    rwa [Nat.add_right_comm,Nat.add_assoc] at hn

theorem Holds.congr (h : Holds a p s) (he : ∀ i, p ≤ i → i ≤ p + s.length → b i = a i) :
    Holds b p s := by
  induction s generalizing p with
  | nil => exact (he p (Nat.le_refl p) (Nat.le_add_right p 0)).trans h
  | cons c s ih =>
    refine ⟨(he p (Nat.le_refl p) (Nat.le_add_right p _)).trans h.1,ih h.2 fun i h1 h2 => ?_⟩
    exact he i (by omega) (by rw [List.length_cons]; omega)

theorem Holds.cut (h : Holds a p (w ++ c :: s)) :
    Holds (Function.update a (p + w.length) nul) p w := by
  induction w generalizing p with
  | nil => exact Function.update_self _ _ _
  | cons d w ih =>
    have hn := ih h.2
    rw [Nat.add_right_comm,Nat.add_assoc] at hn
    refine ⟨?_,hn⟩
    rw [Function.update_of_ne (by simp),h.1]

theorem holds_of_get (h : ∀ i, i < s.length → s[i]? = some (a (p + i))) (hn : a (p + s.length) = nul) :
    Holds a p s := by
  induction s generalizing p with
  | nil => exact hn
  | cons c s ih =>
    have h0 := h 0 (Nat.succ_pos _)
    refine ⟨(Option.some.inj h0).symm,ih (fun i hi => ?_) ?_⟩
    · have hi' := h (i + 1) (Nat.succ_lt_succ hi)
      rwa [List.getElem?_cons_succ,show p + (i + 1) = p + 1 + i by omega] at hi'
    · rwa [List.length_cons,show p + (s.length + 1) = p + 1 + s.length by omega] at hn

theorem strchr_found (h : Holds a p (w ++ c :: s)) (hc : c ∉ w) (hw : nul ∉ w) (hk : w.length < k) :
    strchr a c k p = some (p + w.length) := by
  induction w generalizing p k with
  | nil =>
    obtain ⟨k,rfl⟩ := Nat.exists_eq_add_one.mpr hk
    rw [strchr,if_pos h.1]
    rfl
  | cons d w ih =>
    obtain ⟨k,rfl⟩ := Nat.exists_eq_add_one.mpr (Nat.zero_lt_of_lt hk)
    rw [List.mem_cons,not_or] at hc hw
    rw [strchr,h.1,if_neg (Ne.symm hc.1),if_neg (Ne.symm hw.1),
      ih h.2 hc.2 hw.2 (Nat.lt_of_succ_lt_succ hk),List.length_cons]
    congr 1
    omega

theorem strchr_none (h : Holds a p s) (hc : c ∉ s) (hn : c ≠ nul) : strchr a c k p = none := by
  induction k generalizing p s with
  | zero => rfl
  | succ k ih =>
    cases s with
    | nil =>
      have h0 : a p = nul := h
      rw [strchr,h0,if_neg (Ne.symm hn),if_pos rfl]
    | cons d s =>
      rw [List.mem_cons,not_or] at hc
      rw [strchr,h.1,if_neg (Ne.symm hc.1),ih h.2 hc.2]
      exact ite_self none

end CString
