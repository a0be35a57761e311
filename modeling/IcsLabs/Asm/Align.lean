import IcsLabs.Asm.Accept
import IcsLabs.Asm.Symbols
import Mathlib.Order.Bounds.Defs
import Mathlib.Tactic.Linarith

namespace Asm

def multiplesFrom (n v : Int) : Set Int := {m | n ∣ m ∧ v ≤ m}

-- what an .align n at v may come to: an error message, or the least multiple of a positive n
def Aligns (v n : Word) : Except Stop Word → Prop
  | .error (.err _) => True
  | .error .trap => False
  | .ok w => 0 < n.toInt ∧ IsLeast (multiplesFrom n.toInt v.toInt) w.toInt

section Multiples

variable {a n v : Int}

theorem isLeast_multiple (hn : 0 < n) : IsLeast (multiplesFrom n v) ((v + n - 1) / n * n) := by
  have hmod := Int.emod_add_mul_ediv (v + n - 1) n
  have hlt := Int.emod_lt_of_pos (v + n - 1) hn
  constructor
  · refine ⟨Int.dvd_mul_left ..,?_⟩
    rw [Int.mul_comm]
    omega
  · rintro m ⟨⟨q,rfl⟩,hle⟩
    have hq : (v + n - 1) / n < q + 1 := Int.ediv_lt_of_lt_mul hn (by linarith)
    rw [Int.mul_comm n q]
    exact Int.mul_le_mul_of_nonneg_right (by omega) (by omega)

theorem tdiv_mul_neg (hn : 0 < n) (ha : a ≤ 0) : a ≤ a.tdiv n * n ∧ a.tdiv n * n ≤ 0 := by
  have h0 : 0 ≤ -a := by omega
  have hle := Int.ediv_mul_le (-a) (show n ≠ 0 by omega)
  have hpos : 0 ≤ -a / n * n := Int.mul_nonneg (Int.ediv_nonneg h0 (by omega)) (by omega)
  have he : a.tdiv n * n = -(-a / n * n) := by
    rw [← Int.tdiv_eq_ediv_of_nonneg h0,Int.neg_tdiv,Int.neg_mul,Int.neg_neg]
  omega

theorem tdiv_mul_nonneg (hn : 0 < n) (ha : 0 ≤ a) : 0 ≤ a.tdiv n * n ∧ a.tdiv n * n ≤ a := by
  rw [Int.tdiv_eq_ediv_of_nonneg ha]
  exact ⟨Int.mul_nonneg (Int.ediv_nonneg ha (by omega)) (by omega),
    Int.ediv_mul_le a (show n ≠ 0 by omega)⟩

end Multiples

section Words

variable {a v n : Word}

theorem toInt_sdiv_mul (hn : 0 < n.toInt) :
    (a.sdiv n * n).toInt = a.toInt.tdiv n.toInt * n.toInt := by
  have h1 := BitVec.toInt_lt (x := a)
  have h2 := BitVec.le_toInt a
  have hb : -2 ^ 63 ≤ a.toInt.tdiv n.toInt * n.toInt ∧ a.toInt.tdiv n.toInt * n.toInt < 2 ^ 63 := by
    rcases Int.le_total 0 a.toInt with h | h
    · have := tdiv_mul_nonneg hn h
      omega
    · have := tdiv_mul_neg hn h
      omega
  rw [BitVec.toInt_mul,BitVec.toInt_sdiv,Int.bmod_mul_bmod]
  exact Int.bmod_eq_of_le (by omega) (by omega)

theorem toInt_sum (v n : Word) : (v + n - 1).toInt = (v.toInt + n.toInt - 1).bmod (2 ^ 64) := by
  rw [BitVec.toInt_sub,BitVec.toInt_add,Int.bmod_sub_bmod]
  rfl

theorem alignUp_least (hn : 0 < n.toInt) (hv : 0 ≤ v.toInt) (hs : v.toInt + n.toInt ≤ 2 ^ 63) :
    IsLeast (multiplesFrom n.toInt v.toInt) (alignUp v n).toInt := by
  have ha : (v + n - 1).toInt = v.toInt + n.toInt - 1 := by
    rw [toInt_sum]
    exact Int.bmod_eq_of_le (by omega) (by omega)
  rw [alignUp,toInt_sdiv_mul hn,ha,Int.tdiv_eq_ediv_of_nonneg (by omega)]
  exact isLeast_multiple hn

theorem alignUp_wrap (hn : 0 < n.toInt) (hs : 2 ^ 63 < v.toInt + n.toInt) :
    (alignUp v n).toInt ≤ 0 := by
  have h1 := BitVec.toInt_lt (x := v)
  have h2 := BitVec.toInt_lt (x := n)
  have ha : (v + n - 1).toInt ≤ 0 := by
    rw [toInt_sum,← Int.sub_bmod_right,Int.bmod_eq_of_le (by omega) (by omega)]
    omega
  rw [alignUp,toInt_sdiv_mul hn]
  exact (tdiv_mul_neg hn ha).2

theorem toInt_of_small (hv : v.toNat < 2 ^ 62) : v.toInt = v.toNat :=
  BitVec.toInt_eq_toNat_of_lt (by omega)

theorem quot_pos (hn : 0 < n.toInt) : quot a n = .ok (a.sdiv n) := by
  rw [quot,if_neg]
  rintro (rfl | ⟨-,rfl⟩)
  · exact absurd hn (by decide)
  · exact absurd hn (by decide)

theorem aligns_iff (hv : v.toNat < 2 ^ 62) :
    Aligns v n ((quot (v + n - 1) n).map (· * n)) ↔
      0 < n.toInt ∧ v.toInt + n.toInt ≤ 2 ^ 63 := by
  have hv' := toInt_of_small hv
  constructor
  · intro h
    cases hq : quot (v + n - 1) n with
    | error e =>
      rw [hq] at h
      cases e with
      | err text =>
        rw [quot] at hq
        split at hq <;> cases hq
      | trap => cases h
    | ok q =>
      obtain rfl := quot_eq_ok hq
      rw [hq] at h
      obtain ⟨hn,hl⟩ := h
      refine ⟨hn,Int.not_lt.mp fun hs => ?_⟩
      have hneg := alignUp_wrap hn hs
      have hge : v.toInt ≤ (alignUp v n).toInt := hl.1.2
      have hlt := BitVec.toInt_lt (x := n)
      omega
  · rintro ⟨hn,hs⟩
    rw [quot_pos hn]
    exact ⟨hn,alignUp_least hn (by omega) hs⟩

end Words

section Lines

variable {k : Nat} {s : Parse} {ls : List Piece} {inst : Instr} {n : Word} {ptr t : Text}

theorem align_bytes : ∀ inst ∈ instrSet, iPopq < high inst.code → low inst.code ≠ dData →
    inst.bytes = 0 := by
  decide +kernel

theorem align_apply (hw : (Piece.item inst (.align n)).WellFormed) :
    ((Piece.item inst (.align n)).apply k s).map Parse.vmaddr =
      (quot (s.vmaddr + n - 1) n).map (· * n) := by
  have hb := align_bytes inst hw.1 hw.2.1 hw.2.2.1
  have hv : (s.place inst).vmaddr = s.vmaddr := by
    rw [Parse.place,hb]
    exact BitVec.add_zero _
  rw [Piece.apply,Arg.apply,hv]
  cases quot (s.vmaddr + n - 1) n <;> rfl

-- the labels of a line stop it with a message, or leave the location counter as it is
theorem labels_apply (hl : Labels ls) :
    (¬ Fresh (names s.symtab) ls ∧ ∃ text, applyAll k ls s = .error (.err text)) ∨
      Fresh (names s.symtab) ls ∧ ∃ u, applyAll k ls s = .ok u ∧ u.vmaddr = s.vmaddr := by
  induction ls generalizing s with
  | nil => exact Or.inr ⟨trivial,s,rfl,rfl⟩
  | cons p ls ih =>
    obtain ⟨⟨name,rfl⟩,hls⟩ := List.forall_mem_cons.mp hl
    rw [applyAll_cons,Piece.apply]
    cases ha : addSymbol name s.vmaddr s.symtab with
    | none =>
      refine Or.inl ⟨fun hf => ?_,_,rfl⟩
      have := (@addSymbol_eq_some s.vmaddr name s.symtab _).mpr ⟨hf.1,rfl⟩
      rw [ha] at this
      cases this
    | some symtab =>
      obtain ⟨hn,rfl⟩ := addSymbol_eq_some.mp ha
      have h := @ih { s with
        symtab := ⟨name,s.vmaddr⟩ :: s.symtab, line.type := .ins, line.y64bin.addr := s.vmaddr } hls
      exact h.imp (And.imp_left fun hf hc => hf hc.2) (And.imp_left (And.intro hn))

end Lines

theorem align_exact (k : Nat) {s : Parse} (hv : s.vmaddr.toNat < 2 ^ 62) :
    (∀ ptr inst n t, scanPiece ptr = some (.item inst (.align n),t) →
      (Aligns s.vmaddr n ((parseTurn k ptr s).map fun r => r.2.vmaddr) ↔
        0 < n.toInt ∧ s.vmaddr.toInt + n.toInt ≤ 2 ^ 63)) ∧
    ∀ ls inst n, Labels ls → scanLine s.line.y64asm = some (ls ++ [.item inst (.align n)]) →
      (Aligns s.vmaddr n ((parseLine k s).map Parse.vmaddr) ↔
        (Fresh (names s.symtab) ls → 0 < n.toInt ∧ s.vmaddr.toInt + n.toInt ≤ 2 ^ 63)) := by
  refine ⟨fun ptr inst n t hp => ?_,fun ls inst n hl hs => ?_⟩
  · have hw := (scanPiece_spec hp).2.2
    rw [parseTurn_of_scan hp,← aligns_iff hv,← align_apply (k := k) hw]
    cases (Piece.item inst (.align n)).apply k s <;> rfl
  · have hw := scanLoop_wellFormed hs (.item inst (.align n)) (by simp)
    rw [parseLine_of_scan hs,applyAll,List.foldlM_append,← applyAll]
    rcases labels_apply (k := k) (s := s) hl with ⟨hf,text,ht⟩ | ⟨hf,u,hu,hvm⟩
    · rw [ht]
      exact iff_of_true trivial fun h => absurd h hf
    · have ha := align_apply (k := k) (s := u) hw
      rw [hvm] at ha
      rw [hu,imp_iff_right hf,← aligns_iff hv,← ha]
      change Aligns _ _ (((Piece.item inst (.align n)).apply k u >>= pure).map _) ↔ _
      rw [bind_pure]

-- zero traps, -8 steps back to 8, and the largest long wraps to 0
theorem align_exact_fails :
    ¬ Aligns 17 0 ((parseLine 0 (.start 17 ".align 0")).map Parse.vmaddr) ∧
    ¬ Aligns 17 (-8) ((parseLine 0 (.start 17 ".align -8")).map Parse.vmaddr) ∧
    ¬ Aligns 17 0x7fffffffffffffff
      ((parseLine 0 (.start 17 ".align 0x7fffffffffffffff")).map Parse.vmaddr) := by
  have h0 : (parseLine 0 (.start 17 ".align 0")).map Parse.vmaddr = .error .trap := by decide +kernel
  have h8 : (parseLine 0 (.start 17 ".align -8")).map Parse.vmaddr = .ok 8 := by decide +kernel
  have hbig : (parseLine 0 (.start 17 ".align 0x7fffffffffffffff")).map Parse.vmaddr =
      .ok 0 := by decide +kernel
  rw [h0,h8,hbig]
  refine ⟨id,fun h => ?_,fun h => ?_⟩
  · exact absurd h.1 (by decide)
  · exact absurd h.2.1.2 (by decide)

theorem align_exact_eight :
    (Aligns 17 8 ((parseTurn 0 ".align 8".toList (.start 17 "")).map fun r => r.2.vmaddr) ↔
      0 < (8 : Word).toInt ∧ (17 : Word).toInt + (8 : Word).toInt ≤ 2 ^ 63) ∧
    (Aligns 17 8 ((parseLine 0 (.start 17 "L: .align 8")).map Parse.vmaddr) ↔
      (Fresh [] [.label ['L']] →
        0 < (8 : Word).toInt ∧ (17 : Word).toInt + (8 : Word).toInt ≤ 2 ^ 63)) :=
  ⟨(align_exact 0 (s := .start 17 "") (by decide)).1 _ instrSet[32] 8 [] (by decide +kernel),
    (align_exact 0 (s := .start 17 "L: .align 8") (by decide)).2 [.label ['L']] instrSet[32] 8
      (by simp [Labels]) (by decide +kernel)⟩

end Asm
