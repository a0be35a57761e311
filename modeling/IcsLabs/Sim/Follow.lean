import IcsLabs.Lib.Listing
import IcsLabs.Sim.Flags
import IcsLabs.Sim.Report

namespace Sim
open Bytes Y86.Listing

variable {sim : Y64sim} {i : Y86.Instr} {prog : Y86.Listing} {n : Nat}
  {c : Y86.State × Y86.Flags}

-- compute_cc sets the true flags of the operation, if it is one
def CodesAgree (i : Y86.Instr) (s : Y86.State) : Prop :=
  ∀ op rA rB, i = .opq op rA rB →
    SignsAgree op.code (s.reg rA) (s.reg rB) (computeAlu op.code (s.reg rA) (s.reg rB))

-- the simulator is about to execute the listing
structure Follows (prog : Y86.Listing) (sim : Y64sim) : Prop where
  fits : Fits sim
  loaded : prog.Loaded sim.m.data
  inside : ∀ a i, prog a = some i → a + i.length ≤ sim.m.len.toNat

theorem inBounds_of_le {m : Mem} {a : Word} {k : Nat} (hl : m.len < 2 ^ 31)
    (h : a.toNat + k ≤ m.len.toNat) (hk : 0 < k) : InBounds m a k := by
  have ha : a.toInt = a.toNat := BitVec.toInt_eq_toNat_of_lt (by omega)
  rw [InBounds,ha]
  omega

theorem flags_trueCc (op : Y86.Alu) (a b : Word) :
    flags (trueCc op.code a b (computeAlu op.code a b)) = Y86.Flags.ofAlu op a b := by
  have hm (v : Word) : v.getLsbD 63 = v.msb := BitVec.msb_eq_getLsbD_last v |>.symm
  have hz (v : Word) : decide (v = 0) = (v == 0) := (Bool.beq_eq_decide_eq v 0).symm
  rw [trueCc_eq,flags,getZf_packCc,getSf_packCc,getOf_packCc,computeAlu_eq,hm,hz]
  cases op with
  | add =>
    rw [show Y86.Alu.add.code = aAdd from rfl,overflowsAt_add,hm,hm,hm]
    exact congrArg (Y86.Flags.mk _ _) (by cases a.msb <;> cases b.msb <;> rfl)
  | sub =>
    rw [show Y86.Alu.sub.code = aSub from rfl,overflowsAt_sub,hm,hm,hm]
    rfl
  | and | xor =>
    rw [overflowsAt_other (by decide) (by decide)]
    rfl

theorem execute_cc (hf : Fits sim) {f : Fetched}
    (hs : Y86.Instr.Spells f.icode f.ifun f.raid f.rbid f.addr i) (hc : CodesAgree i (view sim)) :
    flags (execute f sim).2.cc = Y86.Instr.flags (flags sim.cc) i (view sim) := by
  obtain ⟨icode,ifun,rA,rB,c,next⟩ := f
  simp only at hs
  cases i with
  | halt | nop =>
    obtain ⟨rfl,rfl⟩ := hs
    rfl
  | rrmovq k a b | irmovq v b =>
    obtain ⟨rfl,rfl,-⟩ := hs
    rfl
  | rmmovq a b d =>
    obtain ⟨rfl,-⟩ := hs
    rw [execute_rmmovq]
    split <;> rfl
  | mrmovq d b a =>
    obtain ⟨rfl,-⟩ := hs
    rw [execute_mrmovq]
    split <;> rfl
  | opq k a b =>
    obtain ⟨rfl,rfl,rfl,rfl⟩ := hs
    have hk : ¬ aNone ≤ k.code := by cases k <;> decide
    have he : execute ⟨6,k.code,a,b,c,next⟩ sim =
        if aNone ≤ k.code then (.ins,sim)
        else (.aok,{ sim with
          cc := computeCc k.code (getRegVal sim.r a) (getRegVal sim.r b)
            (computeAlu k.code (getRegVal sim.r a) (getRegVal sim.r b))
          r := setRegVal sim.r b (computeAlu k.code (getRegVal sim.r a) (getRegVal sim.r b))
          pc := next }) := rfl
    rw [he,if_neg hk,getRegVal_eq hf.regs,getRegVal_eq hf.regs]
    have ht := (computeCc_true k.code _ _).mpr (hc k a b rfl)
    exact (congrArg flags ht).trans (flags_trueCc k _ _)
  | jxx k d =>
    obtain ⟨rfl,rfl,-⟩ := hs
    have hk : ¬ cG < k.code := by cases k <;> decide
    have he : execute ⟨7,k.code,rA,rB,c,next⟩ sim =
        if cG < k.code then (.ins,sim)
        else (.aok,{ sim with pc := if condDoit sim.cc k.code then c else next }) := rfl
    rw [he,if_neg hk]
    rfl
  | call d =>
    obtain ⟨rfl,-⟩ := hs
    rw [execute_call]
    split <;> rfl
  | ret =>
    obtain ⟨rfl,-⟩ := hs
    rw [execute_ret]
    split <;> rfl
  | pushq a =>
    obtain ⟨rfl,-⟩ := hs
    rw [execute_pushq]
    split <;> rfl
  | popq a =>
    obtain ⟨rfl,-⟩ := hs
    rw [execute_popq]
    split <;> rfl

theorem Follows.nexti (h : Follows prog sim) (hi : prog sim.pc.toNat = some i)
    (hs : Safe prog sim.m.len.toNat i (view sim)) (hcc : CodesAgree i (view sim)) :
    (nexti sim).1 = (if i = .halt then .hlt else .aok) ∧
      (view (nexti sim).2,flags (nexti sim).2.cc) =
        (i.exec (flags sim.cc) (view sim),Y86.Instr.flags (flags sim.cc) i (view sim)) ∧
      (i = .halt → (nexti sim).2 = sim) ∧ Follows prog (nexti sim).2 := by
  have hd := h.loaded.decode hi
  have hin := h.inside _ i hi
  have hpos : 0 < i.length := by cases i <;> simp [Y86.Instr.length]
  have hc : InBounds sim.m sim.pc i.length := inBounds_of_le h.fits.mem hin hpos
  have ha (a : Word) (ha : i.dataAddr (view sim) = some a) : InBounds sim.m a 8 :=
    inBounds_of_le h.fits.mem (hs.inside a ha) (by decide)
  obtain ⟨icode,ifun,rA,rB,k,he,hsp⟩ := fetch_eq h.fits.mem hd hc
  have hr := execute_spec (f := ⟨icode,ifun,rA,rB,k,_⟩) h.fits hsp rfl ha
  have hk := nexti_keeps sim
  rw [Sim.nexti,he] at hk ⊢
  refine ⟨hr.stat,Prod.ext hr.view ?_,hr.halt,hr.fits,?_,fun a j hj => ?_⟩
  · exact execute_cc (f := ⟨icode,ifun,rA,rB,k,_⟩) h.fits hsp hcc
  · have hm := congrArg Y86.State.mem hr.view
    change (execute _ sim).2.m.data = _ at hm
    rw [hm]
    exact h.loaded.exec hs _
  · rw [hk.mem]
    exact h.inside a j hj

theorem Follows.runs (h : Follows prog sim)
    (hr : Runs prog (fun i s => Safe prog sim.m.len.toNat i s ∧ CodesAgree i s) n
      (view sim,flags sim.cc) c) :
    (view (steps n sim),flags (steps n sim).cc) = c ∧ Follows prog (steps n sim) ∧
      (steps n sim).m.len = sim.m.len ∧
        ∀ k, simulate (n + k) sim = simulate k (steps n sim) := by
  induction n generalizing sim with
  | zero =>
    cases hr
    exact ⟨rfl,h,rfl,fun k => by rw [Nat.zero_add]; rfl⟩
  | succ n ih =>
    obtain _ | ⟨hi,hh,hs,hr⟩ := hr
    obtain ⟨h1,h2,-,h4⟩ := h.nexti hi hs.1 hs.2
    have hl := (nexti_keeps sim).mem
    rw [if_neg hh] at h1
    rw [← h2,← hl] at hr
    obtain ⟨h5,h6,h7,h8⟩ := ih h4 hr
    refine ⟨h5,h6,h7.trans hl,fun k => ?_⟩
    rw [show n + 1 + k = n + k + 1 by omega,simulate,if_pos h1]
    exact h8 k

end Sim
