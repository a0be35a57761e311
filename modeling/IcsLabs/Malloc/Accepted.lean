import IcsLabs.Malloc.Driver
import Mathlib.Data.List.Nodup
import Mathlib.Data.Nat.Bitwise

namespace Malloc
open Bytes
open Libc (toInt toInt_eq toSizeT toSizeT_eq)

-- the ids in use, each with the size last asked for, the last request first
abbrev Ids := List (Nat × Nat)

namespace Ids

def InUse (i : Nat) (ids : Ids) : Prop := i ∈ ids.map Prod.fst

instance (i : Nat) (ids : Ids) : Decidable (InUse i ids) :=
  inferInstanceAs (Decidable (i ∈ ids.map Prod.fst))

def drop (i : Nat) (ids : Ids) : Ids := ids.eraseP fun x => x.1 = i

-- none: the trace asks for an id that is in use, lets go of one that is not or has a bad size
def serve (limit : Nat) (op : TraceOp) (ids : Ids) : Option Ids :=
  match op.type with
  | .alloc =>
    if (0 < op.size ∧ op.size ≤ limit) ∧ ¬ InUse op.index ids then
      some ((op.index,op.size.toNat) :: ids)
    else none
  | .realloc =>
    if (0 < op.size ∧ op.size ≤ limit) ∧ InUse op.index ids then
      some ((op.index,op.size.toNat) :: drop op.index ids)
    else none
  | .free => if InUse op.index ids then some (drop op.index ids) else none

variable {i : Nat} {ids ids' : Ids} {x : Nat × Nat} {limit : Nat} {op : TraceOp}

theorem inUse_iff : InUse i ids ↔ ∃ n, (i,n) ∈ ids := by simp [InUse]

theorem mem_of_mem_drop (hx : x ∈ drop i ids) : x ∈ ids := List.mem_of_mem_eraseP hx

theorem not_inUse_drop (hn : (ids.map Prod.fst).Nodup) : ¬ InUse i (drop i ids) := by
  induction ids with
  | nil => simp [InUse,drop]
  | cons x ids ih =>
    obtain ⟨hx,hn⟩ := List.nodup_cons.mp hn
    by_cases hi : x.1 = i
    · subst hi
      rwa [drop,List.eraseP_cons_of_pos (by simp)]
    · rw [drop,List.eraseP_cons_of_neg (by simpa using hi),InUse,List.map_cons,List.mem_cons,not_or]
      exact ⟨fun h => hi h.symm,ih hn⟩

theorem ne_of_mem_drop (hn : (ids.map Prod.fst).Nodup) (hx : x ∈ drop i ids) : x.1 ≠ i := by
  rintro rfl
  exact not_inUse_drop hn (List.mem_map_of_mem hx)

theorem ne_of_not_inUse (hi : ¬ InUse i ids) (hx : x ∈ ids) : x.1 ≠ i := by
  rintro rfl
  exact hi (List.mem_map_of_mem hx)

theorem nodup_drop (hn : (ids.map Prod.fst).Nodup) : ((drop i ids).map Prod.fst).Nodup :=
  hn.sublist (List.eraseP_sublist.map _)

theorem eraseP_congr {α : Type} {p q : α → Bool} {l : List α} (h : ∀ x ∈ l, p x = q x) :
    l.eraseP p = l.eraseP q := by
  induction l with
  | nil => rfl
  | cons x l ih =>
    obtain ⟨hx,hl⟩ := List.forall_mem_cons.mp h
    rw [List.eraseP_cons,List.eraseP_cons,hx,ih hl]

theorem map_drop {α : Type} (f : Nat × Nat → α) (p : α → Bool)
    (h : ∀ x ∈ ids, p (f x) = decide (x.1 = i)) : (ids.map f).eraseP p = (drop i ids).map f := by
  rw [List.eraseP_map,drop]
  exact congrArg _ (eraseP_congr h)

theorem serve_nodup (hn : (ids.map Prod.fst).Nodup) (hs : serve limit op ids = some ids') :
    (ids'.map Prod.fst).Nodup := by
  unfold serve at hs
  split at hs
  · obtain ⟨⟨_,hi⟩,rfl⟩ := by simpa only [Option.ite_none_right_eq_some,Option.some.injEq] using hs
    exact List.nodup_cons.mpr ⟨hi,hn⟩
  · obtain ⟨_,rfl⟩ := by simpa only [Option.ite_none_right_eq_some,Option.some.injEq] using hs
    exact List.nodup_cons.mpr ⟨not_inUse_drop hn,nodup_drop hn⟩
  · obtain ⟨_,rfl⟩ := by simpa only [Option.ite_none_right_eq_some,Option.some.injEq] using hs
    exact nodup_drop hn

end Ids

namespace Range

-- what add_range lets pass: r shares no byte with p, or reaches beyond p at both ends
def Passes (r p : Range) : Prop := r.hi < p.lo ∨ p.hi < r.lo ∨ (r.lo < p.lo ∧ p.hi < r.hi)

theorem not_hit {lo hi : Nat} {p : Range} (h : lo ≤ hi) (_ : p.lo ≤ p.hi) :
    ¬ Hit lo hi p ↔ Passes ⟨lo,hi⟩ p := by
  simp only [Hit,Passes]
  omega

end Range

section Step

variable {σ : Type} {P : Package σ} {i lo : Nat} {size : Int} {op : TraceOp} {e e' : Eval σ}

theorem addRange_ok (ha : addRange P i lo size e = .ok e') : 0 < size ∧ lo % 8 = 0 ∧
    (P.memHeapLo e.pkg ≤ lo ∧ lo + size.toNat - 1 ≤ P.memHeapHi e.pkg) ∧
    (∀ p ∈ e.ranges, ¬ Range.Hit lo (lo + size.toNat - 1) p) ∧
    e' = { e with ranges := ⟨lo,lo + size.toNat - 1⟩ :: e.ranges } := by
  simp only [addRange] at ha
  split at ha
  · cases ha
  split at ha
  · cases ha
  split at ha
  · cases ha
  rename_i h0 h8 hheap
  cases hf : e.ranges.find? (Range.Hit lo (lo + size.toNat - 1)) with
  | some p =>
    rw [hf] at ha
    cases ha
  | none =>
    rw [hf] at ha
    refine ⟨not_not.mp h0,not_not.mp h8,by omega,?_,(Except.ok.inj ha).symm⟩
    simpa using hf

-- the call that an ALLOC or a REALLOC makes
def Package.request (P : Package σ) (op : TraceOp) (e : Eval σ) : Option (Nat × σ) :=
  match op.type with
  | .alloc => P.mmMalloc (toSizeT op.size) e.pkg
  | .realloc => P.mmRealloc (e.blocks op.index) (toSizeT op.size) e.pkg
  | .free => none

-- the least of the sizes before and after a REALLOC
def keptSize (op : TraceOp) (e : Eval σ) : Int :=
  if op.size < toInt (e.blockSizes op.index) then op.size else toInt (e.blockSizes op.index)

-- the ranges that stay while the request is checked
def others (op : TraceOp) (e : Eval σ) : List Range :=
  if op.type = .realloc then removeRange (e.blocks op.index) e.ranges else e.ranges

def refusal (op : TraceOp) : Fault := if op.type = .alloc then .mallocFailed else .reallocFailed

theorem validOp_eq (hf : op.type ≠ .free) : validOp P i op e =
    match P.request op e with
    | none => .error (.crash,e)
    | some (p,s) =>
      if p = 0 then .error (.error i (refusal op),{ e with pkg := s })
      else (addRange P i p op.size { e with pkg := s, ranges := others op e }).bind fun e1 =>
        if op.type = .realloc ∧ e1.preserved P p op.index (keptSize op e1) = false then
          .error (.error i .notPreserved,e1)
        else .ok ((e1.fill P p op.index op.size).remember op.index p op.size) := by
  cases ht : op.type with
  | free => exact absurd ht hf
  | alloc =>
    have hoth : others op e = e.ranges := if_neg (by simp [ht])
    have href : refusal op = .mallocFailed := if_pos ht
    have hreq : P.request op e = P.mmMalloc (toSizeT op.size) e.pkg := by rw [Package.request,ht]
    rw [validOp,ht,hreq,hoth,href]
    dsimp only
    rw [validAlloc]
    cases P.mmMalloc (toSizeT op.size) e.pkg with
    | none => rfl
    | some ps =>
      obtain ⟨p,s⟩ := ps
      dsimp only
      split
      · rfl
      · exact congrArg _ (funext fun e1 => (if_neg fun h => nomatch h.1).symm)
  | realloc =>
    have hoth : others op e = removeRange (e.blocks op.index) e.ranges := if_pos ht
    have href : refusal op = .reallocFailed := if_neg (by simp [ht])
    simp only [validOp,validRealloc,Package.request,ht,hoth,href,true_and]
    cases P.mmRealloc (e.blocks op.index) (toSizeT op.size) e.pkg with
    | none => rfl
    | some ps =>
      obtain ⟨p,s⟩ := ps
      dsimp only
      split
      · rfl
      · refine congrArg _ (funext fun e1 => ?_)
        rw [keptSize]
        cases e1.preserved P p op.index _ <;> rfl

-- how an accepted ALLOC or REALLOC leaves the driver: p and s are what the package returned
structure Granted (P : Package σ) (op : TraceOp) (e e' : Eval σ) (p : Nat) (s : σ) : Prop where
  request : P.request op e = some (p,s)
  ne_zero : p ≠ 0
  pos : 0 < op.size
  aligned : p % 8 = 0
  lo : P.memHeapLo s ≤ p
  hi : p + op.size.toNat - 1 ≤ P.memHeapHi s
  clear : ∀ r ∈ others op e, ¬ Range.Hit p (p + op.size.toNat - 1) r
  kept : op.type = .realloc → ∀ j, j < (keptSize op e).toNat →
    (P.byte s (p + j)).toInt = lowByte op.index
  ranges : e'.ranges = ⟨p,p + op.size.toNat - 1⟩ :: others op e
  blocks : e'.blocks = Function.update e.blocks op.index p
  blockSizes : e'.blockSizes = Function.update e.blockSizes op.index (toSizeT op.size)
  pkg : e'.pkg = P.memset p (BitVec.ofNat 8 (lowByte op.index)) (toSizeT op.size) s

theorem preserved_iff {p index : Nat} {n : Int} : e.preserved P p index n = true ↔
    ∀ j, j < n.toNat → (P.byte e.pkg (p + j)).toInt = lowByte index := by
  simp [Eval.preserved]

theorem validOp_ok (hf : op.type ≠ .free) (hv : validOp P i op e = .ok e') :
    ∃ p s, Granted P op e e' p s := by
  rw [validOp_eq hf] at hv
  split at hv
  · cases hv
  rename_i p s hm
  split at hv
  · cases hv
  rename_i hp
  obtain ⟨e1,ha,hv⟩ := Trials.bind_eq_ok.mp hv
  obtain ⟨h0,h8,⟨hlo,hhi⟩,hc,rfl⟩ := addRange_ok ha
  split at hv
  · cases hv
  rename_i hk
  obtain rfl := Except.ok.inj hv
  refine ⟨p,s,hm,hp,h0,h8,hlo,hhi,hc,fun hr => ?_,rfl,rfl,rfl,rfl⟩
  rw [not_and,Bool.not_eq_false] at hk
  exact preserved_iff.mp (hk hr)

theorem addRange_of (h0 : 0 < size) (h8 : lo % 8 = 0) (hlo : P.memHeapLo e.pkg ≤ lo)
    (hhi : lo + size.toNat - 1 ≤ P.memHeapHi e.pkg)
    (hc : ∀ p ∈ e.ranges, ¬ Range.Hit lo (lo + size.toNat - 1) p) :
    addRange P i lo size e = .ok { e with ranges := ⟨lo,lo + size.toNat - 1⟩ :: e.ranges } := by
  have hf : e.ranges.find? (Range.Hit lo (lo + size.toNat - 1)) = none := by simpa using hc
  simp only [addRange]
  rw [if_neg (by omega),if_neg (by omega),if_neg (by omega),hf]

theorem validFree_ok (ht : op.type = .free) (hv : validOp P i op e = .ok e') : ∃ s,
    P.mmFree (e.blocks op.index) e.pkg = some s ∧
    e' = { e with pkg := s, ranges := removeRange (e.blocks op.index) e.ranges } := by
  simp only [validOp,ht,validFree] at hv
  split at hv
  · cases hv
  rename_i s hs
  exact ⟨s,hs,(Except.ok.inj hv).symm⟩

end Step

def extent (blocks : Nat → Nat) (x : Nat × Nat) : Range := ⟨blocks x.1,blocks x.1 + x.2 - 1⟩

-- the range list and the arrays of the trace describe the ids in use
structure Tracked {σ : Type} (limit : Nat) (ids : Ids) (e : Eval σ) : Prop where
  keys : (ids.map Prod.fst).Nodup
  sizes : ∀ x ∈ ids, 0 < x.2 ∧ x.2 ≤ limit ∧ e.blockSizes x.1 = x.2
  ranges : e.ranges = ids.map (extent e.blocks)
  passes : e.ranges.Pairwise Range.Passes
  aligned : ∀ x ∈ ids, e.blocks x.1 % 8 = 0 ∧ e.blocks x.1 ≠ 0

namespace Tracked

variable {σ : Type} {P : Package σ} {limit i p : Nat} {ids ids' : Ids} {e e' : Eval σ} {op : TraceOp}
  {x y : Nat × Nat} {s : σ}

theorem nodup (ht : Tracked limit ids e) : (ids.map fun x => e.blocks x.1).Nodup := by
  have hp := ht.passes
  rw [ht.ranges,List.pairwise_map] at hp
  refine List.pairwise_map.mpr (hp.imp_of_mem fun hx hy h he => ?_)
  have h1 := (ht.sizes _ hx).1
  have h2 := (ht.sizes _ hy).1
  simp only [Range.Passes,extent] at h
  omega

theorem removed (ht : Tracked limit ids e) (hi : Ids.InUse i ids) :
    removeRange (e.blocks i) e.ranges = (Ids.drop i ids).map (extent e.blocks) := by
  obtain ⟨n,hn⟩ := Ids.inUse_iff.mp hi
  rw [removeRange,ht.ranges]
  refine Ids.map_drop _ _ fun x hx => ?_
  rw [extent,decide_eq_decide]
  refine ⟨fun h => ?_,fun h => by rw [h]⟩
  exact congrArg Prod.fst (List.inj_on_of_nodup_map ht.nodup hx hn h)

theorem others (ht : Tracked limit ids e) (hf : op.type ≠ .free)
    (hs : Ids.serve limit op ids = some ids') : ∃ rest, (0 < op.size ∧ op.size ≤ limit) ∧
      ids' = (op.index,op.size.toNat) :: rest ∧ ¬ Ids.InUse op.index rest ∧
      (rest.map Prod.fst).Nodup ∧ (∀ x ∈ rest, x ∈ ids) ∧
      Malloc.others op e = rest.map (extent e.blocks) ∧
      (Malloc.others op e).Pairwise Range.Passes := by
  unfold Ids.serve at hs
  split at hs
  case h_1 h =>
    obtain ⟨⟨hn,hi⟩,rfl⟩ := by simpa only [Option.ite_none_right_eq_some,Option.some.injEq] using hs
    have ho : Malloc.others op e = e.ranges := if_neg (by simp [h])
    rw [ho]
    exact ⟨ids,hn,rfl,hi,ht.keys,fun _ hx => hx,ht.ranges,ht.passes⟩
  case h_2 h =>
    obtain ⟨⟨hn,hi⟩,rfl⟩ := by simpa only [Option.ite_none_right_eq_some,Option.some.injEq] using hs
    have ho : Malloc.others op e = removeRange (e.blocks op.index) e.ranges := if_pos h
    rw [ho]
    exact ⟨Ids.drop op.index ids,hn,rfl,Ids.not_inUse_drop ht.keys,Ids.nodup_drop ht.keys,
      fun _ => Ids.mem_of_mem_drop,ht.removed hi,ht.passes.sublist List.eraseP_sublist⟩
  case h_3 h => exact absurd h hf

theorem granted (ht : Tracked limit ids e) (hl : limit < 2 ^ 31) (hf : op.type ≠ .free)
    (hs : Ids.serve limit op ids = some ids') (hg : Granted P op e e' p s) :
    Tracked limit ids' e' := by
  obtain ⟨rest,⟨h0,hn⟩,rfl,hi,hk,hsub,ho,hp⟩ := ht.others hf hs
  have hkeep {α : Type} (f : Nat → α) (a : α) (x : Nat × Nat) (hx : x ∈ rest) :
      Function.update f op.index a x.1 = f x.1 :=
    Function.update_of_ne (Ids.ne_of_not_inUse hi hx) _ _
  have hext : rest.map (extent e'.blocks) = rest.map (extent e.blocks) := by
    refine List.map_congr_left fun x hx => ?_
    rw [extent,hg.blocks,hkeep _ _ x hx,extent]
  have hown : extent e'.blocks (op.index,op.size.toNat) = ⟨p,p + op.size.toNat - 1⟩ := by
    rw [extent,hg.blocks,Function.update_self]
  refine ⟨List.nodup_cons.mpr ⟨hi,hk⟩,?_,?_,?_,?_⟩
  · refine List.forall_mem_cons.mpr ⟨⟨by simp only; omega,by simp only; omega,?_⟩,fun x hx => ?_⟩
    · rw [hg.blockSizes,Function.update_self,toSizeT_eq (by omega) (by omega)]
    · obtain ⟨h1,h2,h3⟩ := ht.sizes x (hsub x hx)
      exact ⟨h1,h2,by rw [hg.blockSizes,hkeep _ _ x hx,h3]⟩
  · rw [hg.ranges,ho,List.map_cons,hown,hext]
  · rw [hg.ranges]
    refine List.pairwise_cons.mpr ⟨fun q hq => ?_,hp⟩
    have hc := hg.clear q hq
    rw [ho] at hq
    obtain ⟨x,hx,rfl⟩ := List.mem_map.mp hq
    have hx0 := (ht.sizes x (hsub x hx)).1
    exact (Range.not_hit (by omega) (by simp only [extent]; omega)).mp hc
  · refine List.forall_mem_cons.mpr ⟨?_,fun x hx => ?_⟩
    · rw [hg.blocks,Function.update_self]
      exact ⟨hg.aligned,hg.ne_zero⟩
    · rw [hg.blocks,hkeep _ _ x hx]
      exact ht.aligned x (hsub x hx)

theorem freed (ht : Tracked limit ids e) (hf : op.type = .free)
    (hs : Ids.serve limit op ids = some ids') :
    Tracked limit ids' { e with pkg := s, ranges := removeRange (e.blocks op.index) e.ranges } := by
  simp only [Ids.serve,hf,Option.ite_none_right_eq_some,Option.some.injEq] at hs
  obtain ⟨hi,rfl⟩ := hs
  exact ⟨Ids.nodup_drop ht.keys,fun x hx => ht.sizes x (Ids.mem_of_mem_drop hx),ht.removed hi,
    ht.passes.sublist List.eraseP_sublist,fun x hx => ht.aligned x (Ids.mem_of_mem_drop hx)⟩

theorem step {j : Nat} (ht : Tracked limit ids e) (hl : limit < 2 ^ 31)
    (hs : Ids.serve limit op ids = some ids') (hv : validOp P j op e = .ok e') :
    Tracked limit ids' e' := by
  by_cases hf : op.type = .free
  · obtain ⟨s,_,rfl⟩ := validFree_ok hf hv
    exact ht.freed hf hs
  · obtain ⟨p,s,hg⟩ := validOp_ok hf hv
    exact ht.granted hl hf hs hg

theorem initial (hr : e.ranges = []) : Tracked limit [] e :=
  ⟨List.nodup_nil,by simp,hr,by rw [hr]; exact .nil,by simp⟩

end Tracked

def intMax : Nat := 2 ^ 31 - 1

section Accepted

variable {σ : Type} {P : Package σ} {ops pre post : List TraceOp} {op : TraceOp} {ids : Ids}
  {e e' : Eval σ}

-- after mem_reset_brk, clear_ranges and mm_init
def Eval.opened (P : Package σ) (e : Eval σ) : Eval σ :=
  { e with pkg := (P.mmInit (P.memResetBrk e.pkg)).2, ranges := [] }

theorem evalMmValid_eq (P : Package σ) (ops : List TraceOp) (e : Eval σ) : evalMmValid P ops e =
    if (P.mmInit (P.memResetBrk e.pkg)).1 < 0 then .error (.error 0 .initFailed,e.opened P)
    else Trials.run (validOp P) 0 ops (e.opened P) := rfl

theorem run_of_valid (hv : evalMmValid P ops e = .ok e') (ops' : List TraceOp) :
    evalMmValid P ops' e = Trials.run (validOp P) 0 ops' (e.opened P) := by
  rw [evalMmValid_eq] at hv ⊢
  split at hv
  · cases hv
  · rename_i h
    rw [if_neg h]

theorem tracked_of_valid {limit : Nat} (hl : limit < 2 ^ 31)
    (hw : Runs.run (Ids.serve limit) ops [] = some ids) (hv : evalMmValid P ops e = .ok e') :
    Tracked limit ids e' := by
  rw [run_of_valid hv] at hv
  have hstep (i op ids ids') (e e' : Eval σ) (ht : Tracked limit ids e)
      (hs : Ids.serve limit op ids = some ids') (hv : validOp P i op e = .ok e') :
      Tracked limit ids' e' := ht.step hl hs hv
  exact Trials.run_tracks hstep (Tracked.initial rfl) hw hv

theorem split_of_valid (hv : evalMmValid P (pre ++ op :: post) e = .ok e') : ∃ e1 e2,
    evalMmValid P pre e = .ok e1 ∧ validOp P pre.length op e1 = .ok e2 := by
  have hp := run_of_valid hv pre
  rw [run_of_valid hv] at hv
  obtain ⟨e1,e2,h1,h2,_⟩ := Trials.run_split hv
  exact ⟨e1,e2,hp.trans h1,by rwa [Nat.zero_add] at h2⟩

theorem serve_split {limit : Nat} (hw : Runs.run (Ids.serve limit) (pre ++ op :: post) [] = some ids) :
    ∃ ids1 ids2, Runs.run (Ids.serve limit) pre [] = some ids1 ∧
      Ids.serve limit op ids1 = some ids2 := by
  rw [Runs.run_append] at hw
  obtain ⟨ids1,h1,hw⟩ := Option.bind_eq_some_iff.mp hw
  obtain ⟨ids2,h2,_⟩ := Runs.run_cons.mp hw
  exact ⟨ids1,ids2,h1,h2⟩

theorem lowByte_eq (index : Nat) : lowByte index = index % 256 :=
  Nat.and_two_pow_sub_one_eq_mod index 8

theorem signed_byte {b : Byte} {n : Nat} (h : b.toInt = n) : n < 128 ∧ b = BitVec.ofNat 8 n := by
  have hlt := BitVec.toInt_lt (x := b)
  refine ⟨by omega,BitVec.eq_of_toInt_eq ?_⟩
  rw [h,BitVec.toInt_ofNat',Int.bmod_eq_of_le (by omega) (by omega)]

theorem serve_pos {limit : Nat} {ids' : Ids} (hf : op.type ≠ .free)
    (hs : Ids.serve limit op ids = some ids') : 0 < op.size ∧ op.size ≤ limit := by
  unfold Ids.serve at hs
  split at hs
  case h_3 h => exact absurd h hf
  all_goals
    rw [Option.ite_none_right_eq_some] at hs
    exact hs.1.1

theorem Tracked.keptSize_eq {limit : Nat} {ids' : Ids} (ht : Tracked limit ids e)
    (hl : limit < 2 ^ 31) (hr : op.type = .realloc) (hs : Ids.serve limit op ids = some ids') :
    (keptSize op e).toNat = min op.size.toNat (e.blockSizes op.index) ∧
      0 < min op.size.toNat (e.blockSizes op.index) := by
  have hsize := serve_pos (by simp [hr]) hs
  simp only [Ids.serve,hr,Option.ite_none_right_eq_some] at hs
  obtain ⟨n,hn⟩ := Ids.inUse_iff.mp hs.1.2
  obtain ⟨h1,h2,h3⟩ := ht.sizes _ hn
  simp only at h1 h2 h3
  rw [keptSize,h3,toInt_eq (by omega)]
  refine ⟨?_,by omega⟩
  split <;> omega

-- the live blocks of a package that passes: a block may lie around an older one
theorem accepted_blocks (hw : Runs.run (Ids.serve intMax) ops [] = some ids)
    (hv : evalMmValid P ops e = .ok e') :
    (∀ x ∈ ids, e'.blocks x.1 ≠ 0 ∧ e'.blocks x.1 % 8 = 0 ∧ e'.blockSizes x.1 = x.2) ∧
      ids.Pairwise fun x y => (extent e'.blocks x).Passes (extent e'.blocks y) := by
  have ht := tracked_of_valid (by decide) hw hv
  refine ⟨fun x hx => ⟨(ht.aligned x hx).2,(ht.aligned x hx).1,(ht.sizes x hx).2.2⟩,?_⟩
  rw [← List.pairwise_map,← ht.ranges]
  exact ht.passes

-- hands out 24 first and 8 from then on
def carelessPackage : Package Nat where
  memResetBrk _ := 0
  memHeapLo _ := 8
  memHeapHi _ := 999
  memHeapsize _ := 992
  mmInit s := (0,s)
  mmMalloc _ s := some (if s = 0 then 24 else 8,s + 1)
  mmFree _ s := some s
  mmRealloc p _ s := some (p,s)
  byte _ _ := 0
  memset _ _ _ s := s

def blankEval : Eval Nat := ⟨7,[],fun _ => 0,fun _ => 0⟩

theorem accepted_blocks_around : ∃ e', evalMmValid carelessPackage
      [⟨.alloc,0,8⟩,⟨.alloc,1,40⟩] blankEval = .ok e' ∧
    ([(1,40),(0,8)] : Ids).Pairwise (fun x y => (extent e'.blocks x).Passes (extent e'.blocks y)) ∧
    extent e'.blocks (1,40) = ⟨8,47⟩ ∧ extent e'.blocks (0,8) = ⟨24,31⟩ :=
  have hv : evalMmValid carelessPackage [⟨.alloc,0,8⟩,⟨.alloc,1,40⟩] blankEval = .ok _ := rfl
  ⟨_,hv,(@accepted_blocks _ _ _ [(1,40),(0,8)] _ _ (by decide) hv).2,rfl,rfl⟩

theorem accepted_grants (hw : Runs.run (Ids.serve intMax) (pre ++ op :: post) [] = some ids)
    (hv : evalMmValid P (pre ++ op :: post) e = .ok e') (hf : op.type ≠ .free) : ∃ e1 p s,
    evalMmValid P pre e = .ok e1 ∧ P.request op e1 = some (p,s) ∧
      P.memHeapLo s ≤ p ∧ p + op.size.toNat ≤ P.memHeapHi s + 1 ∧
      (op.type = .realloc → ∀ j < min op.size.toNat (e1.blockSizes op.index),
        P.byte s (p + j) = BitVec.ofNat 8 (lowByte op.index)) := by
  obtain ⟨ids1,ids2,hw1,hs⟩ := serve_split hw
  obtain ⟨e1,e2,h1,h2⟩ := split_of_valid hv
  obtain ⟨p,s,hg⟩ := validOp_ok hf h2
  have ht := @tracked_of_valid _ _ _ _ _ _ intMax (by decide) hw1 h1
  have hhi := hg.hi
  refine ⟨e1,p,s,h1,hg.request,hg.lo,by omega,fun hr j hj => ?_⟩
  rw [← (ht.keptSize_eq (by decide) hr hs).1] at hj
  exact (signed_byte (hg.kept hr j hj)).2

theorem accepted_grants_sample : ∃ e1 p s,
    evalMmValid carelessPackage [⟨.alloc,0,8⟩] blankEval = .ok e1 ∧
      carelessPackage.request ⟨.realloc,0,40⟩ e1 = some (p,s) ∧ p + 40 ≤ 1000 := by
  have hv : evalMmValid carelessPackage ([⟨.alloc,0,8⟩] ++ ⟨.realloc,0,40⟩ :: []) blankEval =
    .ok _ := rfl
  obtain ⟨e1,p,s,h1,h2,_,h3,_⟩ := @accepted_grants _ _ _ _ _ [(0,40)] _ _ (by decide) hv (by decide)
  exact ⟨e1,p,s,h1,h2,h3⟩

-- newp[j] is at most 127, so no package passes once such an id is resized
theorem high_id_rejected (hw : Runs.run (Ids.serve intMax) (pre ++ op :: post) [] = some ids)
    (hr : op.type = .realloc) (hi : 128 ≤ lowByte op.index) :
    ∀ e', evalMmValid P (pre ++ op :: post) e ≠ .ok e' := by
  intro e' hv
  obtain ⟨ids1,ids2,hw1,hs⟩ := serve_split hw
  obtain ⟨e1,e2,h1,h2⟩ := split_of_valid hv
  obtain ⟨p,s,hg⟩ := validOp_ok (by simp [hr]) h2
  have ht := @tracked_of_valid _ _ _ _ _ _ intMax (by decide) hw1 h1
  obtain ⟨hk,h0⟩ := ht.keptSize_eq (by decide) hr hs
  have := (signed_byte (hg.kept hr 0 (by omega))).1
  omega

theorem high_id_rejected_sample : ¬ ∃ e', evalMmValid carelessPackage
    ([⟨.alloc,128,8⟩] ++ ⟨.realloc,128,40⟩ :: []) blankEval = .ok e' := fun ⟨e',h⟩ =>
  @high_id_rejected _ _ _ _ _ [(128,40)] _ (by decide) rfl (by decide) e' h

end Accepted

end Malloc
