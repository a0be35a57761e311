import IcsLabs.Lib.Scanf
import IcsLabs.Malloc.Session

namespace Malloc
open Libc

-- MAXLINE
abbrev maxWord : Nat := 1024

structure ReadOp where
  type : OpType
  index : Int
  size : Int
deriving DecidableEq

-- a trace_t, without the arrays that the driver fills
structure TraceFile where
  suggHeapsize : Int
  numIds : Int
  numOps : Int
  weight : Int
  ops : List ReadOp
deriving DecidableEq

-- what malloc'ed memory and the locals hold before they are written
structure Junk where
  suggHeapsize : BitVec 32
  numIds : BitVec 32
  numOps : BitVec 32
  weight : BitVec 32
  size : BitVec 32
  opSize : Nat → BitVec 32

inductive ReadStop where
  | unixError
  | bogus (c : Char)
  | wordOverrun
  | opsOverrun
  | assertion
deriving DecidableEq

structure Locals where
  index : Nat
  size : Nat
  maxIndex : Nat
  opIndex : Nat

-- "%u %u"
def scanRequest (s : List Char) (v : Locals) : Locals × List Char :=
  match scanUnsigned s with
  | (none,s) => (v,s)
  | (some index,s) =>
    match scanUnsigned s with
    | (none,s) => ({ v with index := index },s)
    | (some size,s) => ({ v with index := index, size := size },s)

-- "%ud"
def scanFree (s : List Char) (v : Locals) : Locals × List Char :=
  match scanUnsigned s with
  | (none,s) => (v,s)
  | (some index,'d' :: s) => ({ v with index := index },s)
  | (some index,s) => ({ v with index := index },s)

def raiseMax (v : Locals) : Locals :=
  { v with maxIndex := if v.index > v.maxIndex then v.index else v.maxIndex }

-- one turn of the loop behind the %s: the op that is stored, the locals and the rest of the file
def readOp (junk : Junk) (type s : List Char) (v : Locals) :
    Except ReadStop (ReadOp × Locals × List Char) :=
  match type with
  | 'a' :: _ =>
    let (v,s) := scanRequest s v
    .ok (⟨.alloc,toInt v.index,toInt v.size⟩,raiseMax v,s)
  | 'r' :: _ =>
    let (v,s) := scanRequest s v
    .ok (⟨.realloc,toInt v.index,toInt v.size⟩,raiseMax v,s)
  | 'f' :: _ =>
    let (v,s) := scanFree s v
    .ok (⟨.free,toInt v.index,(junk.opSize v.opIndex).toInt⟩,v,s)
  | c :: _ => .error (.bogus c)
  | [] => .error (.bogus '\x00')

theorem scanUnsigned_length (s : List Char) : (scanUnsigned s).2.length ≤ s.length :=
  scanNumber_length s

theorem scanRequest_length (s : List Char) (v : Locals) : (scanRequest s v).2.length ≤ s.length := by
  unfold scanRequest
  have h1 := scanUnsigned_length s
  split
  · rename_i s1 hs
    rwa [hs] at h1
  · rename_i index s1 hs
    have h2 := scanUnsigned_length s1
    rw [hs] at h1
    split <;> rename_i s2 hs2 <;> rw [hs2] at h2 <;> exact h2.trans h1

theorem scanFree_length (s : List Char) (v : Locals) : (scanFree s v).2.length ≤ s.length := by
  unfold scanFree
  have h1 := scanUnsigned_length s
  split <;> rename_i hs <;> rw [hs] at h1
  · exact h1
  · exact (Nat.le_succ _).trans h1
  · exact h1

theorem readOp_length {junk : Junk} {type s s' : List Char} {v v' : Locals} {op : ReadOp}
    (h : readOp junk type s v = .ok (op,v',s')) : s'.length ≤ s.length := by
  unfold readOp at h
  split at h
  · obtain ⟨-,h⟩ := Prod.mk.inj (Except.ok.inj h)
    exact (Prod.mk.inj h).2 ▸ scanRequest_length s v
  · obtain ⟨-,h⟩ := Prod.mk.inj (Except.ok.inj h)
    exact (Prod.mk.inj h).2 ▸ scanRequest_length s v
  · obtain ⟨-,h⟩ := Prod.mk.inj (Except.ok.inj h)
    exact (Prod.mk.inj h).2 ▸ scanFree_length s v
  · cases h
  · cases h

-- the loop over the request lines
def readOps (numOps : Int) (junk : Junk) (s : List Char) (v : Locals) :
    Except ReadStop (List ReadOp × Locals) :=
  match hw : scanWord s with
  | none => .ok ([],v)
  | some (type,rest) =>
    if maxWord ≤ type.length then .error .wordOverrun
    else
      match hr : readOp junk type rest v with
      | .error e => .error e
      | .ok (op,v,s') =>
        if numOps ≤ v.opIndex then .error .opsOverrun
        else
          (readOps numOps junk s' { v with opIndex := v.opIndex + 1 }).map fun r => (op :: r.1,r.2)
termination_by s.length
decreasing_by exact (readOp_length hr).trans_lt (scanWord_length hw)

-- file: what fopen and the reads of the file give; malloc gives NULL for a negative count
def readTrace (junk : Junk) (file : Option (List Char)) : Except ReadStop TraceFile :=
  match file with
  | none => .error .unixError
  | some s =>
    let (sugg,s) := scanInt s
    let (ids,s) := scanInt s
    let (n,s) := scanInt s
    let (weight,s) := scanInt s
    let numIds := ids.getD junk.numIds.toInt
    let numOps := n.getD junk.numOps.toInt
    if numOps < 0 ∨ numIds < 0 then .error .unixError
    else
      (readOps numOps junk s ⟨0,junk.size.toNat,0,0⟩).bind fun r =>
        if (r.2.maxIndex : Int) ≠ (numIds - 1) % 2 ^ 32 then .error .assertion
        else if numOps ≠ r.2.opIndex then .error .assertion
        else .ok ⟨sugg.getD junk.suggHeapsize.toInt,numIds,numOps,weight.getD junk.weight.toInt,r.1⟩

section Reading

variable {junk : Junk} {type s s' : List Char} {v v' w : Locals} {op : ReadOp} {ops : List ReadOp}
  {numOps : Int}

theorem readOps_nil (h : scanWord s = none) : readOps numOps junk s v = .ok ([],v) := by
  rw [readOps]
  split
  · rfl
  · rename_i hw
    rw [h] at hw
    cases hw

theorem readOps_cons {rest : List Char} (h : scanWord s = some (type,rest)) :
    readOps numOps junk s v =
      if maxWord ≤ type.length then .error .wordOverrun
      else (readOp junk type rest v).bind fun r =>
        if numOps ≤ r.2.1.opIndex then .error .opsOverrun
        else (readOps numOps junk r.2.2 { r.2.1 with opIndex := r.2.1.opIndex + 1 }).map fun q =>
          (r.1 :: q.1,q.2) := by
  rw [readOps]
  split
  · rename_i hw
    rw [h] at hw
    cases hw
  · rename_i hw
    rw [h] at hw
    cases hw
    split
    · rfl
    · split <;> rename_i hr <;> rw [hr] <;> rfl

theorem raiseMax_spec (v : Locals) : (raiseMax v).opIndex = v.opIndex ∧ (raiseMax v).index = v.index ∧
    (raiseMax v).maxIndex = max v.maxIndex v.index := by
  refine ⟨rfl,rfl,?_⟩
  simp only [raiseMax]
  split <;> omega

theorem scanRequest_frame (s : List Char) (v : Locals) :
    (scanRequest s v).1.opIndex = v.opIndex ∧ (scanRequest s v).1.maxIndex = v.maxIndex := by
  unfold scanRequest
  split
  · exact ⟨rfl,rfl⟩
  · split <;> exact ⟨rfl,rfl⟩

theorem scanFree_frame (s : List Char) (v : Locals) :
    (scanFree s v).1.opIndex = v.opIndex ∧ (scanFree s v).1.maxIndex = v.maxIndex := by
  unfold scanFree
  split <;> exact ⟨rfl,rfl⟩

-- max_index follows the ids of the requests, not those of the frees
theorem readOp_spec (h : readOp junk type s v = .ok (op,v',s')) : v'.opIndex = v.opIndex ∧
    ((op.type = .free ∧ v'.maxIndex = v.maxIndex) ∨
      op.type ≠ .free ∧ v'.maxIndex = max v.maxIndex v'.index ∧ op.index = toInt v'.index) := by
  have hreq {t : OpType} (ht : t ≠ .free) (he : (⟨t,toInt (scanRequest s v).1.index,
      toInt (scanRequest s v).1.size⟩,raiseMax (scanRequest s v).1,(scanRequest s v).2) =
        (op,v',s')) : v'.opIndex = v.opIndex ∧ ((op.type = .free ∧ v'.maxIndex = v.maxIndex) ∨
      op.type ≠ .free ∧ v'.maxIndex = max v.maxIndex v'.index ∧ op.index = toInt v'.index) := by
    obtain ⟨rfl,hv⟩ := Prod.mk.inj he
    obtain ⟨rfl,-⟩ := Prod.mk.inj hv
    obtain ⟨h1,h2,h3⟩ := raiseMax_spec (scanRequest s v).1
    obtain ⟨f1,f2⟩ := scanRequest_frame s v
    exact ⟨h1.trans f1,.inr ⟨ht,by rw [h3,h2,f2],by rw [h2]⟩⟩
  unfold readOp at h
  split at h
  · exact hreq (by decide) (Except.ok.inj h)
  · exact hreq (by decide) (Except.ok.inj h)
  · obtain ⟨rfl,hv⟩ := Prod.mk.inj (Except.ok.inj h)
    obtain ⟨rfl,-⟩ := Prod.mk.inj hv
    obtain ⟨f1,f2⟩ := scanFree_frame s v
    exact ⟨f1,.inl ⟨rfl,f2⟩⟩
  · cases h
  · cases h

-- what the loop leaves in its locals
structure Stored (v w : Locals) (ops : List ReadOp) : Prop where
  count : w.opIndex = v.opIndex + ops.length
  le : v.maxIndex ≤ w.maxIndex
  inside : ∀ op ∈ ops, op.type ≠ .free → ∃ n ≤ w.maxIndex, op.index = toInt n
  attained : w.maxIndex = v.maxIndex ∨
    ∃ op ∈ ops, op.type ≠ .free ∧ op.index = toInt w.maxIndex

theorem Stored.cons (hop : v'.opIndex = v.opIndex ∧ ((op.type = .free ∧ v'.maxIndex = v.maxIndex) ∨
      op.type ≠ .free ∧ v'.maxIndex = max v.maxIndex v'.index ∧ op.index = toInt v'.index))
    (h : Stored { v' with opIndex := v'.opIndex + 1 } w ops) : Stored v w (op :: ops) := by
  obtain ⟨hc,hop⟩ := hop
  obtain ⟨h1,h2,h3,h4⟩ := h
  simp only at h1 h2 h4
  refine ⟨?_,?_,?_,?_⟩
  · rw [h1,hc,List.length_cons]
    omega
  · rcases hop with ⟨-,hm⟩ | ⟨-,hm,-⟩ <;> omega
  · refine List.forall_mem_cons.mpr ⟨fun hf => ?_,h3⟩
    obtain ⟨-,hm,hi⟩ := hop.resolve_left fun h => hf h.1
    exact ⟨v'.index,by omega,hi⟩
  · rcases h4 with h4 | ⟨op',hm,hf⟩
    · rcases hop with ⟨-,hm⟩ | ⟨hf,hm,hi⟩
      · exact .inl (h4.trans hm)
      · rcases Nat.le_total v'.index v.maxIndex with hle | hle
        · exact .inl (by omega)
        · refine .inr ⟨op,List.mem_cons_self,hf,?_⟩
          rw [hi,h4,hm,Nat.max_eq_right hle]
    · exact .inr ⟨op',List.mem_cons_of_mem _ hm,hf⟩

theorem readOps_ok (h : readOps numOps junk s v = .ok (ops,w)) : (ops = [] ∧ w = v) ∨
    ∃ type rest op v' s' ops', readOp junk type rest v = .ok (op,v',s') ∧ s'.length < s.length ∧
      readOps numOps junk s' { v' with opIndex := v'.opIndex + 1 } = .ok (ops',w) ∧
        ops = op :: ops' := by
  cases hw : scanWord s with
  | none =>
    rw [readOps_nil hw] at h
    obtain ⟨rfl,rfl⟩ := Prod.mk.inj (Except.ok.inj h)
    exact .inl ⟨rfl,rfl⟩
  | some x =>
    obtain ⟨type,rest⟩ := x
    rw [readOps_cons hw] at h
    split at h
    · cases h
    · obtain ⟨⟨op,v',s'⟩,hr,h⟩ := Trials.bind_eq_ok.mp h
      split at h
      · cases h
      · obtain ⟨q,hq,hcons⟩ := Trials.map_eq_ok.mp h
        obtain ⟨rfl,rfl⟩ := Prod.mk.inj hcons
        have hlt := (readOp_length hr).trans_lt (scanWord_length hw)
        exact .inr ⟨type,rest,op,v',s',q.1,hr,hlt,hq,rfl⟩

theorem readOps_stored (h : readOps numOps junk s v = .ok (ops,w)) : Stored v w ops := by
  induction hn : s.length using Nat.strong_induction_on generalizing s v ops with
  | h n ih =>
    obtain ⟨rfl,rfl⟩ | ⟨type,rest,op,v',s',ops',hr,hlt,hq,rfl⟩ := readOps_ok h
    · exact ⟨rfl,Nat.le_refl _,fun _ hm => absurd hm List.not_mem_nil,.inl rfl⟩
    · exact (ih _ (hn ▸ hlt) hq rfl).cons (readOp_spec hr)

theorem scanInt_lt (s : List Char) (d : BitVec 32) : (scanInt s).1.getD d.toInt < 2 ^ 31 := by
  change ((scanNumber s).1.map intOf).getD d.toInt < 2 ^ 31
  cases (scanNumber s).1 with
  | none => exact d.toInt_lt
  | some x => exact Int.bmod_lt (by decide)

theorem readTrace_stored {file : Option (List Char)} {t : TraceFile}
    (h : readTrace junk file = .ok t) : ∃ v w : Locals, v.maxIndex = 0 ∧ v.opIndex = 0 ∧
      Stored v w t.ops ∧ 0 ≤ t.numIds ∧ t.numIds < 2 ^ 31 ∧
        (w.maxIndex : Int) = (t.numIds - 1) % 2 ^ 32 ∧ t.numOps = w.opIndex := by
  cases file with
  | none => cases h
  | some s =>
    simp only [readTrace] at h
    split at h
    · cases h
    · rename_i hneg
      obtain ⟨r,hr,h⟩ := Trials.bind_eq_ok.mp h
      split at h
      · cases h
      · rename_i hm
        split at h
        · cases h
        · rename_i hn
          obtain rfl := Except.ok.inj h
          exact ⟨_,_,rfl,rfl,readOps_stored hr,by simp only; omega,scanInt_lt _ _,not_not.mp hm,
            not_not.mp hn⟩

end Reading

-- the driver's op for what was read
def Reads (op : ReadOp) (op' : TraceOp) : Prop :=
  op.type = op'.type ∧ op.index = op'.index ∧ (op.type ≠ .free → op.size = op'.size)

section Spelled

variable {junk : Junk} {s : List Char} {v : Locals} {op : TraceOp} {ops : List TraceOp}
  {ws more : List (List Char)}

def OpType.letter : OpType → Char
  | .alloc => 'a'
  | .realloc => 'r'
  | .free => 'f'

-- a request line
def OpWords (op : TraceOp) (ws : List (List Char)) : Prop :=
  if op.type = .free then ∃ i, Spells op.index i ∧ ws = [['f'],i]
  else ∃ i n, Spells op.index i ∧ Spells op.size.toNat n ∧ ws = [[op.type.letter],i,n]

-- the numbers of a request fit an int
def Small (op : TraceOp) : Prop := op.index < 2 ^ 31 ∧ 0 ≤ op.size ∧ op.size < 2 ^ 31

def stored (junk : Junk) (k : Nat) (op : TraceOp) : ReadOp :=
  ⟨op.type,op.index,if op.type = .free then (junk.opSize k).toInt else op.size⟩

def storedFrom (junk : Junk) : Nat → List TraceOp → List ReadOp
  | _, [] => []
  | k, op :: ops => stored junk k op :: storedFrom junk (k + 1) ops

-- the greatest id that is asked for
def maxId (m : Nat) : List TraceOp → Nat
  | [] => m
  | op :: ops => maxId (if op.type = .free then m else max m op.index) ops

theorem scanFree_words {i : List Char} {m : Nat} (h : Spaced (i :: more) s) (hi : Spells m i)
    (hm : m < 2 ^ 32) : ∃ s', scanFree s v = ({ v with index := m },s') ∧ Spaced more s' := by
  obtain ⟨s',hnum,h,hblank⟩ := scanUnsigned_cons h hi hm
  refine ⟨s',?_,h⟩
  rw [scanFree,hnum]
  split
  · rename_i hx
    cases hx
  · rename_i hx
    obtain ⟨-,rfl⟩ := Prod.mk.inj hx
    exact absurd (hblank 'd' rfl) (by decide)
  · rename_i hx
    obtain ⟨hi,rfl⟩ := Prod.mk.inj hx
    rw [Option.some.inj hi]

theorem scanRequest_words {i j : List Char} {m n : Nat} (h : Spaced (i :: j :: more) s)
    (hi : Spells m i) (hj : Spells n j) (hm : m < 2 ^ 32) (hn : n < 2 ^ 32) :
    ∃ s', scanRequest s v = ({ v with index := m, size := n },s') ∧ Spaced more s' := by
  obtain ⟨s1,hnum1,h,-⟩ := scanUnsigned_cons h hi hm
  obtain ⟨s',hnum,h,-⟩ := scanUnsigned_cons h hj hn
  refine ⟨s',?_,h⟩
  rw [scanRequest,hnum1]
  dsimp only
  rw [hnum]

theorem readOp_words (h : Spaced (ws ++ more) s) (hw : OpWords op ws) (hs : Small op) :
    ∃ type rest v' s', scanWord s = some (type,rest) ∧ type.length = 1 ∧
      readOp junk type rest v = .ok (stored junk v.opIndex op,v',s') ∧ Spaced more s' ∧
        v'.opIndex = v.opIndex ∧
          v'.maxIndex = if op.type = .free then v.maxIndex else max v.maxIndex op.index := by
  obtain ⟨hi31,hn0,hn31⟩ := hs
  rw [OpWords] at hw
  split at hw
  · rename_i hf
    obtain ⟨i,hi,rfl⟩ := hw
    obtain ⟨rest,hword,h⟩ := scanWord_cons h
    obtain ⟨s',hfree,h⟩ := scanFree_words (v := v) h hi (by omega)
    refine ⟨_,rest,{ v with index := op.index },s',hword,rfl,?_,h,rfl,(if_pos hf).symm⟩
    rw [readOp,hfree]
    simp only [stored,hf,if_true,toInt_eq hi31]
  · rename_i hf
    obtain ⟨i,n,hi,hn,rfl⟩ := hw
    obtain ⟨rest,hword,h⟩ := scanWord_cons h
    obtain ⟨s',hreq,h⟩ := scanRequest_words (v := v) h hi hn (by omega) (by omega)
    have hsize : toInt op.size.toNat = op.size := by
      rw [toInt_eq (by omega)]
      omega
    refine ⟨_,rest,raiseMax { v with index := op.index, size := op.size.toNat },s',hword,rfl,?_,h,
      rfl,(raiseMax_spec _).2.2.trans (if_neg hf).symm⟩
    cases ht : op.type with
    | free => exact absurd ht hf
    | alloc =>
      simp only [OpType.letter,readOp,hreq,stored,ht,hsize,toInt_eq hi31,reduceCtorEq,if_false]
    | realloc =>
      simp only [OpType.letter,readOp,hreq,stored,ht,hsize,toInt_eq hi31,reduceCtorEq,if_false]

theorem readOps_words {wss : List (List (List Char))} {n : Nat} (h : Spaced wss.flatten s)
    (hw : List.Forall₂ OpWords ops wss) (hs : ∀ op ∈ ops, Small op) (hv : v.opIndex ≤ n) :
    ∃ w : Locals, w.opIndex = v.opIndex + ops.length ∧ w.maxIndex = maxId v.maxIndex ops ∧
      readOps n junk s v = if n < v.opIndex + ops.length then .error .opsOverrun
        else .ok (storedFrom junk v.opIndex ops,w) := by
  induction hw generalizing s v with
  | nil => exact ⟨v,rfl,rfl,by rw [readOps_nil (scanWord_nil h),if_neg (by simp; omega)]; rfl⟩
  | @cons op ws ops wss hop hops ih =>
    obtain ⟨hs1,hss⟩ := List.forall_mem_cons.mp hs
    obtain ⟨type,rest,v',s',hword,hlen,hread,h,hi,hm⟩ := @readOp_words junk s v op ws _ h hop hs1
    rw [readOps_cons hword,if_neg (by rw [hlen]; decide),hread]
    simp only [Except.bind]
    by_cases hn : (n : Int) ≤ v'.opIndex
    · refine ⟨⟨0,0,maxId v.maxIndex (op :: ops),v.opIndex + (ops.length + 1)⟩,rfl,rfl,?_⟩
      rw [if_pos hn,if_pos (by simp only [List.length_cons]; omega)]
    · obtain ⟨w,h1,h2,h3⟩ := ih (v := { v' with opIndex := v'.opIndex + 1 }) h hss (by simp only; omega)
      simp only at h1 h2 h3
      refine ⟨w,by rw [h1,List.length_cons]; omega,by rw [h2,hm]; rfl,?_⟩
      rw [if_neg hn,h3,hi,List.length_cons,Nat.add_assoc,Nat.add_comm 1]
      split <;> rfl

theorem maxId_lt {m n : Nat} (hm : m < n) (hops : ∀ op ∈ ops, op.index < n) : maxId m ops < n := by
  induction ops generalizing m with
  | nil => exact hm
  | cons op ops ih =>
    obtain ⟨hop,hops⟩ := List.forall_mem_cons.mp hops
    exact ih (by split <;> omega) hops

-- the words of a trace file
structure FileWords (f : TraceFile) (ops : List TraceOp) (words : List (List Char)) : Prop where
  layout : ∃ a b c d wss, words = a :: b :: c :: d :: wss.flatten ∧ Spells f.suggHeapsize.toNat a ∧
    Spells f.numIds.toNat b ∧ Spells f.numOps.toNat c ∧ Spells f.weight.toNat d ∧
      List.Forall₂ OpWords ops wss
  small : ∀ op ∈ ops, Small op
  header : ∀ n ∈ [f.suggHeapsize,f.numIds,f.numOps,f.weight], 0 ≤ n ∧ n < 2 ^ 31

theorem readTrace_words {f : TraceFile} {words : List (List Char)} (h : Spaced words s)
    (hw : FileWords f ops words) : readTrace junk (some s) =
      if f.numOps < ops.length then .error .opsOverrun
      else if f.numIds = maxId 0 ops + 1 ∧ f.numOps = ops.length then
        .ok { f with ops := storedFrom junk 0 ops }
      else .error .assertion := by
  obtain ⟨⟨a,b,c,d,wss,rfl,ha,hb,hc,hd,hwss⟩,hsmall,hhead⟩ := hw
  simp only [List.forall_mem_cons,List.not_mem_nil,false_implies,implies_true,and_true] at hhead
  obtain ⟨⟨ha0,ha31⟩,⟨hb0,hb31⟩,⟨hc0,hc31⟩,hd0,hd31⟩ := hhead
  obtain ⟨s1,hs1,h⟩ := scanInt_cons h ha (by omega)
  obtain ⟨s2,hs2,h⟩ := scanInt_cons h hb (by omega)
  obtain ⟨s3,hs3,h⟩ := scanInt_cons h hc (by omega)
  obtain ⟨s4,hs4,h⟩ := scanInt_cons h hd (by omega)
  rw [Int.toNat_of_nonneg ha0] at hs1
  rw [Int.toNat_of_nonneg hb0] at hs2
  rw [Int.toNat_of_nonneg hc0] at hs3
  rw [Int.toNat_of_nonneg hd0] at hs4
  obtain ⟨w,hcount,hmax,hread⟩ := @readOps_words junk s4 ⟨0,junk.size.toNat,0,0⟩ ops wss
    f.numOps.toNat h hwss hsmall (Nat.zero_le _)
  rw [Int.toNat_of_nonneg hc0] at hread
  have hlt : maxId 0 ops < 2 ^ 31 := maxId_lt (by decide) fun op hop => (hsmall op hop).1
  simp only [Nat.zero_add] at hcount hread
  simp only [readTrace,hs1,hs2,hs3,hs4,Option.getD_some]
  rw [if_neg (by omega),hread]
  by_cases hover : f.numOps < ops.length
  · rw [if_pos (by omega),if_pos hover]
    rfl
  · rw [if_neg (by omega),if_neg hover]
    simp only [Except.bind,hmax,hcount]
    by_cases hids : f.numIds = maxId 0 ops + 1
    · rw [if_neg (by omega)]
      by_cases hops : f.numOps = ops.length
      · rw [if_neg (not_not.mpr hops),if_pos ⟨hids,hops⟩]
      · rw [if_pos hops,if_neg fun h => hops h.2]
    · rw [if_pos (by omega),if_neg fun h => hids h.1]

theorem stored_reads (junk : Junk) (k : Nat) (ops : List TraceOp) :
    List.Forall₂ Reads (storedFrom junk k ops) ops := by
  induction ops generalizing k with
  | nil => exact .nil
  | cons op ops ih => exact .cons ⟨rfl,rfl,fun hf => if_neg hf⟩ (ih (k + 1))

def sampleFile : TraceFile := ⟨20000,2,3,1,[]⟩

def sampleRequests : List TraceOp := [⟨.alloc,0,512⟩,⟨.alloc,1,128⟩,⟨.free,0,0⟩]

def sampleWords : List (List Char) :=
  [['2','0','0','0','0'],['2'],['3'],['1']] ++
    [[['a'],['0'],['5','1','2']],[['a'],['1'],['0','1','2','8']],[['f'],['0']]].flatten

def sampleText : List Char := sampleWords.flatMap fun w => ['\n'] ++ w

theorem sampleText_spaced : Spaced sampleWords sampleText :=
  spaced_flatMap (by decide) (by decide) (by decide)

theorem sampleFile_words : FileWords sampleFile sampleRequests sampleWords := by
  have h1 : OpWords ⟨.alloc,0,512⟩ [['a'],['0'],['5','1','2']] :=
    ⟨['0'],['5','1','2'],spells_of_all (by decide),spells_of_all (by decide),rfl⟩
  have h2 : OpWords ⟨.alloc,1,128⟩ [['a'],['1'],['0','1','2','8']] :=
    ⟨['1'],['0','1','2','8'],spells_of_all (by decide),spells_of_all (by decide),rfl⟩
  have h3 : OpWords ⟨.free,0,0⟩ [['f'],['0']] := ⟨['0'],spells_of_all (by decide),rfl⟩
  exact ⟨⟨_,_,_,_,_,rfl,spells_of_all (by decide),spells_of_all (by decide),
    spells_of_all (by decide),spells_of_all (by decide),.cons h1 (.cons h2 (.cons h3 .nil))⟩,
    by simp [sampleRequests,Small],by simp [sampleFile]⟩

end Spelled

section Accepted

variable {junk : Junk} {file : Option (List Char)} {t : TraceFile} {ops : List TraceOp}

theorem serve_lt {limit n : Nat} {op : TraceOp} {ids ids' : Ids}
    (hs : Ids.serve limit op ids = some ids') (hids : ∀ x ∈ ids, x.1 < n)
    (hop : op.type ≠ .free → op.index < n) : op.index < n ∧ ∀ x ∈ ids', x.1 < n := by
  have hdrop (x) (hx : x ∈ Ids.drop op.index ids) := hids x (Ids.mem_of_mem_drop hx)
  unfold Ids.serve at hs
  split at hs
  · rename_i ht
    obtain ⟨-,rfl⟩ := by simpa only [Option.ite_none_right_eq_some,Option.some.injEq] using hs
    have hi := hop (by simp [ht])
    exact ⟨hi,List.forall_mem_cons.mpr ⟨hi,hids⟩⟩
  · rename_i ht
    obtain ⟨-,rfl⟩ := by simpa only [Option.ite_none_right_eq_some,Option.some.injEq] using hs
    have hi := hop (by simp [ht])
    exact ⟨hi,List.forall_mem_cons.mpr ⟨hi,hdrop⟩⟩
  · obtain ⟨hu,rfl⟩ := by simpa only [Option.ite_none_right_eq_some,Option.some.injEq] using hs
    obtain ⟨k,hk⟩ := Ids.inUse_iff.mp hu
    exact ⟨hids _ hk,hdrop⟩

-- what is let go of has been asked for, so the bound on the requests is one on the frees
theorem run_lt {limit n : Nat} {ids ids' : Ids}
    (hr : Runs.run (Ids.serve limit) ops ids = some ids') (hids : ∀ x ∈ ids, x.1 < n)
    (hop : ∀ op ∈ ops, op.type ≠ .free → op.index < n) : ∀ op ∈ ops, op.index < n := by
  induction ops generalizing ids with
  | nil => exact fun _ hm => absurd hm List.not_mem_nil
  | cons op ops ih =>
    obtain ⟨ids1,hs,hr⟩ := Runs.run_cons.mp hr
    obtain ⟨ho,hops⟩ := List.forall_mem_cons.mp hop
    obtain ⟨hi,h1⟩ := serve_lt hs hids ho
    exact List.forall_mem_cons.mpr ⟨hi,ih hr h1 hops⟩

theorem forall₂_mem {α β : Type} {R : α → β → Prop} {l : List α} {l' : List β}
    (h : List.Forall₂ R l l') : (∀ a ∈ l, ∃ b ∈ l', R a b) ∧ ∀ b ∈ l', ∃ a ∈ l, R a b := by
  induction h with
  | nil => simp
  | @cons a b l l' hab h ih =>
    refine ⟨List.forall_mem_cons.mpr ⟨⟨b,List.mem_cons_self,hab⟩,fun c hc => ?_⟩,
      List.forall_mem_cons.mpr ⟨⟨a,List.mem_cons_self,hab⟩,fun c hc => ?_⟩⟩
    · obtain ⟨d,hd,hr⟩ := ih.1 c hc
      exact ⟨d,List.mem_cons_of_mem _ hd,hr⟩
    · obtain ⟨d,hd,hr⟩ := ih.2 c hc
      exact ⟨d,List.mem_cons_of_mem _ hd,hr⟩

-- num_ids - 1 wraps for no ids, and is then no id that an int holds
theorem numIds_pos {v w : Locals} (hst : Stored v w t.ops) (hv : v.maxIndex = 0)
    (hops : List.Forall₂ Reads t.ops ops) (hge : 0 ≤ t.numIds)
    (hmax : (w.maxIndex : Int) = (t.numIds - 1) % 2 ^ 32) : 0 < t.numIds := by
  by_contra h0
  have h1 : w.maxIndex = 4294967295 := by omega
  rcases hst.attained with ha | ⟨op,hop,hf,hi⟩
  · omega
  · obtain ⟨op',-,-,hi',-⟩ := (forall₂_mem hops).1 op hop
    rw [hi',h1] at hi
    have : toInt (4294967295 : Nat) = -1 := by decide
    omega

end Accepted

end Malloc
