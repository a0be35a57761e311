import IcsLabs.Lib.Trials
import IcsLabs.Malloc.Heap
import Mathlib.Data.List.Basic
import Mathlib.Logic.Function.Basic

namespace Malloc
open Bytes
open Libc (toInt toSizeT intAdd intSub)

inductive OpType where
  | alloc
  | free
  | realloc
deriving DecidableEq

structure TraceOp where
  type : OpType
  index : Nat
  size : Int
deriving DecidableEq

structure Range where
  lo : Nat
  hi : Nat
deriving DecidableEq

-- the package that mdriver tests, with memlib under it; none: the call does not return
structure Package (σ : Type) where
  memResetBrk : σ → σ
  memHeapLo : σ → Nat
  memHeapHi : σ → Nat
  memHeapsize : σ → Nat
  mmInit : σ → Int × σ
  mmMalloc : Nat → σ → Option (Nat × σ)
  mmFree : Nat → σ → Option σ
  mmRealloc : Nat → Nat → σ → Option (Nat × σ)
  byte : σ → Nat → Byte
  memset : Nat → Byte → Nat → σ → σ

inductive Fault where
  | initFailed
  | mallocFailed
  | reallocFailed
  | misaligned (lo : Nat)
  | outside (lo hi heapLo heapHi : Nat)
  | overlaps (lo hi plo phi : Nat)
  | notPreserved
deriving DecidableEq

-- %p
def pointer (p : Nat) : String :=
  if p = 0 then "(nil)" else "0x" ++ String.ofList (Nat.toDigits 16 p)

def Fault.msg : Fault → String
  | .initFailed => "mm_init failed."
  | .mallocFailed => "mm_malloc failed."
  | .reallocFailed => "mm_realloc failed."
  | .misaligned lo => s!"Payload address ({pointer lo}) not aligned to 8 bytes"
  | .outside lo hi heapLo heapHi => s!"Payload ({pointer lo}:{pointer hi}) lies outside heap " ++
      s!"({pointer heapLo}:{pointer heapHi})"
  | .overlaps lo hi plo phi => s!"Payload ({pointer lo}:{pointer hi}) overlaps another payload " ++
      s!"({pointer plo}:{pointer phi})\n"
  | .notPreserved => "mm_realloc did not preserve the data from old block"

def lineNum (i : Nat) : Nat := i + 5

def mallocError (tracenum opnum : Nat) (fault : Fault) : String :=
  s!"ERROR [trace {tracenum}, line {lineNum opnum}]: {fault.msg}\n"

-- how an evaluation ends before its trace does; an error is reported and the driver goes on
inductive Stop where
  | error (opnum : Nat) (fault : Fault)
  | appError (msg : String)
  | assertion
  | crash
deriving DecidableEq

-- the package, the range list and the two arrays of the trace
structure Eval (σ : Type) where
  pkg : σ
  ranges : List Range
  blocks : Nat → Nat
  blockSizes : Nat → Nat

abbrev Judged (σ : Type) := Except (Stop × Eval σ) (Eval σ)

def lowByte (index : Nat) : Nat := index &&& 0xff

section Range

variable {σ : Type} (P : Package σ)

-- the test of add_range: an end of lo..hi lies in p
def Range.Hit (lo hi : Nat) (p : Range) : Prop := (p.lo ≤ lo ∧ lo ≤ p.hi) ∨ (p.lo ≤ hi ∧ hi ≤ p.hi)

instance (lo hi : Nat) : DecidablePred (Range.Hit lo hi) := fun p =>
  inferInstanceAs (Decidable ((p.lo ≤ lo ∧ lo ≤ p.hi) ∨ (p.lo ≤ hi ∧ hi ≤ p.hi)))

def addRange (opnum lo : Nat) (size : Int) (e : Eval σ) : Judged σ :=
  let hi := lo + size.toNat - 1
  let heapLo := P.memHeapLo e.pkg
  let heapHi := P.memHeapHi e.pkg
  if ¬ 0 < size then .error (.assertion,e)
  else if lo % 8 ≠ 0 then .error (.error opnum (.misaligned lo),e)
  else if lo < heapLo ∨ heapHi < lo ∨ hi < heapLo ∨ heapHi < hi then
    .error (.error opnum (.outside lo hi heapLo heapHi),e)
  else
    match e.ranges.find? (Range.Hit lo hi) with
    | some p => .error (.error opnum (.overlaps lo hi p.lo p.hi),e)
    | none => .ok { e with ranges := ⟨lo,hi⟩ :: e.ranges }

def removeRange (lo : Nat) (ranges : List Range) : List Range := ranges.eraseP fun p => p.lo = lo

end Range

namespace Eval

variable {σ : Type} (P : Package σ)

def fill (p index : Nat) (size : Int) (e : Eval σ) : Eval σ :=
  { e with pkg := P.memset p (BitVec.ofNat 8 (lowByte index)) (toSizeT size) e.pkg }

-- remember region
def remember (index p : Nat) (size : Int) (e : Eval σ) : Eval σ :=
  { e with
    blocks := Function.update e.blocks index p
    blockSizes := Function.update e.blockSizes index (toSizeT size) }

-- newp[j] is a signed char
def preserved (newp index : Nat) (oldsize : Int) (e : Eval σ) : Bool :=
  (List.range oldsize.toNat).all fun j => (P.byte e.pkg (newp + j)).toInt = lowByte index

end Eval

section Valid

variable {σ : Type} (P : Package σ)

def validAlloc (i : Nat) (op : TraceOp) (e : Eval σ) : Judged σ :=
  match P.mmMalloc (toSizeT op.size) e.pkg with
  | none => .error (.crash,e)
  | some (p,s) =>
    let e := { e with pkg := s }
    if p = 0 then .error (.error i .mallocFailed,e)
    else (addRange P i p op.size e).bind fun e =>
      .ok ((e.fill P p op.index op.size).remember op.index p op.size)

def validRealloc (i : Nat) (op : TraceOp) (e : Eval σ) : Judged σ :=
  let oldp := e.blocks op.index
  match P.mmRealloc oldp (toSizeT op.size) e.pkg with
  | none => .error (.crash,e)
  | some (newp,s) =>
    let e := { e with pkg := s }
    if newp = 0 then .error (.error i .reallocFailed,e)
    else
      let e := { e with ranges := removeRange oldp e.ranges }
      (addRange P i newp op.size e).bind fun e =>
        let oldsize := toInt (e.blockSizes op.index)
        let oldsize := if op.size < oldsize then op.size else oldsize
        if e.preserved P newp op.index oldsize then
          .ok ((e.fill P newp op.index op.size).remember op.index newp op.size)
        else .error (.error i .notPreserved,e)

def validFree (op : TraceOp) (e : Eval σ) : Judged σ :=
  let p := e.blocks op.index
  let e := { e with ranges := removeRange p e.ranges }
  match P.mmFree p e.pkg with
  | none => .error (.crash,e)
  | some s => .ok { e with pkg := s }

def validOp (i : Nat) (op : TraceOp) (e : Eval σ) : Judged σ :=
  match op.type with
  | .alloc => validAlloc P i op e
  | .realloc => validRealloc P i op e
  | .free => validFree P op e

def evalMmValid (ops : List TraceOp) (e : Eval σ) : Judged σ :=
  let e := { e with pkg := P.memResetBrk e.pkg, ranges := [] }
  let (r,s) := P.mmInit e.pkg
  let e := { e with pkg := s }
  if r < 0 then .error (.error 0 .initFailed,e) else Trials.run (validOp P) 0 ops e

end Valid

section Util

variable {σ : Type} (P : Package σ)

structure Usage (σ : Type) where
  eval : Eval σ
  totalSize : Int
  maxTotalSize : Int

-- keep track of the total size of all allocated blocks and of its maximum
def Usage.grow (d : Int) (e : Eval σ) (u : Usage σ) : Usage σ :=
  let total := intAdd u.totalSize d
  ⟨e,total,if total > u.maxTotalSize then total else u.maxTotalSize⟩

def utilAlloc (op : TraceOp) (u : Usage σ) : Except Stop (Usage σ) :=
  match P.mmMalloc (toSizeT op.size) u.eval.pkg with
  | none => .error .crash
  | some (p,s) =>
    if p = 0 then .error (.appError "mm_malloc failed in eval_mm_util")
    else .ok (u.grow op.size ({ u.eval with pkg := s }.remember op.index p op.size))

def utilRealloc (op : TraceOp) (u : Usage σ) : Except Stop (Usage σ) :=
  let oldsize := toInt (u.eval.blockSizes op.index)
  match P.mmRealloc (u.eval.blocks op.index) (toSizeT op.size) u.eval.pkg with
  | none => .error .crash
  | some (newp,s) =>
    if newp = 0 then .error (.appError "mm_realloc failed in eval_mm_util")
    else
      .ok (u.grow (intSub op.size oldsize) ({ u.eval with pkg := s }.remember op.index newp op.size))

def utilFree (op : TraceOp) (u : Usage σ) : Except Stop (Usage σ) :=
  let size := toInt (u.eval.blockSizes op.index)
  match P.mmFree (u.eval.blocks op.index) u.eval.pkg with
  | none => .error .crash
  | some s => .ok ⟨{ u.eval with pkg := s },intSub u.totalSize size,u.maxTotalSize⟩

def utilOp (_ : Nat) (op : TraceOp) (u : Usage σ) : Except Stop (Usage σ) :=
  match op.type with
  | .alloc => utilAlloc P op u
  | .realloc => utilRealloc P op u
  | .free => utilFree P op u

-- the utilization is the quotient of the last maxTotalSize and the heap size then
def evalMmUtil (ops : List TraceOp) (e : Eval σ) : Except Stop (Usage σ) :=
  let (r,s) := P.mmInit (P.memResetBrk e.pkg)
  if r < 0 then .error (.appError "mm_init failed in eval_mm_util")
  else Trials.run (utilOp P) 0 ops ⟨{ e with pkg := s },0,0⟩

end Util

section Speed

variable {σ : Type} (P : Package σ)

def speedOp (_ : Nat) (op : TraceOp) (e : Eval σ) : Except Stop (Eval σ) :=
  match op.type with
  | .alloc =>
    match P.mmMalloc (toSizeT op.size) e.pkg with
    | none => .error .crash
    | some (p,s) =>
      if p = 0 then .error (.appError "mm_malloc error in eval_mm_speed")
      else .ok { e with pkg := s, blocks := Function.update e.blocks op.index p }
  | .realloc =>
    match P.mmRealloc (e.blocks op.index) (toSizeT op.size) e.pkg with
    | none => .error .crash
    | some (newp,s) =>
      if newp = 0 then .error (.appError "mm_realloc error in eval_mm_speed")
      else .ok { e with pkg := s, blocks := Function.update e.blocks op.index newp }
  | .free =>
    match P.mmFree (e.blocks op.index) e.pkg with
    | none => .error .crash
    | some s => .ok { e with pkg := s }

def evalMmSpeed (ops : List TraceOp) (e : Eval σ) : Except Stop (Eval σ) :=
  let (r,s) := P.mmInit (P.memResetBrk e.pkg)
  if r < 0 then .error (.appError "mm_init failed in eval_mm_speed")
  else Trials.run (speedOp P) 0 ops { e with pkg := s }

end Speed

section Session

variable {σ : Type} (P : Package σ)

structure Trace where
  ops : List TraceOp
  blocks : Nat → Nat
  blockSizes : Nat → Nat

-- util is a quotient, 0 from calloc where the trace is not valid
structure Stats where
  ops : Nat
  valid : Bool
  util : Option (Int × Nat)
deriving DecidableEq

structure Session (σ : Type) where
  eval : Eval σ
  errors : Nat
  out : List String
  stats : List Stats

-- fsecs calls eval_mm_speed a number of times
def repeatSpeed (ops : List TraceOp) : Nat → Eval σ → Except Stop (Eval σ)
  | 0, e => .ok e
  | n + 1, e => (evalMmSpeed P ops e).bind (repeatSpeed ops n)

-- one turn of the loop of main over the traces
def evalTrace (times i : Nat) (t : Trace) (s : Session σ) : Except Stop (Session σ) :=
  match evalMmValid P t.ops { s.eval with blocks := t.blocks, blockSizes := t.blockSizes } with
  | .error (.error opnum fault,e) =>
    .ok ⟨e,s.errors + 1,s.out ++ [mallocError i opnum fault],
      s.stats ++ [⟨t.ops.length,false,none⟩]⟩
  | .error (st,_) => .error st
  | .ok e =>
    match evalMmUtil P t.ops e with
    | .error st => .error st
    | .ok u =>
      (repeatSpeed P t.ops times u.eval).bind fun e =>
        .ok ⟨e,s.errors,s.out,
          s.stats ++ [⟨t.ops.length,true,some (u.maxTotalSize,P.memHeapsize u.eval.pkg)⟩]⟩

def evalTraces (times : Nat) (traces : List Trace) (e : Eval σ) : Except Stop (Session σ) :=
  Trials.run (evalTrace P times) 0 traces ⟨e,0,[],[]⟩

end Session

end Malloc
