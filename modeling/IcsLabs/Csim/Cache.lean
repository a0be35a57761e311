import IcsLabs.Lib.Conversion
import IcsLabs.Lib.Runs
import Mathlib.Algebra.Ring.Int.Defs
import Mathlib.Algebra.Ring.Nat
import Mathlib.Logic.Function.Basic

namespace Csim
open Libc (intMul)

-- the static variables of csim.c; the counters and the ages are exact integers
structure State where
  E : Int
  S : Int
  B : Int
  hitCount : Int
  missCount : Int
  evictionCount : Int
  cache : Int → Int

def startOf (c : State) (index : Int) : Int := index * 2 * c.E
def endOf (c : State) (index : Int) : Int := (index + 1) * 2 * c.E

structure Locals where
  hit : Bool
  miss : Bool
  evict : Bool
  last : Int
  missIn : Int
  evictIn : Int

-- for (; cache[i] != 0 && i < limit; i += 2) cache[i]++, at most n turns
def bumpValid (limit : Int) : Nat → Int → (Int → Int) → Int → Int
  | 0, _, cache => cache
  | n + 1, i, cache =>
    if cache i ≠ 0 ∧ i < limit then
      bumpValid limit n (i + 2) (Function.update cache i (cache i + 1))
    else cache

-- for (; i < limit; i += 2) cache[i]++, at most n turns
def bump (limit : Int) : Nat → Int → (Int → Int) → Int → Int
  | 0, _, cache => cache
  | n + 1, i, cache =>
    if i < limit then bump limit n (i + 2) (Function.update cache i (cache i + 1)) else cache

def hitLine (index j : Int) (c : State) : State :=
  let cache := bumpValid (endOf c index + 1) c.E.toNat (startOf c index + 1) c.cache
  { c with cache := Function.update cache (j + 1) 1, hitCount := c.hitCount + 1 }

def scan (index tag : Int) : Nat → Int → Locals → State → Locals × State
  | 0, _, l, c => (l,c)
  | n + 1, j, l, c =>
    if j < endOf c index then
      if c.cache j = tag ∧ c.cache (j + 1) ≠ 0 then ({ l with hit := true },hitLine index j c)
      else if l.miss = false ∧ c.cache j = 0 ∧ c.cache (j + 1) = 0 then
        scan index tag n (j + 2) { l with miss := true, missIn := j } c
      else if c.cache (j + 1) > l.last then
        scan index tag n (j + 2) { l with last := c.cache (j + 1), evictIn := j } c
      else scan index tag n (j + 2) l c
    else (l,c)

def fillLine (index tag missIn : Int) (c : State) : State :=
  let cache := Function.update c.cache missIn tag
  let cache := bump (missIn + 1) c.E.toNat (startOf c index + 1) cache
  { c with cache := Function.update cache (missIn + 1) 1, missCount := c.missCount + 1 }

def evictLine (index tag evictIn : Int) (c : State) : State :=
  let cache := bump (endOf c index + 1) c.E.toNat (startOf c index + 1) c.cache
  let cache := Function.update cache evictIn tag
  { c with
    cache := Function.update cache (evictIn + 1) 1
    evictionCount := c.evictionCount + 1
    missCount := c.missCount + 1 }

def accessLine (index tag : Int) (c : State) : State :=
  let l : Locals := ⟨false,false,true,0,0,0⟩
  let (l,c) := scan index tag c.E.toNat (startOf c index) l c
  if l.hit = false ∧ l.miss = true then fillLine index tag l.missIn c
  else if l.hit = false ∧ l.evict = true then evictLine index tag l.evictIn c
  else c

-- the loop variables are exact here, and ints in Ints.addressCache; none: a division traps
def addressCache (action : Char) (address : Int) (c : State) : Option State :=
  if c.B = 0 ∨ c.S = 0 ∨ intMul c.B c.S = 0 then none
  else
    let index := (address.tdiv c.B).tmod c.S
    let tag := address.tdiv (intMul c.B c.S)
    if action = 'L' ∨ action = 'M' ∨ action = 'S' then
      let c := accessLine index tag c
      some (if action = 'M' then { c with hitCount := c.hitCount + 1 } else c)
    else some c

-- getInput with -s s -E E -b b, then calloc in main
def zeroed (s E b : Nat) : State where
  E := E
  S := 2 ^ s
  B := 2 ^ b
  hitCount := 0
  missCount := 0
  evictionCount := 0
  cache := fun _ => 0

structure Access where
  action : Char
  address : Nat
deriving DecidableEq

def runTrace (trace : List Access) (c : State) : Option State :=
  Runs.run (fun a c => addressCache a.action a.address c) trace c

end Csim
