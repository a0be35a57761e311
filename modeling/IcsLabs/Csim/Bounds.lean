import IcsLabs.Csim.Fields
import IcsLabs.Lib.Traced
import Mathlib.Tactic.Ring

namespace Csim
open Lru
open Libc (intMul)

-- an index at which cache is read or written, or a value given to an int loop variable
inductive Event where
  | cell (i : Int)
  | int (v : Int)
deriving DecidableEq

abbrev Trace := Traced Event

-- addressCache again, with its events
namespace Logged

def load (cache : Int → Int) (i : Int) : Trace Int := ⟨cache i,[.cell i]⟩

def store (cache : Int → Int) (i x : Int) : Trace (Int → Int) :=
  ⟨Function.update cache i x,[.cell i]⟩

def int (v : Int) : Trace Int := ⟨v,[.int v]⟩

-- cache[i]++
def increment (cache : Int → Int) (i : Int) : Trace (Int → Int) := do
  let x ← load cache i
  store cache i (x + 1)

def bumpValid (limit : Int) : Nat → Int → (Int → Int) → Trace (Int → Int)
  | 0, _, cache => return cache
  | n + 1, i, cache => do
    let x ← load cache i
    if x ≠ 0 ∧ i < limit then
      let cache ← increment cache i
      let i ← int (i + 2)
      bumpValid limit n i cache
    else return cache

def bump (limit : Int) : Nat → Int → (Int → Int) → Trace (Int → Int)
  | 0, _, cache => return cache
  | n + 1, i, cache =>
    if i < limit then do
      let cache ← increment cache i
      let i ← int (i + 2)
      bump limit n i cache
    else return cache

-- the test that ends the loop is made after up to E turns
def hitLine (index j : Int) (c : State) : Trace State := do
  let i ← int (startOf c index + 1)
  let cache ← bumpValid (endOf c index + 1) (c.E.toNat + 1) i c.cache
  let cache ← store cache (j + 1) 1
  return { c with cache := cache, hitCount := c.hitCount + 1 }

def isHit (cache : Int → Int) (tag j : Int) : Trace Bool := do
  let x ← load cache j
  if x = tag then
    let m ← load cache (j + 1)
    return decide (m ≠ 0)
  else return false

def isEmpty (cache : Int → Int) (miss : Bool) (j : Int) : Trace Bool :=
  if miss = false then do
    let x ← load cache j
    if x = 0 then
      let m ← load cache (j + 1)
      return decide (m = 0)
    else return false
  else return false

def isOlder (cache : Int → Int) (last j : Int) : Trace Bool := do
  let m ← load cache (j + 1)
  return decide (m > last)

def scan (index tag : Int) : Nat → Int → Locals → State → Trace (Locals × State)
  | 0, _, l, c => return (l,c)
  | n + 1, j, l, c =>
    if j < endOf c index then do
      if ← isHit c.cache tag j then
        let c ← hitLine index j c
        return ({ l with hit := true },c)
      else if ← isEmpty c.cache l.miss j then
        let j' ← int (j + 2)
        scan index tag n j' { l with miss := true, missIn := j } c
      else if ← isOlder c.cache l.last j then
        let m ← load c.cache (j + 1)
        let j' ← int (j + 2)
        scan index tag n j' { l with last := m, evictIn := j } c
      else
        let j' ← int (j + 2)
        scan index tag n j' l c
    else return (l,c)

def fillLine (index tag missIn : Int) (c : State) : Trace State := do
  let cache ← store c.cache missIn tag
  let j ← int (startOf c index + 1)
  let cache ← bump (missIn + 1) c.E.toNat j cache
  let cache ← store cache (missIn + 1) 1
  return { c with cache := cache, missCount := c.missCount + 1 }

def evictLine (index tag evictIn : Int) (c : State) : Trace State := do
  let k ← int (startOf c index + 1)
  let cache ← bump (endOf c index + 1) c.E.toNat k c.cache
  let cache ← store cache evictIn tag
  let cache ← store cache (evictIn + 1) 1
  return { c with
    cache := cache
    evictionCount := c.evictionCount + 1
    missCount := c.missCount + 1 }

def accessLine (index tag : Int) (c : State) : Trace State := do
  let j ← int (startOf c index)
  let (l,c) ← scan index tag c.E.toNat j ⟨false,false,true,0,0,0⟩ c
  if l.hit = false ∧ l.miss = true then fillLine index tag l.missIn c
  else if l.hit = false ∧ l.evict = true then evictLine index tag l.evictIn c
  else return c

def addressCache (action : Char) (address : Int) (c : State) : Trace (Option State) :=
  if c.B = 0 ∨ c.S = 0 ∨ intMul c.B c.S = 0 then return none
  else if action = 'L' ∨ action = 'M' ∨ action = 'S' then do
    let c ← accessLine (indexOf c address) (tagOf c address) c
    return some (if action = 'M' then { c with hitCount := c.hitCount + 1 } else c)
  else return some c

section Values

variable {limit i index tag j missIn evictIn : Int} {n : Nat} {cache : Int → Int} {l : Locals}
  {c : State}

@[simp] theorem load_val : (load cache i).val = cache i := rfl

@[simp] theorem int_val : (int i).val = i := rfl

@[simp] theorem store_val (x : Int) : (store cache i x).val = Function.update cache i x := rfl

@[simp] theorem increment_val :
    (increment cache i).val = Function.update cache i (cache i + 1) := rfl

theorem bumpValid_val (h : limit ≤ i + 2 * n) :
    (bumpValid limit (n + 1) i cache).val = Csim.bumpValid limit n i cache := by
  induction n generalizing i cache with
  | zero =>
    rw [bumpValid,Csim.bumpValid,Traced.val_bind,if_neg fun hc => by
      have := hc.2
      omega]
    rfl
  | succ n ih =>
    rw [bumpValid,Csim.bumpValid,Traced.val_bind,load_val]
    by_cases hc : cache i ≠ 0 ∧ i < limit
    · rw [if_pos hc,if_pos hc,Traced.val_bind,Traced.val_bind]
      exact ih (by simp only [int_val]; omega)
    · rw [if_neg hc,if_neg hc]
      rfl

@[simp] theorem bump_val : (bump limit n i cache).val = Csim.bump limit n i cache := by
  induction n generalizing i cache with
  | zero => rfl
  | succ n ih =>
    rw [bump,Csim.bump]
    by_cases hc : i < limit
    · rw [if_pos hc,if_pos hc,Traced.val_bind,Traced.val_bind]
      exact ih
    · rw [if_neg hc,if_neg hc]
      rfl

@[simp] theorem isHit_val :
    (isHit cache tag j).val = decide (cache j = tag ∧ cache (j + 1) ≠ 0) := by
  rw [isHit,Traced.val_bind,load_val]
  by_cases h : cache j = tag
  · rw [if_pos h]
    exact decide_eq_decide.mpr (and_iff_right h).symm
  · rw [if_neg h]
    exact (decide_eq_false fun hc => h hc.1).symm

@[simp] theorem isEmpty_val (miss : Bool) : (isEmpty cache miss j).val =
    decide (miss = false ∧ cache j = 0 ∧ cache (j + 1) = 0) := by
  rw [isEmpty]
  cases miss with
  | true => rfl
  | false =>
    rw [if_pos rfl,Traced.val_bind,load_val]
    by_cases h : cache j = 0
    · rw [if_pos h]
      exact decide_eq_decide.mpr ((and_iff_right rfl).trans (and_iff_right h)).symm
    · rw [if_neg h]
      exact (decide_eq_false fun hc => h hc.2.1).symm

@[simp] theorem isOlder_val (last : Int) :
    (isOlder cache last j).val = decide (cache (j + 1) > last) := rfl

theorem hitLine_val (hE : c.E = n) : (hitLine index j c).val = Csim.hitLine index j c := by
  have hl : endOf c index + 1 ≤ startOf c index + 1 + 2 * (c.E.toNat : Nat) := by
    rw [endOf_eq index hE]
    omega
  simp only [hitLine,Csim.hitLine,Traced.val_bind,Traced.val_pure,store_val,int_val,
    bumpValid_val hl]

@[simp] theorem fillLine_val :
    (fillLine index tag missIn c).val = Csim.fillLine index tag missIn c := by
  simp only [fillLine,Csim.fillLine,Traced.val_bind,Traced.val_pure,store_val,int_val,bump_val]

@[simp] theorem evictLine_val :
    (evictLine index tag evictIn c).val = Csim.evictLine index tag evictIn c := by
  simp only [evictLine,Csim.evictLine,Traced.val_bind,Traced.val_pure,store_val,int_val,bump_val]

theorem scan_val {m : Nat} (hE : c.E = m) :
    (scan index tag n j l c).val = Csim.scan index tag n j l c := by
  induction n generalizing j l with
  | zero => rfl
  | succ n ih =>
    rw [scan,Csim.scan]
    by_cases hj : j < endOf c index
    · rw [if_pos hj,if_pos hj,Traced.val_bind,isHit_val]
      by_cases hh : c.cache j = tag ∧ c.cache (j + 1) ≠ 0
      · rw [if_pos (decide_eq_true hh),if_pos hh,Traced.val_bind,hitLine_val hE]
        rfl
      · rw [if_neg (by simpa using hh),if_neg hh,Traced.val_bind,isEmpty_val]
        by_cases he : l.miss = false ∧ c.cache j = 0 ∧ c.cache (j + 1) = 0
        · rw [if_pos (decide_eq_true he),if_pos he]
          exact ih
        · rw [if_neg (by simpa using he),if_neg he,Traced.val_bind,isOlder_val]
          by_cases ho : c.cache (j + 1) > l.last
          · rw [if_pos (decide_eq_true ho),if_pos ho]
            exact ih
          · rw [if_neg (by simpa using ho),if_neg ho]
            exact ih
    · rw [if_neg hj,if_neg hj]
      rfl

theorem accessLine_val (hE : c.E = n) :
    (accessLine index tag c).val = Csim.accessLine index tag c := by
  have hs : (scan index tag c.E.toNat (startOf c index) ⟨false,false,true,0,0,0⟩ c).val =
      Csim.scan index tag c.E.toNat (startOf c index) ⟨false,false,true,0,0,0⟩ c := scan_val hE
  simp only [accessLine,Csim.accessLine,Traced.val_bind,int_val,hs]
  split_ifs
  · exact fillLine_val
  · exact evictLine_val
  · rfl

theorem addressCache_val (hE : c.E = n) (action : Char) (address : Int) :
    (addressCache action address c).val = Csim.addressCache action address c := by
  rw [addressCache,addressCache_fields]
  split_ifs with hz ha hm
  · rfl
  · rw [Traced.val_bind,accessLine_val hE]
    rfl
  · rw [Traced.val_bind,accessLine_val hE]
    rfl
  · rfl

end Values

section Events

-- the lines of a set, and whether all of them are in use
def Holds (index tag : Int) (c : State) : Prop :=
  ∃ k : Nat, k < c.E ∧ c.cache (startOf c index + 2 * k) = tag ∧
    c.cache (startOf c index + 2 * k + 1) ≠ 0

def Full (index : Int) (c : State) : Prop :=
  ∀ k : Nat, k < c.E → c.cache (startOf c index + 2 * k + 1) ≠ 0

-- every cell of the set, and every number up to one past it, is harmless
structure SetFine (P : Event → Prop) (index : Int) (c : State) : Prop where
  cells : ∀ x, startOf c index ≤ x → x < endOf c index → P (.cell x)
  ints : ∀ v, startOf c index ≤ v → v ≤ endOf c index + 1 → P (.int v)

variable {P : Event → Prop} {index tag i j : Int} {m n : Nat} {cache : Int → Int} {l : Locals}
  {c : State}

@[simp] theorem load_all : (load cache i).All P ↔ P (.cell i) := Traced.all_mk _ _

@[simp] theorem store_all (x : Int) : (store cache i x).All P ↔ P (.cell i) := Traced.all_mk _ _

@[simp] theorem int_all : (int i).All P ↔ P (.int i) := Traced.all_mk _ _

@[simp] theorem increment_all : (increment cache i).All P ↔ P (.cell i) := by
  simp [increment]

theorem every_line_succ (Q : Int → Prop) : (∀ k < n + 1, Q (i + 2 * (k : Nat))) ↔
    Q i ∧ ∀ k < n, Q (i + 2 + 2 * (k : Nat)) := by
  have hshift (k : Nat) : i + 2 * ((k + 1 : Nat) : Int) = i + 2 + 2 * k := by omega
  simp only [Nat.forall_lt_succ_left,hshift,Nat.cast_zero,Int.mul_zero,Int.add_zero]

theorem some_line_succ (Q : Int → Prop) : (∃ k < n + 1, Q (i + 2 * (k : Nat))) ↔
    Q i ∨ ∃ k < n, Q (i + 2 + 2 * (k : Nat)) := by
  have hshift (k : Nat) : i + 2 * ((k + 1 : Nat) : Int) = i + 2 + 2 * k := by omega
  simp only [Nat.exists_lt_succ_left,hshift,Nat.cast_zero,Int.mul_zero,Int.add_zero]

-- the loop reads on past the last line when no mark is 0
theorem bumpValid_all (hc : ∀ k < n, P (.cell (i + 2 * k))) (hi : ∀ k < n, P (.int (i + 2 * k + 2))) :
    (bumpValid (i + 2 * n) (n + 1) i cache).All P ↔
      ((∀ k < n, cache (i + 2 * k) ≠ 0) → P (.cell (i + 2 * n))) := by
  induction n generalizing i cache with
  | zero =>
    rw [bumpValid,Traced.all_bind,load_all,if_neg fun hc => by
      have := hc.2
      omega]
    simp
  | succ n ih =>
    obtain ⟨h0,hc⟩ := (every_line_succ fun x => P (.cell x)).mp hc
    obtain ⟨hi0,hi⟩ := (every_line_succ fun x => P (.int (x + 2))).mp hi
    have hend : i + 2 * ((n + 1 : Nat) : Int) = i + 2 + 2 * n := by omega
    rw [bumpValid,Traced.all_bind,load_all,load_val,and_iff_right h0,
      every_line_succ fun x => cache x ≠ 0]
    by_cases hx : cache i = 0
    · rw [if_neg fun hc => hc.1 hx]
      exact iff_of_true (Traced.all_pure _) fun hall => absurd hx hall.1
    · have hkeep (k : Nat) : Function.update cache i (cache i + 1) (i + 2 + 2 * k) =
          cache (i + 2 + 2 * k) := Function.update_of_ne (by omega) _ _
      rw [if_pos ⟨hx,by omega⟩,Traced.all_bind,increment_all,and_iff_right h0,Traced.all_bind,
        int_all,int_val,and_iff_right hi0,hend,ih hc hi,increment_val,and_iff_right hx]
      simp only [hkeep]

theorem bump_all (hc : ∀ k < m, P (.cell (i + 2 * k))) (hi : ∀ k < m, P (.int (i + 2 * k + 2))) :
    (bump (i + 2 * m) n i cache).All P := by
  induction n generalizing i m cache with
  | zero => exact Traced.all_pure _
  | succ n ih =>
    rw [bump]
    refine Traced.all_ite (fun hlt => ?_) fun _ => Traced.all_pure _
    obtain ⟨m,rfl⟩ : ∃ k, m = k + 1 := ⟨m - 1,by omega⟩
    obtain ⟨h0,hc⟩ := (every_line_succ fun x => P (.cell x)).mp hc
    obtain ⟨hi0,hi⟩ := (every_line_succ fun x => P (.int (x + 2))).mp hi
    have hend : i + 2 * ((m + 1 : Nat) : Int) = i + 2 + 2 * m := by omega
    rw [Traced.all_bind,increment_all,Traced.all_bind,int_all,int_val,hend]
    exact ⟨h0,hi0,ih hc hi⟩

theorem hitLine_all (hf : SetFine P index c) (hE : c.E = n) (hj : startOf c index ≤ j)
    (hj' : j + 1 < endOf c index) :
    (hitLine index j c).All P ↔ (Full index c → P (.cell (endOf c index + 1))) := by
  have hend := endOf_eq index hE
  have hn : c.E.toNat = n := by simp [hE]
  have hlim : endOf c index + 1 = startOf c index + 1 + 2 * n := by omega
  have hfull : Full index c ↔ ∀ k < n, c.cache (startOf c index + 1 + 2 * k) ≠ 0 := by
    simp only [Full,hE,Nat.cast_lt,show ∀ k : Nat, startOf c index + 2 * k + 1 =
      startOf c index + 1 + 2 * k by omega]
  have hb : (bumpValid (endOf c index + 1) (c.E.toNat + 1) (startOf c index + 1) c.cache).All P ↔
      (Full index c → P (.cell (endOf c index + 1))) := by
    rw [hn,hlim,hfull]
    refine bumpValid_all (fun k hk => hf.cells _ ?_ ?_) fun k hk => hf.ints _ ?_ ?_ <;> omega
  simp only [hitLine,Traced.all_bind,Traced.all_pure,int_all,int_val,store_all,hb,and_true]
  refine (and_iff_right (hf.ints _ ?_ ?_)).trans (and_iff_left (hf.cells _ ?_ hj')) <;> omega

theorem isHit_all (h : P (.cell j)) (h' : P (.cell (j + 1))) : (isHit cache tag j).All P := by
  rw [isHit,Traced.all_bind,load_all]
  refine ⟨h,Traced.all_ite (fun _ => ?_) fun _ => Traced.all_pure _⟩
  simpa using h'

theorem isEmpty_all (miss : Bool) (h : P (.cell j)) (h' : P (.cell (j + 1))) :
    (isEmpty cache miss j).All P := by
  rw [isEmpty]
  refine Traced.all_ite (fun _ => ?_) fun _ => Traced.all_pure _
  rw [Traced.all_bind,load_all]
  refine ⟨h,Traced.all_ite (fun _ => ?_) fun _ => Traced.all_pure _⟩
  simpa using h'

theorem isOlder_all (last : Int) (h' : P (.cell (j + 1))) : (isOlder cache last j).All P := by
  simpa [isOlder] using h'

theorem scan_turn (hj : j < endOf c index) (h0 : P (.cell j)) (h1 : P (.cell (j + 1)))
    (hh : ¬ (c.cache j = tag ∧ c.cache (j + 1) ≠ 0)) : ∃ l', (scan index tag (m + 1) j l c).All P ↔
      P (.int (j + 2)) ∧ (scan index tag m (j + 2) l' c).All P := by
  rw [scan,if_pos hj,Traced.all_bind,isHit_val,and_iff_right (isHit_all h0 h1),
    if_neg (by simpa using hh),Traced.all_bind,and_iff_right (isEmpty_all _ h0 h1)]
  split
  · exact ⟨_,by rw [Traced.all_bind,int_all,int_val]⟩
  · rw [Traced.all_bind,and_iff_right (isOlder_all _ h1)]
    split
    · exact ⟨_,by rw [Traced.all_bind,load_all,and_iff_right h1,Traced.all_bind,int_all,int_val]⟩
    · exact ⟨_,by rw [Traced.all_bind,int_all,int_val]⟩

theorem scan_all (hf : SetFine P index c) (hE : c.E = n) (hj : startOf c index ≤ j)
    (hend : j + 2 * m = endOf c index) : (scan index tag m j l c).All P ↔
      ((∃ k < m, c.cache (j + 2 * k) = tag ∧ c.cache (j + 2 * k + 1) ≠ 0) → Full index c →
        P (.cell (endOf c index + 1))) := by
  induction m generalizing j l with
  | zero =>
    refine iff_of_true (Traced.all_pure _) ?_
    rintro ⟨k,hk,-⟩
    exact absurd hk (Nat.not_lt_zero k)
  | succ m ih =>
    have h0 := hf.cells j hj (by omega)
    have h1 := hf.cells (j + 1) (by omega) (by omega)
    have hint := hf.ints (j + 2) (by omega) (by omega)
    rw [some_line_succ fun x => c.cache x = tag ∧ c.cache (x + 1) ≠ 0]
    by_cases hh : c.cache j = tag ∧ c.cache (j + 1) ≠ 0
    · rw [scan,if_pos (by omega),Traced.all_bind,isHit_val,and_iff_right (isHit_all h0 h1),
        if_pos (decide_eq_true hh),Traced.all_bind,hitLine_all hf hE hj (by omega),
        and_iff_left (Traced.all_pure _)]
      exact ⟨fun h _ => h,fun h => h (Or.inl hh)⟩
    · obtain ⟨l',hl⟩ := @scan_turn P index tag j m l c (by omega) h0 h1 hh
      rw [hl,and_iff_right hint,or_iff_right hh]
      exact ih (by omega) (by omega)

theorem scan_end (hc : ∀ x, startOf c index ≤ x → x < endOf c index → P (.cell x))
    (hj : startOf c index ≤ j) (hend : j + 2 * m = endOf c index) (h0 : 0 < m)
    (hno : ∀ k < m, ¬ (c.cache (j + 2 * k) = tag ∧ c.cache (j + 2 * k + 1) ≠ 0))
    (hall : (scan index tag m j l c).All P) : P (.int (endOf c index)) := by
  induction m generalizing j l with
  | zero => exact absurd h0 (Nat.lt_irrefl 0)
  | succ m ih =>
    obtain ⟨hh,hno⟩ :=
      (every_line_succ fun x => ¬ (c.cache x = tag ∧ c.cache (x + 1) ≠ 0)).mp hno
    obtain ⟨l',hl⟩ := @scan_turn P index tag j m l c (by omega) (hc _ hj (by omega))
      (hc _ (by omega) (by omega)) hh
    obtain ⟨hint,hrest⟩ := hl.mp hall
    rcases Nat.eq_zero_or_pos m with rfl | hm
    · rwa [← hend,Nat.zero_add,Nat.cast_one,Int.mul_one]
    · exact ih (by omega) (by omega) hm hno hrest

theorem fillLine_all (hf : SetFine P index c) {missIn : Int} {k : Nat}
    (hm : missIn = startOf c index + 2 * k) (hlt : missIn + 1 < endOf c index) :
    (fillLine index tag missIn c).All P := by
  have hlim : missIn + 1 = startOf c index + 1 + 2 * k := by omega
  simp only [fillLine,Traced.all_bind,Traced.all_pure,int_all,int_val,store_all,and_true]
  refine ⟨hf.cells _ ?_ ?_,hf.ints _ ?_ ?_,?_,hf.cells _ ?_ hlt⟩
  case refine_5 =>
    rw [hlim]
    refine bump_all (fun q hq => hf.cells _ ?_ ?_) fun q hq => hf.ints _ ?_ ?_ <;> omega
  all_goals omega

theorem evictLine_all (hf : SetFine P index c) (hE : c.E = n) {evictIn : Int}
    (he : startOf c index ≤ evictIn) (hlt : evictIn + 1 < endOf c index) :
    (evictLine index tag evictIn c).All P := by
  have hend := endOf_eq index hE
  have hlim : endOf c index + 1 = startOf c index + 1 + 2 * n := by omega
  simp only [evictLine,Traced.all_bind,Traced.all_pure,int_all,int_val,store_all,and_true]
  refine ⟨hf.ints _ ?_ ?_,?_,hf.cells _ he ?_,hf.cells _ ?_ hlt⟩
  case refine_3 =>
    rw [hlim]
    refine bump_all (fun q hq => hf.cells _ ?_ ?_) fun q hq => hf.ints _ ?_ ?_ <;> omega
  all_goals omega

variable {ls : List (Entry Int Int)}

theorem rest_all (hf : SetFine P index c) (hs : Stored c.cache (startOf c index) n ls)
    (hE : c.E = n) (ha : Apart ls) (hp : ∀ e ∈ ls, 1 ≤ e.mark) (h0 : 0 < n) :
    let r := Csim.scan index tag n (startOf c index) ⟨false,false,true,0,0,0⟩ c
    (if r.1.hit = false ∧ r.1.miss = true then fillLine index tag r.1.missIn r.2
      else if r.1.hit = false ∧ r.1.evict = true then evictLine index tag r.1.evictIn r.2
      else return r.2 : Trace State).All P := by
  intro r
  have hend := endOf_eq index hE
  have hp' : ∀ e ∈ ls, e.mark ≠ 0 := fun e he => by
    have := hp e he
    omega
  by_cases ht : tag ∈ tags ls
  · obtain ⟨e,he,rfl⟩ := List.mem_map.mp ht
    obtain ⟨xs,ys,rfl⟩ := List.append_of_mem he
    have hlen := hs.length
    rw [List.length_append,List.length_cons] at hlen
    obtain ⟨m,rfl⟩ : ∃ m, n = xs.length + (m + 1) := ⟨n - xs.length - 1,by omega⟩
    have hx : e.tag ∉ tags xs := fun hm => by
      obtain ⟨d,hd,hde⟩ := List.mem_map.mp hm
      exact (ha.ne (List.mem_append_left _ hd)).1 hde
    have hr : r = _ := scan_hit (l := ⟨false,false,true,0,0,0⟩) hs.lines hend.symm hx hp'
    rw [hr,if_neg (by simp),if_neg (by simp)]
    exact Traced.all_pure _
  · by_cases hlt : ls.length < n
    · obtain ⟨l,hscan,hh,hm,hi⟩ := scan_fill hs hE ht hp' hlt
      have hr : r = (l,c) := hscan
      rw [hr,if_pos ⟨hh,hm⟩]
      exact fillLine_all hf hi (by simp only [hi]; omega)
    · have hfull : ls.length = n := Nat.le_antisymm hs.length (Nat.not_lt.mp hlt)
      obtain ⟨l,xs,e,ys,hscan,⟨hh,hm,he⟩,hls,-,hi⟩ := scan_evict hs hE ht hp hfull h0
      have hr : r = (l,c) := hscan
      have hlen : xs.length < n := by
        rw [← hfull,hls]
        simp
      rw [hr,if_neg (by simp [hm]),if_pos ⟨hh,he⟩]
      exact evictLine_all hf hE (by simp only [hi]; omega) (by simp only [hi]; omega)

theorem accessLine_all (hf : SetFine P index c) (hs : Stored c.cache (startOf c index) n ls)
    (hE : c.E = n) (ha : Apart ls) (hp : ∀ e ∈ ls, 1 ≤ e.mark) (h0 : 0 < n) :
    (accessLine index tag c).All P ↔
      (Holds index tag c → Full index c → P (.cell (endOf c index + 1))) := by
  have hend := endOf_eq index hE
  have hn : c.E.toNat = n := by simp [hE]
  rw [accessLine,Traced.all_bind,int_all,and_iff_right (hf.ints _ (by omega) (by omega)),
    Traced.all_bind,int_val,hn,scan_val hE,and_iff_left (rest_all hf hs hE ha hp h0),
    scan_all hf hE (Int.le_refl _) (by omega)]
  simp only [Holds,hE,Nat.cast_lt]

theorem accessLine_end (hc : ∀ x, startOf c index ≤ x → x < endOf c index → P (.cell x))
    (hs : Stored c.cache (startOf c index) n []) (hE : c.E = n) (h0 : 0 < n)
    (hall : (accessLine index tag c).All P) : P (.int (endOf c index)) := by
  have hn : c.E.toNat = n := by simp [hE]
  rw [accessLine,Traced.all_bind,Traced.all_bind,int_val,hn] at hall
  exact scan_end hc (Int.le_refl _) (endOf_eq index hE).symm h0
    (fun k hk hh => hh.2 (hs.empty _ (by simp; omega) (by omega))) hall.2.1

end Events

end Logged

section Inside

variable {s E b : Nat} {c : State} {r : Reference}

-- cache has 2 * E * 2^s cells and the loop variables are ints
def Event.Inside (s E : Nat) : Event → Prop
  | .cell i => 0 ≤ i ∧ i < 2 * E * 2 ^ s
  | .int v => -2 ^ 31 ≤ v ∧ v < 2 ^ 31

instance (s E : Nat) : DecidablePred (Event.Inside s E)
  | .cell _ => inferInstanceAs (Decidable (_ ∧ _))
  | .int _ => inferInstanceAs (Decidable (_ ∧ _))

def Access.step (a : Access) (c : State) : Option State := addressCache a.action a.address c

-- an access with all its indices in cache and its loop variables in an int
def Access.Inside (s E : Nat) (a : Access) (c : State) : Prop :=
  (Logged.addressCache a.action a.address c).All (Event.Inside s E)

instance (s E : Nat) (a : Access) (c : State) : Decidable (a.Inside s E c) :=
  inferInstanceAs (Decidable (Traced.All _ _))

-- the loop variables, which are ints, can hold the end of the set
def Fits (a : Access) (c : State) : Prop :=
  (a.action = 'L' ∨ a.action = 'M' ∨ a.action = 'S') → endOf c (indexOf c a.address) < 2 ^ 31

-- a hit in the last set while all its lines are in use
def Overreads (a : Access) (c : State) : Prop :=
  (a.action = 'L' ∨ a.action = 'M' ∨ a.action = 'S') ∧ indexOf c a.address = c.S - 1 ∧
    Logged.Holds (indexOf c a.address) (tagOf c a.address) c ∧
    Logged.Full (indexOf c a.address) c

theorem cell_inside {k : Nat} {x : Int} (h : Refines s E b c r) (hk : k < 2 ^ s)
    (hx : startOf c k ≤ x) (hx' : x < endOf c k) : Event.Inside s E (.cell x) := by
  have hend := endOf_eq k h.ways
  have hstart : startOf c k = 2 * (k * E) := by
    rw [startOf,h.ways]
    ring
  have hlast : ((k : Int) * E) + E ≤ E * 2 ^ s := by
    have hk1 : (k : Int) + 1 ≤ 2 ^ s := by exact_mod_cast hk
    calc ((k : Int) * E) + E = E * (k + 1) := by ring
      _ ≤ E * 2 ^ s := by gcongr
  have h0 : (0 : Int) ≤ k * E := by positivity
  refine ⟨by omega,?_⟩
  rw [Int.mul_assoc]
  omega

theorem setFine_inside {k : Nat} (h : Refines s E b c r) (hk : k < 2 ^ s)
    (hi : endOf c k < 2 ^ 31) : Logged.SetFine (Event.Inside s E) k c := by
  have hend : endOf c k = 2 * ((k + 1) * E) := by
    rw [endOf,h.ways]
    ring
  have hstart : startOf c k = 2 * (k * E) := by
    rw [startOf,h.ways]
    ring
  have h0 : (0 : Int) ≤ k * E := by positivity
  exact ⟨fun x => cell_inside h hk,fun v hv hv' => ⟨by omega,by omega⟩⟩

theorem past_end_inside {k : Nat} (h : Refines s E b c r) (h1 : 0 < E) (hk : k < 2 ^ s)
    (hi : endOf c k < 2 ^ 31) :
    Event.Inside s E (.cell (endOf c k + 1)) ↔ (k : Int) ≠ 2 ^ s - 1 := by
  have hend : endOf c k = 2 * ((k + 1) * E) := by
    rw [endOf,h.ways]
    ring
  have hE : (0 : Int) < E := by exact_mod_cast h1
  have hk1 : (k : Int) + 1 ≤ 2 ^ s := by exact_mod_cast hk
  have h0 : (0 : Int) ≤ (k + 1) * E := by positivity
  have hcell : Event.Inside s E (.cell (endOf c k + 1)) ↔ ((k : Int) + 1) * E < 2 ^ s * E := by
    rw [Event.Inside,hend,Int.mul_assoc 2 (E : Int),Int.mul_comm (E : Int)]
    omega
  rw [hcell,Int.mul_lt_mul_right hE]
  omega

theorem inside_iff (h : Refines s E b c r) (hsb : s + b ≤ 30) (h1 : 0 < E) {a : Access}
    (hf : Fits a c) : a.Inside s E c ↔ ¬ Overreads a c := by
  have hk : Reference.setOf s b a.address < 2 ^ s := Nat.mod_lt _ (by positivity)
  have hidx : indexOf c a.address = Reference.setOf s b a.address := h.index hsb a.address
  obtain ⟨hB,hS,hBS⟩ := h.block hsb
  obtain ⟨f,ls,hag,hs⟩ := h.sets _ hk
  have hp : ∀ e ∈ ls, 1 ≤ e.mark := by
    intro e hel
    obtain ⟨d,hd,rfl⟩ := hag.mem_iff.mp hel
    exact hag.pos d hd
  rw [Access.Inside,Logged.addressCache,if_neg (by rw [hBS,hB,hS]; simp),Overreads]
  by_cases ha : a.action = 'L' ∨ a.action = 'M' ∨ a.action = 'S'
  · have hi := hf ha
    rw [hidx] at hi
    rw [if_pos ha,Traced.all_bind,and_iff_left (Traced.all_pure _),and_iff_right ha,hidx,
      Logged.accessLine_all (setFine_inside h hk hi) hs h.ways (hag.apart (h.marked _).apart) hp h1,
      past_end_inside h h1 hk hi,h.setCount]
    constructor
    · rintro hp ⟨hlast,hh,hf⟩
      exact hp hh hf hlast
    · exact fun ho hh hf hlast => ho ⟨hlast,hh,hf⟩
  · rw [if_neg ha]
    exact iff_of_true (Traced.all_pure _) fun ho => ha ho.1

theorem not_inside (h : Refines s E b c r) (hsb : s + b ≤ 30) (h1 : 0 < E) {a : Access}
    (hset : r.sets (Reference.setOf s b a.address) = []) (hf : ¬ Fits a c) :
    ¬ a.Inside s E c := by
  have hk : Reference.setOf s b a.address < 2 ^ s := Nat.mod_lt _ (by positivity)
  have hidx : indexOf c a.address = Reference.setOf s b a.address := h.index hsb a.address
  obtain ⟨hB,hS,hBS⟩ := h.block hsb
  obtain ⟨f,ls,hag,hs⟩ := h.sets _ hk
  obtain rfl : ls = [] := by
    rw [hag.eq,hset]
    rfl
  obtain ⟨ha,hi⟩ := Classical.not_imp.mp hf
  rw [hidx] at hi
  intro hall
  rw [Access.Inside,Logged.addressCache,if_neg (by rw [hBS,hB,hS]; simp),if_pos ha,
    Traced.all_bind,hidx] at hall
  exact hi (Logged.accessLine_end (fun x => cell_inside h hk) hs h.ways h1 hall.1).2

theorem Reference.serve_sets {action : Char} {tag : Int} {k set : Nat}
    (h : (action = 'L' ∨ action = 'M' ∨ action = 'S') → k ≠ set) :
    (Reference.serve E action set tag r).sets k = r.sets k := by
  rw [Reference.serve]
  split
  · exact Function.update_of_ne (h (by tauto)) _ _
  · split
    · exact Function.update_of_ne (h (by tauto)) _ _
    · rfl

-- what a run without faults keeps: a set whose end no int holds is not in use
structure Sound (s E b : Nat) (c : State) (r : Reference) : Prop where
  refines : Refines s E b c r
  untouched : ∀ k : Nat, 2 ^ 31 ≤ endOf c k → r.sets k = []

theorem Sound.zeroed (s E b : Nat) : Sound s E b (zeroed s E b) Reference.empty :=
  ⟨Refines.zeroed s E b,fun _ _ => rfl⟩

theorem Sound.serve (h : Sound s E b c r) (h1 : 0 < E) {action : Char} {set : Nat}
    (hi : set < 2 ^ s) (hf : (action = 'L' ∨ action = 'M' ∨ action = 'S') → endOf c set < 2 ^ 31)
    (tag : Int) :
    Sound s E b (serveLine action set tag c) (Reference.serve E action set tag r) := by
  have hr := h.refines.serve h1 hi action tag
  refine ⟨hr,fun k hk => ?_⟩
  have hend : endOf (serveLine action set tag c) k = endOf c k := by
    rw [endOf,endOf,hr.ways,h.refines.ways]
  rw [hend] at hk
  rw [Reference.serve_sets,h.untouched k hk]
  rintro ha rfl
  exact Int.not_le.mpr (hf ha) hk

theorem Sound.step {a : Access} {c' : State} (h : Sound s E b c r) (hsb : s + b ≤ 30) (h1 : 0 < E)
    (hf : Fits a c) (hc : a.step c = some c') : Sound s E b c' (Reference.step s E b r a) := by
  have hidx := h.refines.index hsb a.address
  have ht := h.refines.tag hsb a.address
  rw [Fits,indexOf,hidx] at hf
  rw [Access.step,addressCache_fields,indexOf,tagOf,hidx,ht] at hc
  obtain ⟨hB,hS,hBS⟩ := h.refines.block hsb
  rw [if_neg (by rw [hBS,hB,hS]; simp),← apply_ite some] at hc
  obtain rfl := Option.some.inj hc
  exact h.serve h1 (setOf_lt s b a.address) hf _

theorem Sound.inside_iff (h : Sound s E b c r) (hsb : s + b ≤ 30) (h1 : 0 < E) (a : Access) :
    a.Inside s E c ↔ Fits a c ∧ ¬ Overreads a c := by
  by_cases hf : Fits a c
  · rw [Csim.inside_iff h.refines hsb h1 hf,and_iff_right hf]
  · refine iff_of_false (not_inside h.refines hsb h1 (h.untouched _ ?_) hf) fun h => hf h.1
    have hidx : indexOf c a.address = Reference.setOf s b a.address :=
      h.refines.index hsb a.address
    rw [← hidx]
    exact Int.not_lt.mp (Classical.not_imp.mp hf).2

end Inside

end Csim
