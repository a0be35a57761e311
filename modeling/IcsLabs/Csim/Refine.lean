import IcsLabs.Csim.Access
import Mathlib.Algebra.Order.Ring.Int
import Mathlib.Tactic.GCongr
import Mathlib.Tactic.Positivity

namespace Csim
open Lru
open Libc (intMul toInt_bmod)

-- a set-associative cache: 2^s sets of E lines, blocks of 2^b bytes, victims by last access
structure Reference where
  now : Nat
  sets : Nat → List (Entry Int Nat)
  hits : Nat
  misses : Nat
  evictions : Nat

namespace Reference

def setOf (s b address : Nat) : Nat := address / 2 ^ b % 2 ^ s

def tagOf (s b address : Nat) : Int := (address / 2 ^ (b + s) : Nat)

def access (E set : Nat) (tag : Int) (r : Reference) : Reference :=
  let o := Lru.access E tag r.now (r.sets set)
  { now := r.now + 1
    sets := Function.update r.sets set o.1
    hits := r.hits + if o.2 = .hit then 1 else 0
    misses := r.misses + if o.2 = .hit then 0 else 1
    evictions := r.evictions + if o.2 = .evict then 1 else 0 }

def serve (E : Nat) (action : Char) (set : Nat) (tag : Int) (r : Reference) : Reference :=
  if action = 'L' ∨ action = 'S' then access E set tag r
  else if action = 'M' then
    let r := access E set tag r
    { r with hits := r.hits + 1 }
  else r

def step (s E b : Nat) (r : Reference) (a : Access) : Reference :=
  serve E a.action (setOf s b a.address) (tagOf s b a.address) r

def empty : Reference := ⟨0,fun _ => [],0,0,0⟩

def run (s E b : Nat) (trace : List Access) : Reference := trace.foldl (step s E b) empty

end Reference

structure Refines (s E b : Nat) (c : State) (r : Reference) : Prop where
  ways : c.E = E
  setCount : c.S = 2 ^ s
  blockSize : c.B = 2 ^ b
  sets : ∀ i : Nat, i < 2 ^ s → ∃ f ls, Ages f (r.sets i) ls ∧ Stored c.cache (startOf c i) E ls
  marked : ∀ i, WellMarked r.now (r.sets i)
  hits : c.hitCount = r.hits
  misses : c.missCount = r.misses
  evictions : c.evictionCount = r.evictions

section Refines

variable {s E b : Nat} {c c' : State} {r : Reference} {cache cache' : Int → Int}

theorem Stored.congr {j : Int} {n : Nat} {ls : List (Entry Int Int)} (h : Stored cache j n ls)
    (hc : ∀ x, j ≤ x → x < j + 2 * n → cache' x = cache x) : Stored cache' j n ls := by
  obtain ⟨h1,h2,h3⟩ := h
  refine ⟨lines_congr h1 fun x hx hx' => hc x hx (by omega),h2,fun x hx hx' => ?_⟩
  rw [hc x (by omega) hx',h3 x hx hx']

theorem stored_zero (j : Int) (n : Nat) : Stored (fun _ => 0) j n [] :=
  ⟨trivial,Nat.zero_le n,fun _ _ _ => rfl⟩

theorem intMul_two_pow (hsb : s + b ≤ 30) : intMul (2 ^ b) (2 ^ s) = 2 ^ (b + s) := by
  have hle : (2 : Int) ^ (b + s) ≤ 2 ^ 30 := pow_le_pow_right₀ (by decide) (by omega)
  have hpos : (0 : Int) < 2 ^ (b + s) := pow_pos (by decide) _
  rw [intMul,toInt_bmod,← pow_add]
  exact Int.bmod_eq_of_le (by omega) (by omega)

theorem startOf_apart (hE : c.E = E) {i k : Int} (hik : i ≠ k) :
    startOf c i + 2 * E ≤ startOf c k ∨ startOf c k + 2 * E ≤ startOf c i := by
  have key (i k : Int) (h : i < k) : startOf c i + 2 * E ≤ startOf c k := by
    rw [← endOf_eq i hE,startOf,endOf,hE]
    have : i + 1 ≤ k := h
    gcongr
  rcases lt_or_gt_of_ne hik with h | h
  · exact Or.inl (key i k h)
  · exact Or.inr (key k i h)

theorem Refines.zeroed (s E b : Nat) : Refines s E b (zeroed s E b) Reference.empty :=
  ⟨rfl,rfl,rfl,fun _ _ => ⟨fun _ => 0,[],Ages.nil _,stored_zero _ _⟩,fun _ => WellMarked.nil,
    rfl,rfl,rfl⟩

theorem Refines.access (h : Refines s E b c r) (h0 : 0 < E) {set : Nat} (hi : set < 2 ^ s)
    (tag : Int) : Refines s E b (accessLine set tag c) (Reference.access E set tag r) := by
  obtain ⟨h1,h2,h3,hsets,hmark,hh,hm,he⟩ := h
  obtain ⟨f,ls,ha,hs⟩ := hsets _ hi
  have hw := hmark set
  have hp : ∀ e ∈ ls, 1 ≤ e.mark := by
    intro e hel
    obtain ⟨d,hd,rfl⟩ := ha.mem_iff.mp hel
    exact ha.pos d hd
  have ht : Touch c (accessLine set tag c) _ E _ := accessLine_spec hs h1 (ha.apart hw.apart) hp h0
  obtain ⟨⟨g1,g2,g3⟩,t1,t2,t3,t4,t5⟩ := ht
  obtain ⟨a1,a2⟩ := access_aged (t := tag) hw ha h0
  rw [a1] at t1 t2 t3
  refine ⟨g1.trans h1,g2.trans h2,g3.trans h3,fun k hk => ?_,fun k => ?_,?_,?_,?_⟩
  · rw [show startOf _ (k : Int) = startOf c k by rw [startOf,startOf,g1]]
    simp only [Reference.access]
    by_cases hki : k = set
    · subst hki
      exact ⟨_,_,by rw [Function.update_self]; exact a2,t4⟩
    · obtain ⟨f',ls',ha',hs'⟩ := hsets k hk
      have hap := startOf_apart h1 (Int.natCast_inj.not.mpr hki)
      rw [Function.update_of_ne hki]
      exact ⟨f',ls',ha',hs'.congr fun x hx hx' => t5 x (by omega)⟩
  · simp only [Reference.access]
    by_cases hki : k = set
    · subst hki
      rw [Function.update_self]
      exact access_wellMarked hw
    · rw [Function.update_of_ne hki]
      exact (hmark k).mono (Nat.le_succ _)
  · rw [t1,hh,Reference.access]
    split <;> simp
  · rw [t2,hm,Reference.access]
    split <;> simp
  · rw [t3,he,Reference.access]
    split <;> simp

theorem Refines.block (h : Refines s E b c r) (hsb : s + b ≤ 30) :
    c.B = (2 ^ b : Nat) ∧ c.S = (2 ^ s : Nat) ∧ intMul c.B c.S = (2 ^ (b + s) : Nat) := by
  refine ⟨?_,?_,?_⟩
  · rw [h.blockSize]
    norm_cast
  · rw [h.setCount]
    norm_cast
  · rw [h.blockSize,h.setCount,intMul_two_pow hsb]
    norm_cast

theorem Refines.index (h : Refines s E b c r) (hsb : s + b ≤ 30) (address : Nat) :
    ((address : Int).tdiv c.B).tmod c.S = (Reference.setOf s b address : Nat) := by
  obtain ⟨hB,hS,-⟩ := h.block hsb
  rw [hB,hS,← Int.ofNat_tdiv,← Int.ofNat_tmod]
  rfl

theorem Refines.tag (h : Refines s E b c r) (hsb : s + b ≤ 30) (address : Nat) :
    (address : Int).tdiv (intMul c.B c.S) = Reference.tagOf s b address := by
  rw [(h.block hsb).2.2,← Int.ofNat_tdiv]
  rfl

-- what addressCache does once index and tag are known
def serveLine (action : Char) (index tag : Int) (c : State) : State :=
  if action = 'L' ∨ action = 'M' ∨ action = 'S' then
    let c := accessLine index tag c
    if action = 'M' then { c with hitCount := c.hitCount + 1 } else c
  else c

theorem Refines.addressCache_eq (h : Refines s E b c r) (hsb : s + b ≤ 30) (action : Char)
    (address : Int) : addressCache action address c =
      some (serveLine action ((address.tdiv (2 ^ b)).tmod (2 ^ s)) (address.tdiv (2 ^ (b + s))) c) := by
  obtain ⟨hB,hS,hBS⟩ := h.block hsb
  rw [addressCache,if_neg (by rw [hBS,hB,hS]; simp),hBS,hB,hS,serveLine,apply_ite some]
  push_cast
  rfl

theorem Refines.serve (h : Refines s E b c r) (h0 : 0 < E) {set : Nat} (hi : set < 2 ^ s)
    (action : Char) (tag : Int) :
    Refines s E b (serveLine action set tag c) (Reference.serve E action set tag r) := by
  have hacc := h.access h0 hi tag
  rw [Reference.serve,serveLine]
  by_cases hM : action = 'M'
  · subst hM
    rw [if_pos (by simp),if_pos rfl,if_neg (by decide),if_pos rfl]
    obtain ⟨g1,g2,g3,hs,hw,hh,hm,he⟩ := hacc
    exact ⟨g1,g2,g3,hs,hw,by simp [hh],hm,he⟩
  · by_cases hLS : action = 'L' ∨ action = 'S'
    · rw [if_pos (by tauto),if_neg hM,if_pos hLS]
      exact hacc
    · rw [if_neg (by tauto),if_neg hLS,if_neg hM]
      exact h

theorem setOf_lt (s b address : Nat) : Reference.setOf s b address < 2 ^ s :=
  Nat.mod_lt _ (by positivity)

theorem Refines.step (h : Refines s E b c r) (hsb : s + b ≤ 30) (h0 : 0 < E) (a : Access) :
    ∃ c', addressCache a.action a.address c = some c' ∧
      Refines s E b c' (Reference.step s E b r a) := by
  refine ⟨_,h.addressCache_eq hsb _ _,?_⟩
  have hs := h.serve h0 (setOf_lt s b a.address) a.action (Reference.tagOf s b a.address)
  have hi := h.index hsb a.address
  have ht := h.tag hsb a.address
  obtain ⟨hB,hS,hBS⟩ := h.block hsb
  rw [hB,hS] at hi
  rw [hBS] at ht
  push_cast at hi ht
  rw [hi,ht]
  exact hs

theorem Refines.run (h : Refines s E b c r) (hsb : s + b ≤ 30) (h0 : 0 < E) (trace : List Access) :
    ∃ c', runTrace trace c = some c' ∧ Refines s E b c' (trace.foldl (Reference.step s E b) r) := by
  induction trace generalizing c r with
  | nil => exact ⟨c,rfl,h⟩
  | cons a trace ih =>
    obtain ⟨c1,h1,hr⟩ := h.step hsb h0 a
    obtain ⟨c2,h2,hr2⟩ := ih hr
    exact ⟨c2,Runs.run_cons.mpr ⟨c1,h1,h2⟩,hr2⟩

end Refines

end Csim
