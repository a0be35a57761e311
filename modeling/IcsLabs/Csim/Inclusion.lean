import IcsLabs.Csim.Ints
import IcsLabs.Lib.Stacked

namespace Csim
open Lru
open Libc (intMul)

-- hit of addressCache, as the scan of the set leaves it
def hitLocal (index tag : Int) (c : State) : Bool :=
  (scan index tag c.E.toNat (startOf c index) ⟨false,false,true,0,0,0⟩ c).1.hit

def Hits (a : Access) (c : State) : Prop :=
  (a.action = 'L' ∨ a.action = 'M' ∨ a.action = 'S') ∧
    hitLocal ((Int.tdiv a.address c.B).tmod c.S) (Int.tdiv a.address (intMul c.B c.S)) c = true

section Hits

variable {index tag : Int} {c : State}

theorem scan_keeps (index tag : Int) (n : Nat) (j : Int) (l : Locals) (c : State) :
    (scan index tag n j l c).1.evict = l.evict ∧
      (scan index tag n j l c).2.missCount = c.missCount := by
  induction n generalizing j l with
  | zero => exact ⟨rfl,rfl⟩
  | succ n ih =>
    rw [scan]
    split_ifs
    · exact ⟨rfl,rfl⟩
    · exact ih _ _
    · exact ih _ _
    · exact ih _ _
    · exact ⟨rfl,rfl⟩

theorem accessLine_missCount (index tag : Int) (c : State) :
    (accessLine index tag c).missCount =
      c.missCount + if hitLocal index tag c = true then 0 else 1 := by
  obtain ⟨hev,hmc⟩ := scan_keeps index tag c.E.toNat (startOf c index) ⟨false,false,true,0,0,0⟩ c
  simp only [accessLine]
  rw [hitLocal]
  cases hh : (scan index tag c.E.toNat (startOf c index) ⟨false,false,true,0,0,0⟩ c).1.hit with
  | true => rw [if_neg (by simp),if_neg (by simp),hmc,if_pos rfl,Int.add_zero]
  | false =>
    rw [if_neg Bool.false_ne_true]
    split_ifs with h1 h2
    · rw [fillLine,hmc]
    · rw [evictLine,hmc]
    · exact absurd ⟨rfl,hev⟩ h2

end Hits

section Reference

variable {s E E' b set : Nat} {tag : Int} {c c' : State} {r r' : Reference}

namespace Reference

def outcome (E set : Nat) (tag : Int) (r : Reference) : Outcome :=
  (Lru.access E tag r.now (r.sets set)).2

-- the runs with E and with more lines a set, after the same accesses
structure Included (E : Nat) (r r' : Reference) : Prop where
  now : r'.now = r.now
  stacked : ∀ i, Stacked E (r.sets i) (r'.sets i)
  marked : ∀ i, WellMarked r.now (r.sets i)
  marked' : ∀ i, WellMarked r'.now (r'.sets i)
  hits : r.hits ≤ r'.hits
  misses : r'.misses ≤ r.misses
  evictions : r'.evictions ≤ r.evictions

theorem Included.empty (E : Nat) : Included E Reference.empty Reference.empty :=
  ⟨rfl,fun _ => Stacked.nil,fun _ => WellMarked.nil,fun _ => WellMarked.nil,le_rfl,le_rfl,le_rfl⟩

theorem Included.hit (h : Included E r r') (ho : outcome E set tag r = .hit) :
    outcome E' set tag r' = .hit := by
  rw [outcome,h.now]
  exact (h.stacked _).hit ho

theorem Included.evict (h : Included E r r') (hle : E ≤ E')
    (ho : outcome E' set tag r' = .evict) : outcome E set tag r = .evict := by
  rw [outcome,h.now] at ho
  exact (h.stacked _).evict (h.marked _).apart (h.marked' _).apart hle ho

theorem access_marked (hm : ∀ i, WellMarked r.now (r.sets i)) (set : Nat) (tag : Int) (i : Nat) :
    WellMarked (access E set tag r).now ((access E set tag r).sets i) := by
  simp only [access]
  by_cases hi : i = set
  · subst hi
    rw [Function.update_self]
    exact access_wellMarked (hm _)
  · rw [Function.update_of_ne hi]
    exact (hm i).mono (Nat.le_succ _)

theorem Included.access (h : Included E r r') (h0 : 0 < E) (hle : E ≤ E') (set : Nat) (tag : Int) :
    Included E (Reference.access E set tag r) (Reference.access E' set tag r') := by
  have hhit : outcome E set tag r = .hit → outcome E' set tag r' = .hit := h.hit
  have hevict : outcome E' set tag r' = .evict → outcome E set tag r = .evict := h.evict hle
  refine ⟨congrArg (· + 1) h.now,fun i => ?_,access_marked h.marked set tag,
    access_marked h.marked' set tag,?_,?_,?_⟩
  · simp only [Reference.access]
    by_cases hi : i = set
    · subst hi
      rw [Function.update_self,Function.update_self,h.now]
      exact (h.stacked _).access (h.marked _) (h.now ▸ h.marked' _) h0 hle
    · rw [Function.update_of_ne hi,Function.update_of_ne hi]
      exact h.stacked i
  · refine Nat.add_le_add h.hits ?_
    by_cases ho : outcome E set tag r = .hit
    · exact le_of_eq ((if_pos ho).trans (if_pos (hhit ho)).symm)
    · exact (if_neg ho).trans_le (Nat.zero_le _)
  · refine Nat.add_le_add h.misses ?_
    by_cases ho : outcome E set tag r = .hit
    · exact (if_pos (hhit ho)).trans_le (Nat.zero_le _)
    · refine le_of_le_of_eq ?_ (if_neg ho).symm
      split_ifs <;> simp
  · refine Nat.add_le_add h.evictions ?_
    by_cases ho : outcome E' set tag r' = .evict
    · exact le_of_eq ((if_pos ho).trans (if_pos (hevict ho)).symm)
    · exact (if_neg ho).trans_le (Nat.zero_le _)

theorem Included.step (h : Included E r r') (h0 : 0 < E) (hle : E ≤ E') (a : Access) :
    Included E (Reference.step s E b r a) (Reference.step s E' b r' a) := by
  have hacc := h.access h0 hle (setOf s b a.address) (tagOf s b a.address)
  rw [Reference.step,Reference.step,serve,serve]
  split_ifs
  · exact hacc
  · exact ⟨hacc.now,hacc.stacked,hacc.marked,hacc.marked',Nat.succ_le_succ hacc.hits,hacc.misses,
      hacc.evictions⟩
  · exact h

theorem Included.run (h : Included E r r') (h0 : 0 < E) (hle : E ≤ E') (trace : List Access) :
    Included E (trace.foldl (Reference.step s E b) r) (trace.foldl (Reference.step s E' b) r') := by
  induction trace generalizing r r' with
  | nil => exact h
  | cons a trace ih => exact ih (h.step h0 hle a)

end Reference

theorem Refines.hits_iff (h : Refines s E b c r) (hsb : s + b ≤ 30) (h0 : 0 < E) (a : Access) :
    Hits a c ↔ (a.action = 'L' ∨ a.action = 'M' ∨ a.action = 'S') ∧
      Reference.outcome E (Reference.setOf s b a.address) (Reference.tagOf s b a.address) r =
        .hit := by
  have hm := (h.access h0 (setOf_lt s b a.address) (Reference.tagOf s b a.address)).misses
  rw [accessLine_missCount,h.misses] at hm
  simp only [Reference.access] at hm
  rw [Hits,h.index hsb,h.tag hsb,Reference.outcome]
  refine and_congr_right fun _ => ?_
  split_ifs at hm with h1 h2 h2
  · exact iff_of_true h1 h2
  · omega
  · omega
  · exact iff_of_false h1 h2

end Reference

-- more lines a set: no fewer hits, no more misses or evictions, and no hit is lost
def Inclusion (s E E' b : Nat) (trace : List Access) : Prop :=
  ∃ c c', Ints.runTrace trace (zeroed s E b) = some c ∧
    Ints.runTrace trace (zeroed s E' b) = some c' ∧
    c.hitCount ≤ c'.hitCount ∧ c'.missCount ≤ c.missCount ∧
    c'.evictionCount ≤ c.evictionCount ∧
    ∀ pre a, pre ++ [a] <+: trace → ∃ d d', Ints.runTrace pre (zeroed s E b) = some d ∧
      Ints.runTrace pre (zeroed s E' b) = some d' ∧ (Hits a d → Hits a d')

section Inclusion

variable {s E E' b : Nat} {trace : List Access}

theorem inclusion_of_held (hsb : s + b ≤ 30) (h1 : 1 ≤ E) (hle : E ≤ E')
    (hh : ∀ a ∈ trace, a.Held s E' b) : Inclusion s E E' b trace := by
  have h1' : 0 < E' := lt_of_lt_of_le h1 hle
  obtain ⟨c,hc,hr,-⟩ := (Sound.zeroed s E b).runTrace hsb h1 fun a ha => (hh a ha).mono hle
  obtain ⟨c',hc',hr',-⟩ := (Sound.zeroed s E' b).runTrace hsb h1' hh
  have hi := (Reference.Included.empty E).run (s := s) (b := b) h1 hle trace
  refine ⟨c,c',hc,hc',?_,?_,?_,fun pre a hpre => ?_⟩
  · rw [hr.hits,hr'.hits]
    exact Int.ofNat_le.mpr hi.hits
  · rw [hr.misses,hr'.misses]
    exact Int.ofNat_le.mpr hi.misses
  · rw [hr.evictions,hr'.evictions]
    exact Int.ofNat_le.mpr hi.evictions
  · have hp : ∀ x ∈ pre, x.Held s E' b := fun x hx =>
      hh x (hpre.subset (List.mem_append_left _ hx))
    obtain ⟨d,hd,hrd,-⟩ := (Sound.zeroed s E b).runTrace hsb h1 fun x hx => (hp x hx).mono hle
    obtain ⟨d',hd',hrd',-⟩ := (Sound.zeroed s E' b).runTrace hsb h1' hp
    have hid := (Reference.Included.empty E).run (s := s) (b := b) h1 hle pre
    refine ⟨d,d',hd,hd',fun hit => ?_⟩
    rw [hrd.hits_iff hsb h1] at hit
    exact (hrd'.hits_iff hsb h1' a).mpr ⟨hit.1,hid.hit hit.2⟩

end Inclusion

end Csim
