import IcsLabs.Csim.Inclusion
import IcsLabs.Lib.Reuse
import Mathlib.Algebra.BigOperators.Group.Finset.Piecewise

namespace Csim
open Lru Reference

def Access.Touches (a : Access) : Prop := a.action = 'L' ∨ a.action = 'M' ∨ a.action = 'S'

instance (a : Access) : Decidable a.Touches := inferInstanceAs (Decidable (_ ∨ _))

-- the tags that a trace touches in set i, in order
def visits (s b i : Nat) (trace : List Access) : List Int :=
  (trace.filter fun a => a.Touches ∧ Reference.setOf s b a.address = i).map fun a => Reference.tagOf s b a.address

-- fewer than E other blocks of the set since the block was touched last
def Reused (s E b : Nat) (pre : List Access) (a : Access) : Prop :=
  Near E (Reference.tagOf s b a.address) (visits s b (Reference.setOf s b a.address) pre)

instance (s E b : Nat) (pre : List Access) (a : Access) : Decidable (Reused s E b pre a) :=
  inferInstanceAs (Decidable (Near ..))

-- the accesses of a trace of which p holds after what went before them
def along (p : List Access → Access → Bool) (pre : List Access) : List Access → Nat
  | [] => 0
  | a :: rest => (p pre a).toNat + along p (pre ++ [a]) rest

def reuses (s E b : Nat) (trace : List Access) : Nat :=
  along (fun pre a => a.Touches ∧ Reused s E b pre a) [] trace

def fetches (s E b : Nat) (trace : List Access) : Nat :=
  along (fun pre a => a.Touches ∧ ¬ Reused s E b pre a) [] trace

-- how many blocks of set i a trace touches
def distinct (s b i : Nat) (trace : List Access) : Nat := (visits s b i trace).toFinset.card

section Along

variable {p : List Access → Access → Bool} {pre rest : List Access} {a : Access} {s b i : Nat}

theorem along_append (p : List Access → Access → Bool) (pre rest : List Access) (a : Access) :
    along p pre (rest ++ [a]) = along p pre rest + (p (pre ++ rest) a).toNat := by
  induction rest generalizing pre with
  | nil => simp [along]
  | cons x rest ih =>
    rw [List.cons_append,along,along,ih,List.append_assoc,Nat.add_assoc]
    rfl

theorem visits_append (s b i : Nat) (pre : List Access) (a : Access) :
    visits s b i (pre ++ [a]) = visits s b i pre ++
      if a.Touches ∧ Reference.setOf s b a.address = i then [Reference.tagOf s b a.address] else [] := by
  rw [visits,List.filter_append,List.map_append,← visits,List.filter_singleton]
  by_cases h : a.Touches ∧ Reference.setOf s b a.address = i
  · rw [if_pos h,decide_eq_true h]
    rfl
  · rw [if_neg h,decide_eq_false h]
    rfl

theorem distinct_mono (s b i : Nat) (pre rest : List Access) :
    distinct s b i pre ≤ distinct s b i (pre ++ rest) := by
  refine Finset.card_le_card fun t ht => ?_
  rw [List.mem_toFinset] at ht ⊢
  rw [visits,List.filter_append,List.map_append]
  exact List.mem_append_left _ ht

end Along

namespace Reference

-- the cache is what the trace says, and so are its counters
structure Recounts (s E b : Nat) (trace : List Access) (r : Reference) : Prop where
  marked : ∀ i, WellMarked r.now (r.sets i)
  sets : ∀ i, Recalls E (visits s b i trace) (r.sets i)
  hits : r.hits = reuses s E b trace + trace.countP (·.action = 'M')
  misses : r.misses = fetches s E b trace
  evictions : r.evictions + ∑ i ∈ Finset.range (2 ^ s), (r.sets i).length = r.misses

variable {s E b : Nat} {trace : List Access} {r : Reference} {a : Access}

theorem Recounts.empty (s E b : Nat) : Recounts s E b [] Reference.empty :=
  ⟨fun _ => WellMarked.nil,fun _ => Recalls.nil E,rfl,rfl,by simp [Reference.empty]⟩

theorem access_length_eq {α : Type} [DecidableEq α] (ways now : Nat) (t : α) (l : List (Entry α Nat)) :
    (Lru.access ways t now l).1.length =
      l.length + if (Lru.access ways t now l).2 = .fill then 1 else 0 := by
  by_cases ht : t ∈ tags l
  · rw [Lru.access,if_pos ht]
    simp [restamp]
  · by_cases hlt : l.length < ways
    · rw [Lru.access,if_neg ht,if_pos hlt]
      simp
    · rw [Lru.access,if_neg ht,if_neg hlt]
      cases l.argmin Entry.mark <;> simp [restamp]

theorem Recounts.sum_access (h : Recounts s E b trace r) {set : Nat} (hs : set < 2 ^ s)
    (tag : Int) :
    (access E set tag r).evictions +
      ∑ i ∈ Finset.range (2 ^ s), ((access E set tag r).sets i).length =
        (access E set tag r).misses := by
  have hi : set ∈ Finset.range (2 ^ s) := Finset.mem_range.mpr hs
  have he := h.evictions
  rw [← Finset.add_sum_erase _ _ hi] at he ⊢
  have hrest : ∑ i ∈ (Finset.range (2 ^ s)).erase set, ((access E set tag r).sets i).length =
      ∑ i ∈ (Finset.range (2 ^ s)).erase set, (r.sets i).length :=
    Finset.sum_congr rfl fun i hm => by
      simp only [access,Function.update_of_ne (Finset.ne_of_mem_erase hm)]
  rw [hrest]
  simp only [access,Function.update_self,access_length_eq]
  cases (Lru.access E tag r.now (r.sets set)).2 <;> simp <;> omega

theorem Recounts.access (h : Recounts s E b trace r) (h0 : 0 < E) (ht : a.Touches) :
    let r1 := access E (Reference.setOf s b a.address) (Reference.tagOf s b a.address) r
    ∀ r', (r'.now = r1.now ∧ r'.sets = r1.sets ∧
      r'.hits = r1.hits + (if a.action = 'M' then 1 else 0) ∧ r'.misses = r1.misses ∧
      r'.evictions = r1.evictions) → Recounts s E b (trace ++ [a]) r' := by
  rintro r1 r' ⟨h1,h2,h3,h4,h5⟩
  have hsum := h.sum_access (setOf_lt s b a.address) (Reference.tagOf s b a.address)
  have hhit : (Lru.access E (Reference.tagOf s b a.address) r.now (r.sets (Reference.setOf s b a.address))).2 = .hit ↔
      Reused s E b trace a := (h.sets _).hit_iff
  refine ⟨?_,fun i => ?_,?_,?_,?_⟩
  · rw [h1,h2]
    exact access_marked h.marked _ _
  · rw [h2,visits_append]
    by_cases hi : i = Reference.setOf s b a.address
    · subst hi
      rw [if_pos ⟨ht,rfl⟩]
      simp only [r1,Reference.access,Function.update_self]
      exact (h.sets _).access (h.marked _) h0 _
    · rw [if_neg fun hc => hi hc.2.symm,List.append_nil]
      simp only [r1,Reference.access,Function.update_of_ne hi]
      exact h.sets i
  · rw [h3,reuses,along_append,List.countP_append,List.countP_singleton,← reuses]
    simp only [r1,Reference.access,h.hits,hhit,List.nil_append,ht,true_and]
    by_cases hr : Reused s E b trace a <;> simp [hr] <;> omega
  · rw [h4,fetches,along_append,← fetches]
    simp only [r1,Reference.access,h.misses,hhit,List.nil_append,ht,true_and]
    by_cases hr : Reused s E b trace a <;> simp [hr]
  · rw [h4,h5,h2]
    exact hsum

theorem Recounts.step (h : Recounts s E b trace r) (h0 : 0 < E) (a : Access) :
    Recounts s E b (trace ++ [a]) (step s E b r a) := by
  rw [Reference.step,serve]
  split_ifs with hLS hM
  · have hM : a.action ≠ 'M' := by rcases hLS with h | h <;> simp [h]
    exact h.access h0 (hLS.imp_right .inr) _ ⟨rfl,rfl,by rw [if_neg hM,Nat.add_zero],rfl,rfl⟩
  · exact h.access h0 (.inr (.inl hM)) _ ⟨rfl,rfl,by rw [if_pos hM],rfl,rfl⟩
  · have ht : ¬ a.Touches := fun ht => by
      rcases ht with h | h | h
      · exact hLS (.inl h)
      · exact hM h
      · exact hLS (.inr h)
    refine ⟨h.marked,fun i => ?_,?_,?_,h.evictions⟩
    · rw [visits_append,if_neg fun hc => ht hc.1,List.append_nil]
      exact h.sets i
    · rw [h.hits,reuses,reuses,along_append,List.countP_append,List.countP_singleton]
      simp [ht,hM]
    · rw [h.misses,fetches,fetches,along_append]
      simp [ht]

theorem Recounts.run (h0 : 0 < E) (trace : List Access) : Recounts s E b trace (run s E b trace) := by
  rw [Reference.run]
  induction trace using List.reverseRecOn with
  | nil => exact .empty s E b
  | append_singleton trace a ih =>
    rw [List.foldl_append]
    exact ih.step h0 a

end Reference

variable {s E b : Nat}

theorem Refines.recounts {c : State} {r : Reference} {trace : List Access} (hr : Refines s E b c r)
    (h : Recounts s E b trace r) :
    c.hitCount = reuses s E b trace + trace.countP (·.action = 'M') ∧
      c.missCount = fetches s E b trace ∧
      c.evictionCount =
        c.missCount - ∑ i ∈ Finset.range (2 ^ s), (min E (distinct s b i trace) : Nat) := by
  refine ⟨?_,?_,?_⟩
  · rw [hr.hits]
    exact_mod_cast h.hits
  · rw [hr.misses]
    exact_mod_cast h.misses
  · have he := h.evictions
    have hlen : ∑ i ∈ Finset.range (2 ^ s), (r.sets i).length =
        ∑ i ∈ Finset.range (2 ^ s), min E (distinct s b i trace) :=
      Finset.sum_congr rfl fun i _ => (h.sets i).length
    rw [hlen] at he
    rw [hr.evictions,hr.misses]
    have := congrArg (Nat.cast : Nat → Int) he
    push_cast at this ⊢
    exact eq_sub_of_add_eq this

theorem distinct_append (s b i : Nat) (pre : List Access) (a : Access) :
    distinct s b i (pre ++ [a]) = distinct s b i pre +
      if Reference.setOf s b a.address = i then
        (decide (a.Touches ∧ Reference.tagOf s b a.address ∉ visits s b i pre)).toNat else 0 := by
  rw [distinct,visits_append]
  by_cases hi : Reference.setOf s b a.address = i
  · by_cases ht : a.Touches
    · rw [if_pos ⟨ht,hi⟩,if_pos hi,card_append,← distinct]
      split <;> simp_all
    · rw [if_neg fun h => ht h.1,if_pos hi,List.append_nil,← distinct]
      simp [ht]
  · rw [if_neg fun h => hi h.2,if_neg hi,List.append_nil]
    rfl

theorem fetches_of_fit {trace : List Access} (hfit : ∀ i < 2 ^ s, distinct s b i trace ≤ E) :
    fetches s E b trace = ∑ i ∈ Finset.range (2 ^ s), distinct s b i trace := by
  induction trace using List.reverseRecOn with
  | nil => simp [fetches,along,distinct,visits]
  | append_singleton trace a ih =>
    have hi : Reference.setOf s b a.address < 2 ^ s := Nat.mod_lt _ (by positivity)
    have hd := (distinct_mono s b (Reference.setOf s b a.address) trace [a]).trans (hfit _ hi)
    have hnew : Reused s E b trace a ↔
        Reference.tagOf s b a.address ∈ visits s b (Reference.setOf s b a.address) trace :=
      ⟨And.left,fun hm => ⟨hm,(card_since_lt_distinct hm).trans_le hd⟩⟩
    rw [fetches,along_append,← fetches,ih fun i hi => (distinct_mono s b i trace [a]).trans (hfit i hi)]
    simp only [distinct_append,Finset.sum_add_distrib,List.nil_append,hnew,Finset.sum_ite_eq,
      Finset.mem_range,hi,if_true]

theorem misses_of_fit (hsb : s + b ≤ 30) (h1 : 1 ≤ E) {trace : List Access}
    (hh : ∀ a ∈ trace, a.Held s E b) (hfit : ∀ i < 2 ^ s, distinct s b i trace ≤ E) :
    ∃ c, Ints.runTrace trace (zeroed s E b) = some c ∧ c.evictionCount = 0 ∧
      c.missCount = (∑ i ∈ Finset.range (2 ^ s), distinct s b i trace : Nat) := by
  obtain ⟨c,hc,hs⟩ := (Sound.zeroed s E b).runTrace hsb h1 hh
  obtain ⟨-,hm,he⟩ := hs.refines.recounts (Recounts.run h1 trace)
  have hsum : ∑ i ∈ Finset.range (2 ^ s), (min E (distinct s b i trace) : Nat) =
      ∑ i ∈ Finset.range (2 ^ s), distinct s b i trace :=
    Finset.sum_congr rfl fun i hi => Nat.min_eq_right (hfit i (Finset.mem_range.mp hi))
  rw [fetches_of_fit hfit] at hm
  refine ⟨c,hc,?_,hm⟩
  rw [he,hm,← hsum]
  exact sub_self _

theorem misses_of_fit_two_ways : ∃ c,
    Ints.runTrace [⟨'L',0⟩,⟨'L',64⟩,⟨'M',0⟩,⟨'S',64⟩] (zeroed 1 2 5) = some c ∧
      c.evictionCount = 0 ∧ c.missCount = 2 :=
  misses_of_fit (by decide) (by decide) (by decide) (by decide)

end Csim
