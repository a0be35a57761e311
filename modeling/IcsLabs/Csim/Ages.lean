import IcsLabs.Csim.Ints

namespace Csim
open Lru
open Libc (intMul)

-- the two cells of line k of set i
def tagAt (c : State) (i : Int) (k : Nat) : Int := c.cache (startOf c i + 2 * k)
def ageAt (c : State) (i : Int) (k : Nat) : Int := c.cache (startOf c i + 2 * k + 1)

-- last: the tag of the last access to set i
structure SetInvariant (E : Nat) (c : State) (i : Int) (last : Option Int) : Prop where
  filled : ∀ j k, j ≤ k → k < E → ageAt c i k ≠ 0 → ageAt c i j ≠ 0
  empty : ∀ k, k < E → ageAt c i k = 0 → tagAt c i k = 0
  apart : ∀ j k, j < E → k < E → j ≠ k → ageAt c i j ≠ 0 → ageAt c i k ≠ 0 →
    tagAt c i j ≠ tagAt c i k ∧ ageAt c i j ≠ ageAt c i k
  newest : ∀ t, last = some t → ∃ k, k < E ∧ ageAt c i k = 1 ∧ tagAt c i k = t ∧
    ∀ j, j < E → ageAt c i j = 1 → j = k

-- an access with its set and its tag, none where there is none
def touched (s b : Nat) (a : Char × Int) : Option (Int × Int) :=
  if a.1 = 'L' ∨ a.1 = 'M' ∨ a.1 = 'S' then
    some ((a.2.tdiv (2 ^ b)).tmod (2 ^ s),a.2.tdiv (2 ^ (b + s)))
  else none

-- the tag of the last access to set i in a run
def lastTag (s b : Nat) (i : Int) (run : List (Char × Int)) : Option Int :=
  (((run.filterMap (touched s b)).filter fun p => p.1 = i).getLast?).map Prod.snd

section Sets

variable {E : Nat} {c : State} {i : Int} {last : Option Int} {ls : List (Entry Int Int)}
  {cache : Int → Int} {j : Int} {k : Nat}

theorem lines_get (h : Lines cache j ls) (hk : k < ls.length) :
    cache (j + 2 * k) = (ls[k]).tag ∧ cache (j + 2 * k + 1) = (ls[k]).mark := by
  induction ls generalizing j k with
  | nil => cases hk
  | cons e ls ih =>
    obtain ⟨h1,h2,h3⟩ := h
    cases k with
    | zero => exact ⟨by simpa using h1,by simpa using h2⟩
    | succ k =>
      have hn := ih h3 (Nat.lt_of_succ_lt_succ hk)
      rw [show j + 2 + 2 * (k : Int) = j + 2 * (k + 1 : Nat) by omega] at hn
      exact hn

theorem setInvariant_of_stored (hs : Stored c.cache (startOf c i) E ls) (hr : Recent last ls) :
    SetInvariant E c i last := by
  have hlen := hs.length
  have hin (k : Nat) (hk : k < ls.length) : tagAt c i k = (ls[k]).tag ∧ ageAt c i k = (ls[k]).mark :=
    lines_get hs.lines hk
  have hout (k : Nat) (hk : ¬k < ls.length) (hE : k < E) : tagAt c i k = 0 ∧ ageAt c i k = 0 :=
    ⟨hs.empty _ (by omega) (by omega),hs.empty _ (by omega) (by omega)⟩
  have hage (k : Nat) (hE : k < E) : ageAt c i k ≠ 0 ↔ k < ls.length := by
    constructor
    · intro h
      by_contra hk
      exact h (hout k hk hE).2
    · intro hk
      have := hr.pos _ (List.getElem_mem hk)
      rw [(hin k hk).2]
      omega
  have hdiff (j k : Nat) (hj : j < ls.length) (hk : k < ls.length) (hjk : j ≠ k) :
      (ls[j]).tag ≠ (ls[k]).tag ∧ (ls[j]).mark ≠ (ls[k]).mark := by
    have hp := List.pairwise_iff_getElem.mp hr.apart
    rcases Nat.lt_or_gt_of_ne hjk with h | h
    · exact hp j k hj hk h
    · exact ⟨(hp k j hk hj h).1.symm,(hp k j hk hj h).2.symm⟩
  refine ⟨fun j k hjk hk h => ?_,fun k hk h => ?_,fun j k hj hk hjk haj hak => ?_,fun t ht => ?_⟩
  · exact (hage j (by omega)).mpr (Nat.lt_of_le_of_lt hjk ((hage k hk).mp h))
  · exact (hout k (fun hl => (hage k hk).mpr hl h) hk).1
  · have hj' := (hage j hj).mp haj
    have hk' := (hage k hk).mp hak
    rw [(hin j hj').1,(hin j hj').2,(hin k hk').1,(hin k hk').2]
    exact hdiff j k hj' hk' hjk
  · obtain ⟨k,hk,hek⟩ := List.getElem_of_mem (hr.newest t ht)
    have hmark : (ls[k]).mark = 1 := by rw [hek]
    refine ⟨k,by omega,(hin k hk).2.trans hmark,(hin k hk).1.trans (by rw [hek]),fun j hj h1 => ?_⟩
    by_contra hne
    have hj' := (hage j hj).mp (by omega)
    exact (hdiff j k hj' hk hne).2 (by rw [← (hin j hj').2,h1,hmark])

end Sets

-- what an access makes of the last tags
def nextTag (s b : Nat) (a : Char × Int) (i : Int) (last : Option Int) : Option Int :=
  match touched s b a with
  | some p => if p.1 = i then some p.2 else last
  | none => last

theorem lastTag_concat (s b : Nat) (i : Int) (run : List (Char × Int)) (a : Char × Int) :
    lastTag s b i (run ++ [a]) = nextTag s b a i (lastTag s b i run) := by
  rw [lastTag,nextTag,List.filterMap_append,List.filterMap_cons,List.filterMap_nil]
  cases touched s b a with
  | none => rw [List.append_nil]; rfl
  | some p =>
    rw [List.filter_append]
    by_cases hp : p.1 = i
    · simp [hp]
    · simp [hp,lastTag]

structure Tracks (s E b : Nat) (c : State) (last : Int → Option Int) : Prop where
  ways : c.E = E
  setCount : c.S = 2 ^ s
  blockSize : c.B = 2 ^ b
  sets : ∀ i, ∃ ls, Stored c.cache (startOf c i) E ls ∧ Recent (last i) ls

section Runs

variable {s E b : Nat} {c : State} {last : Int → Option Int}

theorem Tracks.zeroed (s E b : Nat) : Tracks s E b (zeroed s E b) fun _ => none :=
  ⟨rfl,rfl,rfl,fun _ => ⟨[],stored_zero _ _,Recent.nil⟩⟩

theorem Tracks.access (h : Tracks s E b c last) (h0 : 0 < E) (index tag : Int) :
    Tracks s E b (accessLine index tag c) fun i => if index = i then some tag else last i := by
  obtain ⟨hE,hS,hB,hsets⟩ := h
  obtain ⟨ls,hs,hr⟩ := hsets index
  have ht : Touch c (accessLine index tag c) (startOf c index) E (accessAged E tag ls) :=
    accessLine_spec hs hE hr.apart hr.pos h0
  obtain ⟨⟨g1,g2,g3⟩,-,-,-,hst,hkeep⟩ := ht
  refine ⟨g1.trans hE,g2.trans hS,g3.trans hB,fun i => ?_⟩
  rw [show startOf (accessLine index tag c) i = startOf c i by rw [startOf,startOf,g1]]
  by_cases hi : index = i
  · subst hi
    rw [if_pos rfl]
    exact ⟨_,hst,hr.access h0 tag⟩
  · obtain ⟨ls',hs',hr'⟩ := hsets i
    have hap := startOf_apart hE hi
    rw [if_neg hi]
    exact ⟨ls',hs'.congr fun x hx hx' => hkeep x (by omega),hr'⟩

theorem Tracks.step (h : Tracks s E b c last) (hsb : s + b ≤ 30) (h0 : 0 < E) (a : Char × Int) :
    ∃ c', addressCache a.1 a.2 c = some c' ∧ Tracks s E b c' fun i => nextTag s b a i (last i) := by
  have hmul : intMul c.B c.S = 2 ^ (b + s) := by rw [h.blockSize,h.setCount,intMul_two_pow hsb]
  have hpos (n : Nat) : (2 : Int) ^ n ≠ 0 := (pow_pos (by decide) n).ne'
  have htrap : ¬(c.B = 0 ∨ c.S = 0 ∨ intMul c.B c.S = 0) := by
    rw [hmul,h.blockSize,h.setCount]
    simp [hpos]
  rw [addressCache,if_neg htrap,hmul,h.blockSize,h.setCount]
  simp only [nextTag,touched]
  split
  · refine ⟨_,rfl,?_⟩
    obtain ⟨g1,g2,g3,hsets⟩ := h.access h0 ((a.2.tdiv (2 ^ b)).tmod (2 ^ s)) (a.2.tdiv (2 ^ (b + s)))
    split
    · exact ⟨g1,g2,g3,hsets⟩
    · exact ⟨g1,g2,g3,hsets⟩
  · exact ⟨c,rfl,h⟩

theorem Tracks.run (hsb : s + b ≤ 30) (h0 : 0 < E) (run : List (Char × Int)) :
    ∃ c, Runs.run (fun a c => addressCache a.1 a.2 c) run (Csim.zeroed s E b) = some c ∧
      Tracks s E b c fun i => lastTag s b i run := by
  induction run using List.reverseRecOn with
  | nil => exact ⟨_,rfl,.zeroed s E b⟩
  | append_singleton run a ih =>
    obtain ⟨c,hc,hs⟩ := ih
    obtain ⟨c',hc',hs'⟩ := hs.step hsb h0 a
    refine ⟨c',?_,?_⟩
    · rw [Runs.run_append,hc,Option.bind_some]
      exact Runs.run_cons.mpr ⟨c',hc',rfl⟩
    · simp only [lastTag_concat]
      exact hs'

end Runs

-- the run reaches a state, and every set is in order there
def InOrder (s E b : Nat) (run : List (Char × Int)) : Prop :=
  ∃ c, Ints.run run (zeroed s E b) = some c ∧ ∀ i, SetInvariant E c i (lastTag s b i run)

theorem set_invariant {s E b : Nat} (hsb : s + b ≤ 30) (hE : 1 ≤ E) (run : List (Char × Int)) :
    InOrder s E b run ↔ ∀ a ∈ run, Held s E b a := by
  refine ⟨fun ⟨c,hc,_⟩ => (Sound.zeroed s E b).held_of_run hsb hE hc,fun hh => ?_⟩
  obtain ⟨c,hc,hex,-⟩ := (Sound.zeroed s E b).run hsb hE hh
  obtain ⟨d,hd,hs⟩ := Tracks.run (b := b) hsb hE run
  obtain rfl := Option.some.inj (hex.symm.trans hd)
  refine ⟨c,hc,fun i => ?_⟩
  obtain ⟨ls,hst,hr⟩ := hs.sets i
  exact setInvariant_of_stored hst hr

theorem set_invariant_last_set : ¬ InOrder 30 1 0 [('L',2 ^ 30 - 1)] := by
  rintro ⟨c,hc,-⟩
  have hn : (Ints.run [('L',2 ^ 30 - 1)] (zeroed 30 1 0)).isNone = true := by decide +kernel
  rw [hc] at hn
  cases hn

-- two ways: the third block of set 0 takes the line of the first
theorem set_invariant_two_ways : ∃ c,
    Ints.run [('L',0),('S',64),('M',128),('I',0)] (zeroed 1 2 5) = some c ∧
      ∃ k, k < 2 ∧ ageAt c 0 k = 1 ∧ tagAt c 0 k = 2 := by
  obtain ⟨c,hc,hi⟩ :=
    (@set_invariant 1 2 5 (by decide) (by decide) [('L',0),('S',64),('M',128),('I',0)]).mpr
      (by decide)
  obtain ⟨k,hk,h1,ht,-⟩ := (hi 0).newest 2 (by decide)
  exact ⟨c,hc,k,hk,h1,ht⟩

end Csim
