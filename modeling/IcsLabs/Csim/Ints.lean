import IcsLabs.Csim.Bounds

namespace Csim

-- a loop variable is an int, and no cell before cache is used
def Event.Defined : Event → Prop
  | .cell i => 0 ≤ i
  | .int v => -2 ^ 31 ≤ v ∧ v < 2 ^ 31

instance : DecidablePred Event.Defined
  | .cell _ => inferInstanceAs (Decidable (_ ≤ _))
  | .int _ => inferInstanceAs (Decidable (_ ∧ _))

namespace Ints

-- addressCache with the loop variables that csim.c declares as ints
-- none: a division traps, a loop variable overflows or a cell before cache is used
def addressCache (action : Char) (address : Int) (c : State) : Option State :=
  let r := Logged.addressCache action address c
  if r.All Event.Defined then r.val else none

def run : List (Char × Int) → State → Option State := Runs.run fun a => addressCache a.1 a.2

end Ints

def Access.call (a : Access) : Char × Int := (a.action,a.address)

def Ints.runTrace (trace : List Access) : State → Option State := run (trace.map Access.call)

-- the set of the access is in cache, and an int holds its end
def Held (s E b : Nat) (a : Char × Int) : Prop :=
  (a.1 = 'L' ∨ a.1 = 'M' ∨ a.1 = 'S') → 0 ≤ (a.2.tdiv (2 ^ b)).tmod (2 ^ s) ∧
    ((a.2.tdiv (2 ^ b)).tmod (2 ^ s) + 1) * 2 * E < 2 ^ 31

def Access.Held (s E b : Nat) (a : Access) : Prop :=
  (a.action = 'L' ∨ a.action = 'M' ∨ a.action = 'S') →
    (Reference.setOf s b a.address + 1) * 2 * E < 2 ^ 31

instance (s E b : Nat) (a : Char × Int) : Decidable (Held s E b a) :=
  inferInstanceAs (Decidable (_ → _))

instance (s E b : Nat) (a : Access) : Decidable (a.Held s E b) :=
  inferInstanceAs (Decidable (_ → _))

-- the reference on an access at any address that goes to one of its sets
def Reference.call (s E b : Nat) (r : Reference) (a : Char × Int) : Reference :=
  serve E a.1 ((a.2.tdiv (2 ^ b)).tmod (2 ^ s)).toNat (a.2.tdiv (2 ^ (b + s))) r

section Calls

variable {s E E' b : Nat} {c c' : State} {r : Reference} {a : Access} {trace : List Access}

theorem setOf_cast (s b address : Nat) :
    ((address : Int).tdiv (2 ^ b)).tmod (2 ^ s) = Reference.setOf s b address := by
  rw [show (2 : Int) ^ b = (2 ^ b : Nat) by norm_cast,show (2 : Int) ^ s = (2 ^ s : Nat) by norm_cast,
    ← Int.ofNat_tdiv,← Int.ofNat_tmod]
  rfl

theorem tagOf_cast (s b address : Nat) :
    (address : Int).tdiv (2 ^ (b + s)) = Reference.tagOf s b address := by
  rw [show (2 : Int) ^ (b + s) = (2 ^ (b + s) : Nat) by norm_cast,← Int.ofNat_tdiv]
  rfl

theorem Access.held_call : Csim.Held s E b a.call ↔ a.Held s E b := by
  rw [Csim.Held,Access.Held,Access.call]
  dsimp only
  rw [setOf_cast]
  refine imp_congr_right fun _ => ?_
  constructor
  · rintro ⟨-,h⟩
    exact_mod_cast h
  · intro h
    exact ⟨Int.natCast_nonneg _,by exact_mod_cast h⟩

theorem Access.all_held_call :
    (∀ p ∈ trace.map Access.call, Csim.Held s E b p) ↔ ∀ a ∈ trace, a.Held s E b := by
  simp only [List.forall_mem_map,held_call]

theorem Access.Held.mono (h : a.Held s E' b) (hle : E ≤ E') : a.Held s E b := fun ha =>
  (Nat.mul_le_mul_left _ hle).trans_lt (h ha)

theorem Reference.call_eq (s E b : Nat) (r : Reference) (a : Access) :
    Reference.call s E b r a.call = Reference.step s E b r a := by
  rw [Reference.call,Access.call]
  dsimp only
  rw [setOf_cast,tagOf_cast]
  rfl

theorem Reference.foldl_call (s E b : Nat) (r : Reference) (trace : List Access) :
    (trace.map Access.call).foldl (Reference.call s E b) r =
      trace.foldl (Reference.step s E b) r := by
  rw [List.foldl_map]
  simp only [Reference.call_eq]

end Calls

section Sound

variable {s E b : Nat} {c c' : State} {r : Reference} {action : Char} {address : Int}
  {trace : List (Char × Int)}

theorem Refines.set_below (h : Refines s E b c r) (h1 : 0 < E) {index tag : Int}
    (hi : index < 0) : ¬ (Logged.accessLine index tag c).All Event.Defined := by
  have hn : c.E.toNat = E := by simp [h.ways]
  obtain ⟨n,rfl⟩ : ∃ n, E = n + 1 := ⟨E - 1,by omega⟩
  have hend := endOf_eq index h.ways
  have hneg : startOf c index < 0 := by
    rw [startOf,h.ways]
    exact Int.mul_neg_of_neg_of_pos (by omega) (by omega)
  intro hall
  rw [Logged.accessLine,Traced.all_bind,Traced.all_bind,Logged.int_val,hn,Logged.scan,
    if_pos (by omega),Traced.all_bind,Logged.isHit,Traced.all_bind,Logged.load_all] at hall
  exact absurd hall.2.1.1.1 (Int.not_le.mpr hneg)

theorem Sound.line_iff (h : Sound s E b c r) (h1 : 0 < E) {set : Nat} (hi : set < 2 ^ s)
    (tag : Int) :
    (Logged.accessLine set tag c).All Event.Defined ↔ ((set : Int) + 1) * 2 * E < 2 ^ 31 := by
  obtain ⟨f,ls,hag,hs⟩ := h.refines.sets _ hi
  have hp : ∀ e ∈ ls, 1 ≤ e.mark := by
    intro e hel
    obtain ⟨d,hd,rfl⟩ := hag.mem_iff.mp hel
    exact hag.pos d hd
  have hstart : (0 : Int) ≤ startOf c set := by
    rw [startOf,h.refines.ways]
    positivity
  have hend := endOf_eq set h.refines.ways
  have hcell : ∀ x, startOf c set ≤ x → x < endOf c set → Event.Defined (.cell x) :=
    fun x hx _ => hstart.trans hx
  rw [← h.refines.ways,← endOf]
  constructor
  · intro hall
    by_contra hge
    obtain rfl : ls = [] := by
      rw [hag.eq,h.untouched _ (Int.not_lt.mp hge)]
      rfl
    exact hge (Logged.accessLine_end hcell hs h.refines.ways h1 hall).2
  · intro hlt
    have hf : Logged.SetFine Event.Defined set c := ⟨hcell,fun v hv hv' => by
      have heven : endOf c set = 2 * ((set + 1) * E) := by
        rw [endOf,h.refines.ways]
        ring
      exact ⟨by omega,by omega⟩⟩
    rw [Logged.accessLine_all hf hs h.refines.ways (hag.apart (h.refines.marked _).apart) hp h1]
    exact fun _ _ => show (0 : Int) ≤ endOf c set + 1 by omega

theorem index_lt (s b : Nat) (address : Int) : (address.tdiv (2 ^ b)).tmod (2 ^ s) < 2 ^ s :=
  Int.tmod_lt_of_pos _ (by positivity)

theorem Sound.all_iff (h : Sound s E b c r) (hsb : s + b ≤ 30) (h1 : 0 < E) :
    (Logged.addressCache action address c).All Event.Defined ↔ Held s E b (action,address) := by
  obtain ⟨hB,hS,hBS⟩ := h.refines.block hsb
  rw [Logged.addressCache,if_neg (by rw [hBS,hB,hS]; simp),Held]
  by_cases ha : action = 'L' ∨ action = 'M' ∨ action = 'S'
  · rw [if_pos ha,Traced.all_bind,and_iff_left (Traced.all_pure _),imp_iff_right ha,indexOf,
      h.refines.blockSize,h.refines.setCount]
    dsimp only
    rcases lt_or_ge ((address.tdiv (2 ^ b)).tmod (2 ^ s)) 0 with hneg | hpos
    · exact iff_of_false (h.refines.set_below h1 hneg) fun hh => Int.not_le.mpr hneg hh.1
    · have hlt := index_lt s b address
      rw [and_iff_right hpos]
      obtain ⟨set,hset⟩ := Int.eq_ofNat_of_zero_le hpos
      rw [hset] at hlt ⊢
      exact h.line_iff h1 (by exact_mod_cast hlt) _
  · rw [if_neg ha]
    exact iff_of_true (Traced.all_pure _) fun h => absurd h ha

theorem Sound.call (h : Sound s E b c r) (hsb : s + b ≤ 30) (h1 : 0 < E)
    (hh : Held s E b (action,address)) : ∃ c', Ints.addressCache action address c = some c' ∧
      addressCache action address c = some c' ∧
      Sound s E b c' (Reference.call s E b r (action,address)) := by
  have hex := h.refines.addressCache_eq hsb action address
  refine ⟨_,?_,hex,?_⟩
  · rw [Ints.addressCache]
    rw [if_pos ((h.all_iff hsb h1).mpr hh),Logged.addressCache_val h.refines.ways,hex]
  · rw [Reference.call]
    dsimp only
    by_cases ha : action = 'L' ∨ action = 'M' ∨ action = 'S'
    · obtain ⟨hpos,hend⟩ := hh ha
      have hlt := index_lt s b address
      dsimp only at hpos hend
      obtain ⟨set,hset⟩ := Int.eq_ofNat_of_zero_le hpos
      rw [hset] at hlt hend ⊢
      refine h.serve h1 (by exact_mod_cast hlt) (fun _ => ?_) _
      rw [endOf,h.refines.ways]
      exact hend
    · rw [serveLine,if_neg ha,Reference.serve,if_neg (by tauto),if_neg (by tauto)]
      exact h

theorem Sound.fails (h : Sound s E b c r) (hsb : s + b ≤ 30) (h1 : 0 < E)
    (hh : ¬ Held s E b (action,address)) : Ints.addressCache action address c = none :=
  if_neg fun hall => hh ((h.all_iff hsb h1).mp hall)

theorem Sound.run (h : Sound s E b c r) (hsb : s + b ≤ 30) (h1 : 0 < E)
    (hh : ∀ a ∈ trace, Held s E b a) : ∃ c', Ints.run trace c = some c' ∧
      Runs.run (fun a => addressCache a.1 a.2) trace c = some c' ∧
      Sound s E b c' (trace.foldl (Reference.call s E b) r) := by
  induction trace generalizing c r with
  | nil => exact ⟨c,rfl,rfl,h⟩
  | cons a trace ih =>
    obtain ⟨ha,hh⟩ := List.forall_mem_cons.mp hh
    obtain ⟨c1,h2,h3,hs⟩ := h.call hsb h1 ha
    obtain ⟨c2,h4,h5,hs⟩ := ih hs hh
    exact ⟨c2,Runs.run_cons.mpr ⟨c1,h2,h4⟩,Runs.run_cons.mpr ⟨c1,h3,h5⟩,hs⟩

theorem Sound.held_of_run (h : Sound s E b c r) (hsb : s + b ≤ 30) (h1 : 0 < E)
    (hr : Ints.run trace c = some c') : ∀ a ∈ trace, Held s E b a := by
  induction trace generalizing c r with
  | nil => exact List.forall_mem_nil _
  | cons a trace ih =>
    obtain ⟨c1,h2,hr⟩ := Runs.run_cons.mp hr
    have ha : Held s E b a := by
      by_contra ha
      exact Option.some_ne_none _ (h2.symm.trans (h.fails hsb h1 ha))
    obtain ⟨c2,h3,-,hs⟩ := h.call hsb h1 ha
    obtain rfl := Option.some.inj (h2.symm.trans h3)
    exact List.forall_mem_cons.mpr ⟨ha,ih hs hr⟩

theorem Sound.runTrace (h : Sound s E b c r) (hsb : s + b ≤ 30) (h1 : 0 < E) {trace : List Access}
    (hh : ∀ a ∈ trace, a.Held s E b) : ∃ c', Ints.runTrace trace c = some c' ∧
      Sound s E b c' (trace.foldl (Reference.step s E b) r) := by
  obtain ⟨c',hc,-,hs⟩ := h.run hsb h1 (Access.all_held_call.mpr hh)
  exact ⟨c',hc,Reference.foldl_call s E b r trace ▸ hs⟩

theorem Sound.held_of_runTrace (h : Sound s E b c r) (hsb : s + b ≤ 30) (h1 : 0 < E)
    {trace : List Access} (hr : Ints.runTrace trace c = some c') : ∀ a ∈ trace, a.Held s E b :=
  Access.all_held_call.mp (h.held_of_run hsb h1 hr)

end Sound

-- what is claimed of a trace: its counts after every prefix are those of the reference
def Counted (s E b : Nat) (trace : List Access) : Prop :=
  ∀ pre, pre <+: trace → ∃ c, Ints.runTrace pre (zeroed s E b) = some c ∧
    c.hitCount = (Reference.run s E b pre).hits ∧
    c.missCount = (Reference.run s E b pre).misses ∧
    c.evictionCount = (Reference.run s E b pre).evictions

theorem counts_refine {s E b : Nat} (hsb : s + b ≤ 30) (h1 : 1 ≤ E) (trace : List Access) :
    Counted s E b trace ↔ ∀ a ∈ trace, a.Held s E b := by
  constructor
  · intro h
    obtain ⟨c,hc,-⟩ := h trace List.prefix_rfl
    exact (Sound.zeroed s E b).held_of_runTrace hsb h1 hc
  · intro hh pre hpre
    obtain ⟨c,hc,hs⟩ := (Sound.zeroed s E b).runTrace hsb h1 fun a ha => hh a (hpre.subset ha)
    exact ⟨c,hc,hs.refines.hits,hs.refines.misses,hs.refines.evictions⟩

-- j reaches 2^31 - 2 and j += 2 overflows
theorem counts_refine_last_set : ¬ Counted 30 1 0 [⟨'L',2 ^ 30 - 1⟩] := by
  intro h
  obtain ⟨c,hc,-⟩ := h _ List.prefix_rfl
  have hn : (Ints.runTrace [⟨'L',2 ^ 30 - 1⟩] (zeroed 30 1 0)).isNone = true := by decide +kernel
  rw [hc] at hn
  cases hn

theorem counts_refine_two_ways : ∃ c,
    Ints.runTrace [⟨'L',0⟩,⟨'L',64⟩,⟨'M',0⟩,⟨'I',0⟩,⟨'S',128⟩] (zeroed 1 2 5) = some c ∧
      c.hitCount = 2 ∧ c.missCount = 3 ∧ c.evictionCount = 1 :=
  (counts_refine (by decide) (by decide) [⟨'L',0⟩,⟨'L',64⟩,⟨'M',0⟩,⟨'I',0⟩,⟨'S',128⟩]).mpr
    (by decide) _ List.prefix_rfl

end Csim
