import IcsLabs.Csim.Refine

namespace Csim
open Libc (intMul toInt_bmod)

-- the locals index and tag of addressCache
def indexOf (c : State) (address : Int) : Int := (address.tdiv c.B).tmod c.S
def tagOf (c : State) (address : Int) : Int := address.tdiv (intMul c.B c.S)

theorem addressCache_fields (action : Char) (address : Int) (c : State) :
    addressCache action address c =
      if c.B = 0 ∨ c.S = 0 ∨ intMul c.B c.S = 0 then none
      else if action = 'L' ∨ action = 'M' ∨ action = 'S' then
        let c := accessLine (indexOf c address) (tagOf c address) c
        some (if action = 'M' then { c with hitCount := c.hitCount + 1 } else c)
      else some c := by rfl

structure ExactFields (s b : Nat) (c : State) (address : Int) : Prop where
  divides : ∀ action, addressCache action address c ≠ none
  index : indexOf c address = address / 2 ^ b % 2 ^ s
  tag : tagOf c address = address / 2 ^ (s + b)

section Product

variable {s b : Nat}

theorem intMul_wraps (h : s + b = 31) : intMul (2 ^ b) (2 ^ s) = -2 ^ 31 := by
  rw [intMul,toInt_bmod,← pow_add,Nat.add_comm,h]
  decide

theorem intMul_vanishes (h : 32 ≤ s + b) : intMul (2 ^ b) (2 ^ s) = 0 := by
  obtain ⟨k,hk⟩ : ∃ k, b + s = 32 + k := ⟨b + s - 32,by omega⟩
  rw [intMul,toInt_bmod,← pow_add,hk,pow_add]
  exact Int.bmod_eq_zero_of_dvd (Int.dvd_mul_right _ _)

theorem intMul_pos (h : s + b ≤ 30) : intMul (2 ^ b) (2 ^ s) = 2 ^ (s + b) := by
  rw [intMul_two_pow h,Nat.add_comm]

end Product

section Fields

variable {s b : Nat} {c : State} {address x y : Int}

theorem indexOf_eq (hS : c.S = 2 ^ s) (hB : c.B = 2 ^ b) (h0 : 0 ≤ address) :
    indexOf c address = address / 2 ^ b % 2 ^ s := by
  rw [indexOf,hS,hB,Int.tdiv_eq_ediv_of_nonneg h0,
    Int.tmod_eq_emod_of_nonneg (Int.ediv_nonneg h0 (by positivity))]

theorem tagOf_eq (hS : c.S = 2 ^ s) (hB : c.B = 2 ^ b) (h : s + b ≤ 30) (h0 : 0 ≤ address) :
    tagOf c address = address / 2 ^ (s + b) := by
  rw [tagOf,hS,hB,intMul_pos h,Int.tdiv_eq_ediv_of_nonneg h0]

theorem tagOf_negated (hS : c.S = 2 ^ s) (hB : c.B = 2 ^ b) (h : s + b = 31) (h0 : 0 ≤ address) :
    tagOf c address = -(address / 2 ^ (s + b)) := by
  rw [tagOf,hS,hB,intMul_wraps h,h,Int.tdiv_neg,Int.tdiv_eq_ediv_of_nonneg h0]

theorem addressCache_defined (hS : c.S = 2 ^ s) (hB : c.B = 2 ^ b) (h : s + b ≤ 31)
    (action : Char) (address : Int) : addressCache action address c ≠ none := by
  have hp (n : Nat) : (2 : Int) ^ n ≠ 0 := pow_ne_zero n (by decide)
  have hm : intMul c.B c.S ≠ 0 := by
    rw [hS,hB]
    rcases Nat.lt_or_ge (s + b) 31 with hlt | hge
    · rw [intMul_pos (by omega)]
      exact hp _
    · rw [intMul_wraps (by omega)]
      decide
  have hz : ¬ (c.B = 0 ∨ c.S = 0 ∨ intMul c.B c.S = 0) := by
    rw [hS,hB] at hm ⊢
    simp [hp,hm]
  rw [addressCache_fields,if_neg hz]
  split <;> exact Option.some_ne_none _

theorem addressCache_traps (hS : c.S = 2 ^ s) (hB : c.B = 2 ^ b) (h : 32 ≤ s + b)
    (action : Char) (address : Int) : addressCache action address c = none := by
  rw [addressCache_fields,if_pos]
  rw [hS,hB]
  exact .inr (.inr (intMul_vanishes h))

theorem exactFields_iff (hS : c.S = 2 ^ s) (hB : c.B = 2 ^ b) (h0 : 0 ≤ address) :
    ExactFields s b c address ↔ s + b ≤ 30 ∨ s + b = 31 ∧ address < 2 ^ 31 := by
  have hi := indexOf_eq hS hB h0
  rcases Nat.lt_or_ge 31 (s + b) with h32 | h31
  · refine iff_of_false (fun he => ?_) (by omega)
    exact he.divides 'L' (addressCache_traps hS hB h32 'L' address)
  · have hd := addressCache_defined hS hB h31
    rcases Nat.lt_or_ge 30 (s + b) with hw | h30
    · have hsb : s + b = 31 := by omega
      have ht := tagOf_negated hS hB hsb h0
      have hq : 0 ≤ address / 2 ^ (s + b) := Int.ediv_nonneg h0 (by positivity)
      have hz : address / 2 ^ (s + b) = 0 ↔ address < 2 ^ 31 := by
        rw [hsb]
        omega
      constructor
      · intro he
        refine .inr ⟨hsb,hz.mp ?_⟩
        have := ht.symm.trans he.tag
        omega
      · intro hc
        have ha := hz.mpr (hc.resolve_left (by omega)).2
        exact ⟨fun action => hd action address,hi,by rw [ht,ha]; rfl⟩
    · exact iff_of_true ⟨fun action => hd action address,hi,tagOf_eq hS hB h30 h0⟩ (.inl h30)

theorem same_block_iff (hS : c.S = 2 ^ s) (hB : c.B = 2 ^ b) (h : s + b ≤ 31) (hx : 0 ≤ x)
    (hy : 0 ≤ y) : indexOf c x = indexOf c y ∧ tagOf c x = tagOf c y ↔ x / 2 ^ b = y / 2 ^ b := by
  have htag : tagOf c x = tagOf c y ↔ x / 2 ^ b / 2 ^ s = y / 2 ^ b / 2 ^ s := by
    rw [Int.ediv_ediv_of_nonneg (by positivity),Int.ediv_ediv_of_nonneg (by positivity),
      ← pow_add,Nat.add_comm b s]
    rcases Nat.lt_or_ge 30 (s + b) with hw | h30
    · rw [tagOf_negated hS hB (by omega) hx,tagOf_negated hS hB (by omega) hy,neg_inj]
    · rw [tagOf_eq hS hB h30 hx,tagOf_eq hS hB h30 hy]
  rw [indexOf_eq hS hB hx,indexOf_eq hS hB hy,htag]
  constructor
  · rintro ⟨hm,hd⟩
    rw [← Int.emod_add_mul_ediv (x / 2 ^ b) (2 ^ s),hm,hd,Int.emod_add_mul_ediv]
  · intro he
    rw [he]
    exact ⟨rfl,rfl⟩

end Fields

theorem fields_exact {s b : Nat} {c : State} (hS : c.S = 2 ^ s) (hB : c.B = 2 ^ b) :
    (∀ address, 0 ≤ address →
      (ExactFields s b c address ↔ s + b ≤ 30 ∨ s + b = 31 ∧ address < 2 ^ 31)) ∧
    (s + b ≤ 31 → ∀ x y, 0 ≤ x → 0 ≤ y →
      (indexOf c x = indexOf c y ∧ tagOf c x = tagOf c y ↔ x / 2 ^ b = y / 2 ^ b)) :=
  ⟨fun _ h0 => exactFields_iff hS hB h0,fun h _ _ hx hy => same_block_iff hS hB h hx hy⟩

-- -s 16 -b 16: B * S is 0
theorem fields_exact_trap : ¬ ExactFields 16 16 (zeroed 16 1 16) 0 := by
  intro h
  exact h.divides 'L' (by decide)

theorem fields_exact_wide : (∀ address, 0 ≤ address →
    (ExactFields 16 15 (zeroed 16 1 15) address ↔
      16 + 15 ≤ 30 ∨ 16 + 15 = 31 ∧ address < 2 ^ 31)) ∧
    (16 + 15 ≤ 31 → ∀ x y, 0 ≤ x → 0 ≤ y →
      (indexOf (zeroed 16 1 15) x = indexOf (zeroed 16 1 15) y ∧
        tagOf (zeroed 16 1 15) x = tagOf (zeroed 16 1 15) y ↔ x / 2 ^ 15 = y / 2 ^ 15)) :=
  @fields_exact 16 15 (zeroed 16 1 15) rfl rfl

end Csim
