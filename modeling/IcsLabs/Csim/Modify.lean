import IcsLabs.Csim.Inclusion
import IcsLabs.Lib.Repeat

namespace Csim
open Lru

def SameCounts (c c' : State) : Prop :=
  c.hitCount = c'.hitCount ∧ c.missCount = c'.missCount ∧ c.evictionCount = c'.evictionCount

section Modify

variable {s E b set : Nat} {tag : Int} {c c' : State} {r : Reference} {address : Int}

theorem Reference.access_again (hw : ∀ i, WellMarked r.now (r.sets i)) (h0 : 0 < E) :
    let r1 := access E set tag r
    access E set tag r1 = { r1 with
      now := r1.now + 1
      sets := Function.update r1.sets set ((r1.sets set).map (remark (later r.now)))
      hits := r1.hits + 1 } := by
  intro r1
  have hset : r1.sets set = (Lru.access E tag r.now (r.sets set)).1 := Function.update_self _ _ _
  have hag : Lru.access E tag r1.now (r1.sets set) =
      ((r1.sets set).map (remark (later r.now)),.hit) := by
    rw [hset]
    exact Lru.access_again (hw _) h0
  rw [access,hag]
  rfl

theorem Refines.again (hw : ∀ i, WellMarked r.now (r.sets i)) (h0 : 0 < E)
    (h : Refines s E b c (Reference.access E set tag (Reference.access E set tag r))) :
    Refines s E b c { Reference.access E set tag r with
      hits := (Reference.access E set tag r).hits + 1 } := by
  rw [Reference.access_again hw h0] at h
  obtain ⟨h1,h2,h3,hsets,-,hh,hm,he⟩ := h
  refine ⟨h1,h2,h3,fun i hi => ?_,Reference.access_marked hw set tag,hh,hm,he⟩
  obtain ⟨f,ls,ha,hs⟩ := hsets i hi
  simp only at ha ⊢
  by_cases hk : i = set
  · subst hk
    rw [Function.update_self] at ha
    refine ⟨_,ls,ha.remark (later_strictMonoOn fun e he => ?_),hs⟩
    rw [Reference.access] at he
    simp only [Function.update_self] at he
    exact (access_latest (hw _) h0 he).1
  · rw [Function.update_of_ne hk] at ha
    exact ⟨f,ls,ha,hs⟩

theorem Refines.sameCounts (h : Refines s E b c r) (h' : Refines s E b c' r) : SameCounts c c' :=
  ⟨h.hits.trans h'.hits.symm,h.misses.trans h'.misses.symm,h.evictions.trans h'.evictions.symm⟩

theorem Sound.modify (h : Sound s E b c r) (hsb : s + b ≤ 30) (h0 : 0 < E)
    (hh : Held s E b ('M',address)) : ∃ m ls r', Ints.addressCache 'M' address c = some m ∧
      Ints.run [('L',address),('S',address)] c = some ls ∧ Sound s E b m r' ∧ Sound s E b ls r' := by
  have hl : Held s E b ('L',address) := fun _ => hh (.inr (.inl rfl))
  have hst : Held s E b ('S',address) := fun _ => hh (.inr (.inl rfl))
  obtain ⟨m,hm,-,hsm⟩ := h.call hsb h0 hh
  obtain ⟨ls,hls,-,hsl⟩ := h.run hsb h0 (List.forall_mem_cons.mpr ⟨hl,List.forall_mem_singleton.mpr hst⟩)
  refine ⟨m,ls,_,hm,hls,hsm,hsl.refines.again h.refines.marked h0,fun k hk => ?_⟩
  have hend : endOf ls k = endOf m k := by rw [endOf,endOf,hsl.refines.ways,hsm.refines.ways]
  exact hsm.untouched k (hend ▸ hk)

end Modify

-- M at an address in the state after trace, then rest, against L and S in place of M
def ModifyAgrees (s E b : Nat) (trace : List (Char × Int)) (address : Int)
    (rest : List (Char × Int)) : Prop :=
  ∃ c m ls m' ls', Ints.run trace (zeroed s E b) = some c ∧
    Ints.addressCache 'M' address c = some m ∧
    Ints.run [('L',address),('S',address)] c = some ls ∧ SameCounts m ls ∧
    Ints.run rest m = some m' ∧ Ints.run rest ls = some ls' ∧ SameCounts m' ls'

end Csim
