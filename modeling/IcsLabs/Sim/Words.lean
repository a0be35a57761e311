import IcsLabs.Sim.Faults
import Mathlib.Algebra.BigOperators.Group.Finset.Basic

namespace Sim
open Bytes

section Longs

variable {m r : Mem} {addr val : Word} {id k : Nat}

theorem readLE_eq_sum (data : Nat → Byte) (a n : Nat) :
    readLE data a n = ∑ i ∈ Finset.range n, (data (a + i)).toNat * 2 ^ (8 * i) := by
  induction n with
  | zero => rfl
  | succ n ih =>
    have hp : 256 ^ n = 2 ^ (8 * n) := by rw [Nat.pow_mul]
    rw [readLE_snoc,ih,Finset.sum_range_succ,hp,Nat.mul_comm]

theorem getLongVal_sum (hl : m.len < 2 ^ 31) (hb : InBounds m addr 8) : getLongVal m addr =
    some (BitVec.ofNat 64 (∑ i ∈ Finset.range 8, (m.data (addr.toNat + i)).toNat * 2 ^ (8 * i))) := by
  rw [getLongVal_eq hb hl,Y86.load,readLE_eq_sum]

theorem load_store (data : Nat → Byte) (addr val : Word) :
    Y86.load (Y86.store data addr val) addr = val := by
  have hv : val.toNat < 256 ^ 8 := val.isLt
  rw [Y86.load,Y86.store,readLE_writeLE_same,Nat.mod_eq_of_lt hv,BitVec.ofNat_toNat,
    BitVec.setWidth_eq]

theorem getLongVal_store (hl : m.len < 2 ^ 31) (hb : InBounds m addr 8) :
    getLongVal { m with data := Y86.store m.data addr val } addr = some val := by
  have hb' : InBounds { m with data := Y86.store m.data addr val } addr 8 := hb
  rw [getLongVal_eq hb' hl,load_store]

theorem store_byte (data : Nat → Byte) (addr val : Word) {i : Nat} (hi : i < 8) :
    Y86.store data addr val (addr.toNat + i) = BitVec.ofNat 8 (val.toNat / 2 ^ (8 * i)) := by
  rw [Y86.store,writeLE_inside hi,show 256 = 2 ^ 8 from rfl,← Nat.pow_mul]

theorem setRegVal_cases (r : Mem) (id : Nat) (val : Word) : setRegVal r id val = r ∨
    id < regNone ∧ setRegVal r id val = { r with data := writeLE r.data (id * 8) 8 val.toNat } := by
  by_cases hi : id < regNone
  · by_cases h : Rejects r (BitVec.ofNat 64 (id * 8))
    · exact .inl (setRegVal_rejects h)
    · exact .inr ⟨hi,setRegVal_accepts hi h⟩
  · exact .inl (if_neg hi)

theorem getRegVal_setRegVal_ne (hk : k ≠ id) : getRegVal (setRegVal r id val) k = getRegVal r k := by
  rcases setRegVal_cases r id val with h | ⟨hi,h⟩
  · rw [h]
  · by_cases hn : k < regNone
    · by_cases hr : Rejects r (BitVec.ofNat 64 (k * 8))
      · have hr' : Rejects (setRegVal r id val) (BitVec.ofNat 64 (k * 8)) := h.symm ▸ hr
        rw [getRegVal,getRegVal,getLongVal_ite,getLongVal_ite,if_pos hr,if_pos hr']
      · have hr' : ¬ Rejects (setRegVal r id val) (BitVec.ofNat 64 (k * 8)) := h.symm ▸ hr
        rw [getRegVal_accepts hn hr,getRegVal_accepts hn hr',h,readLE_writeLE_disjoint (by omega)]
    · rw [getRegVal,getRegVal,if_pos (Nat.le_of_not_lt hn),if_pos (Nat.le_of_not_lt hn)]

theorem inBounds_accepts (hl : m.len < 2 ^ 31) (hb : InBounds m addr 8) : ¬ Rejects m addr := by
  have h := hb.toNat
  exact not_outside h (by omega)

end Longs

theorem word_access {m r : Mem} {a v : Word} {id : Nat} (hm : m.len < 2 ^ 31) (ha : InBounds m a 8)
    (hr : r.len < 2 ^ 31) (hid : id < regNone) (hb : InBounds r (BitVec.ofNat 64 (id * 8)) 8) :
    (∃ m', setLongVal m a v = some m' ∧ getLongVal m' a = some v ∧
      (∀ x, x < a.toNat ∨ a.toNat + 8 ≤ x → m'.data x = m.data x) ∧
      (∀ i, i < 8 → m'.data (a.toNat + i) = BitVec.ofNat 8 (v.toNat / 2 ^ (8 * i))) ∧
      ∀ c, InBounds m c 8 → getLongVal m' c = some (BitVec.ofNat 64
        (∑ i ∈ Finset.range 8, (m'.data (c.toNat + i)).toNat * 2 ^ (8 * i)))) ∧
    getRegVal (setRegVal r id v) id = v ∧
    ∀ k, k ≠ id → getRegVal (setRegVal r id v) k = getRegVal r k := by
  exact ⟨⟨_,setLongVal_eq ha hm,getLongVal_store hm ha,fun x hx => writeLE_outside hx,
    fun i hi => store_byte m.data a v hi,fun c hc => getLongVal_sum hm hc⟩,
    getRegVal_setRegVal hid (inBounds_accepts hr hb),fun k hk => getRegVal_setRegVal_ne hk⟩

-- a negative word at an odd address, read again four bytes further on
theorem word_access_negative : ∃ m', setLongVal ⟨64,fun _ => 7⟩ 3 (-2) = some m' ∧
    getLongVal m' 3 = some (-2) ∧ getLongVal m' 7 = some 0x07070707ffffffff := by
  have h := (@word_access ⟨64,fun _ => 7⟩ ⟨128,fun _ => 0⟩ 3 (-2) 4
    (by decide) ⟨by decide,by decide⟩ (by decide) (by decide) ⟨by decide,by decide⟩).1
  obtain ⟨m',hs,hg,-⟩ := h
  refine ⟨m',hs,hg,?_⟩
  have hm : m' = ⟨64,putBytes 3 8 0 (-2) fun _ => 7⟩ := (Option.some.inj hs).symm
  rw [hm]
  decide +kernel

end Sim
