import Mathlib.Algebra.GroupWithZero.Nat

namespace Tiling

variable {β : Type} (lo len : β → Nat)

def Tiles : Nat → List β → Nat → Prop
  | a, [], e => a = e
  | a, b :: bs, e => lo b = a ∧ Tiles (a + len b) bs e

variable {lo len} {a c d e : Nat} {b b' : β} {bs pre mid mid' post : List β}

theorem tiles_append :
    Tiles lo len a (pre ++ post) e ↔ ∃ c, Tiles lo len a pre c ∧ Tiles lo len c post e := by
  induction pre generalizing a with
  | nil => simp [Tiles]
  | cons b pre ih => simp only [List.cons_append,Tiles,ih,← exists_and_left,and_assoc]

theorem tiles_le (h : Tiles lo len a bs e) : a ≤ e := by
  induction bs generalizing a with
  | nil => exact Nat.le_of_eq h
  | cons b bs ih => exact Nat.le_trans (Nat.le_add_right _ _) (ih h.2)

theorem tiles_length {k : Nat} (h : Tiles lo len a bs e) (hk : ∀ b ∈ bs, k ≤ len b) :
    a + bs.length * k ≤ e := by
  induction bs generalizing a with
  | nil => simpa using Nat.le_of_eq h
  | cons b bs ih =>
    have h1 := ih h.2 fun c hc => hk c (by simp [hc])
    have h2 := hk b (by simp)
    rw [List.length_cons,Nat.succ_mul]
    omega

theorem tiles_sum (h : Tiles lo len a bs e) : a + (bs.map len).sum = e := by
  induction bs generalizing a with
  | nil => exact h
  | cons b bs ih =>
    rw [List.map_cons,List.sum_cons,← Nat.add_assoc]
    exact ih h.2

theorem tiles_mem (h : Tiles lo len a bs e) (hb : b ∈ bs) : a ≤ lo b ∧ lo b + len b ≤ e := by
  induction bs generalizing a with
  | nil => simp at hb
  | cons c bs ih =>
    obtain ⟨hc,ht⟩ := h
    have hle := tiles_le ht
    rcases List.mem_cons.mp hb with rfl | hb
    · omega
    · have := ih ht hb
      omega

theorem tiles_aligned {k : Nat} (h : Tiles lo len a bs e) (ha : a % k = 0)
    (hk : ∀ b ∈ bs, len b % k = 0) : (∀ b ∈ bs, lo b % k = 0) ∧ e % k = 0 := by
  induction bs generalizing a with
  | nil => exact ⟨by simp,h ▸ ha⟩
  | cons c bs ih =>
    obtain ⟨hc,ht⟩ := h
    have hnext : (a + len c) % k = 0 := by rw [Nat.add_mod,ha,hk c (by simp)]; simp
    obtain ⟨h1,h2⟩ := ih ht hnext fun b hb => hk b (by simp [hb])
    refine ⟨fun b hb => ?_,h2⟩
    rcases List.mem_cons.mp hb with rfl | hb
    · rw [hc,ha]
    · exact h1 b hb

theorem tiles_end_unique (h : Tiles lo len a bs d) (h' : Tiles lo len a bs e) : d = e := by
  induction bs generalizing a with
  | nil => exact h.symm.trans h'
  | cons b bs ih => exact ih h.2 h'.2

theorem tiles_around (h : Tiles lo len a (pre ++ b :: post) e) :
    Tiles lo len a pre (lo b) ∧ Tiles lo len (lo b + len b) post e := by
  obtain ⟨c,hp,hb,ht⟩ := tiles_append.mp h
  subst hb
  exact ⟨hp,ht⟩

theorem tiles_apart (h : Tiles lo len a bs e) (hb : b ∈ bs) (hb' : b' ∈ bs) :
    b = b' ∨ lo b + len b ≤ lo b' ∨ lo b' + len b' ≤ lo b := by
  obtain ⟨pre,post,rfl⟩ := List.append_of_mem hb
  obtain ⟨hp,ht⟩ := tiles_around h
  rcases List.mem_append.mp hb' with hl | hr
  · exact Or.inr (Or.inr (tiles_mem hp hl).2)
  · rcases List.mem_cons.mp hr with rfl | hr
    · exact Or.inl rfl
    · exact Or.inr (Or.inl (tiles_mem ht hr).1)

theorem tiles_lo_inj (h : Tiles lo len a bs e) (hpos : ∀ b ∈ bs, 0 < len b) (hb : b ∈ bs)
    (hb' : b' ∈ bs) (heq : lo b = lo b') : b = b' := by
  have h1 := hpos b hb
  have h2 := hpos b' hb'
  rcases tiles_apart h hb hb' with h3 | h3 | h3
  · exact h3
  · omega
  · omega

theorem tiles_nodup (h : Tiles lo len a bs e) (hpos : ∀ b ∈ bs, 0 < len b) :
    (bs.map lo).Nodup := by
  induction bs generalizing a with
  | nil => exact .nil
  | cons b bs ih =>
    refine List.nodup_cons.mpr ⟨fun hm => ?_,ih h.2 fun c hc => hpos c (by simp [hc])⟩
    obtain ⟨c,hc,he⟩ := List.mem_map.mp hm
    have h1 := (tiles_mem h.2 hc).1
    have h2 := hpos b (by simp)
    have h3 := h.1
    omega

theorem tiles_splice (h : Tiles lo len a (pre ++ mid ++ post) e) (hm : Tiles lo len c mid d)
    (hne : mid ≠ []) (hm' : Tiles lo len c mid' d) :
    Tiles lo len a pre c ∧ Tiles lo len d post e ∧ Tiles lo len a (pre ++ mid' ++ post) e := by
  obtain ⟨d',hpm,ht⟩ := tiles_append.mp h
  obtain ⟨c',hp,hmid⟩ := tiles_append.mp hpm
  have hc : c' = c := by
    cases mid with
    | nil => exact absurd rfl hne
    | cons b mid => exact hmid.1.symm.trans hm.1
  subst hc
  obtain rfl := tiles_end_unique hmid hm
  exact ⟨hp,ht,tiles_append.mpr ⟨_,tiles_append.mpr ⟨_,hp,hm'⟩,ht⟩⟩

end Tiling
