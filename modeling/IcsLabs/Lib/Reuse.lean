import IcsLabs.Lib.Stacked
import Mathlib.Data.Finset.Card
import Mathlib.Data.List.TakeWhile

namespace Lru

variable {α : Type} [DecidableEq α]

-- what a history touched after its last touch of t
def since (t : α) (h : List α) : Finset α := (h.reverse.takeWhile (· ≠ t)).toFinset

-- fewer than ways others since the last touch
def Near (ways : Nat) (t : α) (h : List α) : Prop := t ∈ h ∧ (since t h).card < ways

instance (ways : Nat) (t : α) (h : List α) : Decidable (Near ways t h) :=
  inferInstanceAs (Decidable (_ ∧ _))

-- a set of lines is what its history says
structure Recalls (ways : Nat) (h : List α) (l : List (Entry α Nat)) : Prop where
  near : ∀ t, t ∈ tags l ↔ Near ways t h
  order : ∀ d ∈ l, ∀ e ∈ l, d.mark < e.mark → e.tag ∈ since d.tag h
  length : l.length = min ways h.toFinset.card

section Since

variable {ways : Nat} {t u x : α} {h : List α}

theorem since_self (t : α) (h : List α) : since t (h ++ [t]) = ∅ := by simp [since]

theorem since_ne (hx : x ≠ t) (h : List α) : since t (h ++ [x]) = insert x (since t h) := by
  simp [since,hx]

theorem self_not_mem_since (t : α) (h : List α) : t ∉ since t h := fun hm => by
  simpa using List.mem_takeWhile_imp (List.mem_toFinset.mp hm)

theorem since_subset (t : α) (h : List α) : since t h ⊆ h.toFinset := fun _ hx =>
  List.mem_toFinset.mpr
    (List.mem_reverse.mp (List.takeWhile_subset _ (List.mem_toFinset.mp hx)))

theorem since_trans (hu : u ∈ since t h) : since u h ⊆ since t h := by
  induction h using List.reverseRecOn with
  | nil => simp [since] at hu
  | append_singleton h x ih =>
    by_cases hxt : x = t
    · rw [hxt,since_self] at hu
      exact absurd hu (Finset.notMem_empty u)
    · rw [since_ne hxt] at hu ⊢
      by_cases hxu : x = u
      · rw [hxu,since_self]
        exact Finset.empty_subset _
      · rw [since_ne hxu]
        exact Finset.insert_subset_insert x
          (ih ((Finset.mem_insert.mp hu).resolve_left (Ne.symm hxu)))

theorem since_total (ht : t ∈ h) (hu : u ∈ h) (hne : u ≠ t) (hn : t ∉ since u h) : u ∈ since t h := by
  induction h using List.reverseRecOn with
  | nil => cases ht
  | append_singleton h x ih =>
    by_cases hxu : x = u
    · subst hxu
      rw [since_ne hne]
      exact Finset.mem_insert_self _ _
    · rw [since_ne hxu,Finset.mem_insert,not_or] at hn
      have hmem {y : α} (hy : y ∈ h ++ [x]) (hyx : x ≠ y) : y ∈ h :=
        (List.mem_append.mp hy).resolve_right fun hm => hyx (List.mem_singleton.mp hm).symm
      rw [since_ne (Ne.symm hn.1)]
      exact Finset.mem_insert_of_mem (ih (hmem ht (Ne.symm hn.1)) (hmem hu hxu) hn.2)

theorem card_since_lt (hu : u ∈ since t h) : (since u h).card < (since t h).card :=
  Finset.card_lt_card ⟨since_trans hu,fun hs => self_not_mem_since u h (hs hu)⟩

theorem card_since_lt_distinct (ht : t ∈ h) : (since t h).card < h.toFinset.card :=
  Finset.card_lt_card ⟨since_subset t h,fun hs =>
    self_not_mem_since t h (hs (List.mem_toFinset.mpr ht))⟩

theorem near_self (h0 : 0 < ways) (t : α) (h : List α) : Near ways t (h ++ [t]) :=
  ⟨by simp,by rwa [since_self]⟩

theorem near_append (hne : t ≠ u) : Near ways u (h ++ [t]) ↔
    Near ways u h ∧ (t ∈ since u h ∨ (since u h).card + 1 < ways) := by
  have hmem : u ∈ h ++ [t] ↔ u ∈ h := by simp [hne.symm]
  rw [Near,Near,hmem,since_ne hne,and_assoc]
  refine and_congr_right fun _ => ?_
  by_cases ht : t ∈ since u h
  · rw [Finset.insert_eq_of_mem ht]
    exact ⟨fun hc => ⟨hc,.inl ht⟩,And.left⟩
  · rw [Finset.card_insert_of_notMem ht]
    exact ⟨fun hc => ⟨by omega,.inr hc⟩,fun hc => hc.2.resolve_left ht⟩

theorem card_append (t : α) (h : List α) :
    (h ++ [t]).toFinset.card = h.toFinset.card + if t ∈ h then 0 else 1 := by
  rw [List.toFinset_append,List.toFinset_cons,List.toFinset_nil,Finset.union_insert,Finset.union_empty]
  split
  · rename_i ht
    rw [Finset.insert_eq_of_mem (List.mem_toFinset.mpr ht),Nat.add_zero]
  · rename_i ht
    rw [Finset.card_insert_of_notMem (fun hm => ht (List.mem_toFinset.mp hm))]

end Since

section Recalls

variable {ways now : Nat} {t u : α} {h : List α} {l : List (Entry α Nat)} {e : Entry α Nat}

theorem Recalls.nil (ways : Nat) : Recalls ways ([] : List α) [] :=
  ⟨fun t => by simp [tags,Near],by simp,by simp⟩

theorem Apart.card_tags (h : Apart l) : (tags l).toFinset.card = l.length := by
  rw [List.toFinset_card_of_nodup,tags,List.length_map]
  exact List.pairwise_map.mpr (h.imp And.left)

theorem Recalls.hit_iff (h' : Recalls ways h l) :
    (Lru.access ways t now l).2 = .hit ↔ Near ways t h := by
  rw [access_hit,h'.near]

theorem Recalls.gone (h' : Recalls ways h l) (hw : Apart l) (he : e ∈ l) (ht : t ∉ tags l)
    (hlen : ways ≤ l.length) (hmin : ∀ d ∈ l, e.mark ≤ d.mark) :
    ¬ Near ways e.tag (h ++ [t]) := by
  have hne : t ≠ e.tag := fun heq => ht (heq ▸ mem_tags he)
  rw [near_append hne]
  rintro ⟨⟨heh,hc⟩,hor⟩
  have hold : (tags l).toFinset.erase e.tag ⊆ since e.tag h := fun u hu => by
    obtain ⟨hue,hul⟩ := Finset.mem_erase.mp hu
    obtain ⟨d,hd,rfl⟩ := List.mem_map.mp (List.mem_toFinset.mp hul)
    refine h'.order e he d hd (Nat.lt_of_le_of_ne (hmin d hd) fun hm => hue ?_)
    rw [hw.eq_of_mark he hd hm]
  have hcard := Finset.card_le_card hold
  rw [Finset.card_erase_of_mem (List.mem_toFinset.mpr (mem_tags he)),hw.card_tags] at hcard
  rcases hor with hte | hc'
  · have hth : t ∈ h := List.mem_toFinset.mp (since_subset _ _ hte)
    have := card_since_lt hte
    exact ht ((h'.near t).mpr ⟨hth,by omega⟩)
  · omega

theorem Recalls.stays (h' : Recalls ways h l) (he : e ∈ l) (hne : t ≠ e.tag)
    (hk : t ∈ tags l ∨ l.length < ways ∨ ∃ d ∈ l, d.mark < e.mark) :
    Near ways e.tag (h ++ [t]) := by
  have hn := (h'.near e.tag).mp (mem_tags he)
  refine (near_append hne).mpr ⟨hn,?_⟩
  by_cases hte : t ∈ since e.tag h
  · exact .inl hte
  · right
    rcases hk with ht | hlt | ⟨d,hd,hde⟩
    · obtain ⟨hth,hc⟩ := (h'.near t).mp ht
      have := card_since_lt (since_total hth hn.1 hne.symm hte)
      omega
    · have := card_since_lt_distinct hn.1
      have := h'.length
      omega
    · have hc := ((h'.near d.tag).mp (mem_tags hd)).2
      have := card_since_lt (h'.order d hd e he hde)
      omega

theorem Recalls.access (h' : Recalls ways h l) (hw : WellMarked now l) (h0 : 0 < ways) (t : α) :
    Recalls ways (h ++ [t]) (Lru.access ways t now l).1 := by
  have hmem (e : Entry α Nat) := mem_access_iff (t := t) (e := e) hw h0
  have hlen := h'.length
  refine ⟨fun u => ?_,fun d hd e he hde => ?_,?_⟩
  · by_cases hut : t = u
    · subst hut
      refine iff_of_true ?_ (near_self h0 t h)
      exact mem_tags (e := ⟨t,now⟩) ((hmem _).mpr (.inl rfl))
    · constructor
      · intro hu
        obtain ⟨e,he,rfl⟩ := List.mem_map.mp hu
        obtain rfl | ⟨he,-,hk⟩ := (hmem e).mp he
        · exact absurd rfl hut
        · exact h'.stays he hut hk
      · intro hu
        obtain ⟨e,he,rfl⟩ := List.mem_map.mp ((h'.near u).mpr ((near_append hut).mp hu).1)
        refine mem_tags ((hmem e).mpr (.inr ⟨he,Ne.symm hut,?_⟩))
        by_contra hk
        simp only [not_or,not_exists,not_and,not_lt] at hk
        exact h'.gone hw.apart he hk.1 hk.2.1 hk.2.2 hu
  · obtain rfl | ⟨hd,hdt,-⟩ := (hmem d).mp hd
    · obtain rfl | ⟨he,-,-⟩ := (hmem e).mp he
      · exact absurd hde (lt_irrefl _)
      · exact absurd (hw.past e he) (Nat.not_lt.mpr hde.le)
    · rw [since_ne (Ne.symm hdt)]
      obtain rfl | ⟨he,-,-⟩ := (hmem e).mp he
      · exact Finset.mem_insert_self _ _
      · exact Finset.mem_insert_of_mem (h'.order d hd e he hde)
  · rw [card_append]
    have hnear := h'.near t
    by_cases ht : t ∈ tags l
    · rw [Lru.access,if_pos ht,if_pos (hnear.mp ht).1,restamp,List.length_map,hlen,Nat.add_zero]
    · have hnew : t ∈ h → ways ≤ h.toFinset.card := fun hth => by
        have := card_since_lt_distinct hth
        by_contra hc
        exact ht (hnear.mpr ⟨hth,by omega⟩)
      by_cases hlt : l.length < ways
      · rw [Lru.access,if_neg ht,if_pos hlt,List.length_append,List.length_singleton]
        rw [if_neg fun hth => by have := hnew hth; omega]
        omega
      · rw [access_full (by omega)]
        omega

end Recalls

end Lru
