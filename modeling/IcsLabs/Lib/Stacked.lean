import IcsLabs.Lib.Lru
import Mathlib.Data.List.Perm.Subperm

namespace Lru

variable {α : Type}

-- a set of lines inside a larger one: what it lacks is older than all it has, and then it is full
structure Stacked (ways : Nat) (l l' : List (Entry α Nat)) : Prop where
  room : l.length ≤ ways
  sub : ∀ e ∈ l, e ∈ l'
  older : ∀ e ∈ l', e ∉ l → l.length = ways ∧ ∀ d ∈ l, e.mark < d.mark

section Access

variable {κ : Type} {l : List (Entry α κ)} {e : Entry α κ}

theorem Apart.eq_of_tag (h : Apart l) {d : Entry α κ} (hd : d ∈ l) (he : e ∈ l)
    (ht : d.tag = e.tag) : d = e := by
  obtain ⟨xs,ys,rfl⟩ := List.append_of_mem he
  by_contra hne
  refine (h.ne ?_).1 ht
  simpa [hne] using hd

theorem mem_tags (he : e ∈ l) : e.tag ∈ tags l := List.mem_map_of_mem he

theorem Apart.nodup (h : Apart l) : l.Nodup :=
  h.imp fun hde heq => hde.1 (congrArg Entry.tag heq)

end Access

section Mem

variable [DecidableEq α] {ways now : Nat} {t u : α} {l : List (Entry α Nat)} {e : Entry α Nat}

theorem mem_restamp_iff (hu : u ∈ tags l) :
    e ∈ restamp u t now id l ↔ e = ⟨t,now⟩ ∨ e ∈ l ∧ e.tag ≠ u := by
  constructor
  · intro he
    exact (mem_restamp he).symm
  · rintro (rfl | ⟨he,heu⟩)
    · obtain ⟨d,hd,hdu⟩ := List.mem_map.mp hu
      exact List.mem_map.mpr ⟨d,hd,if_pos hdu⟩
    · exact List.mem_map.mpr ⟨e,he,if_neg heu⟩

theorem mem_access_iff (hw : WellMarked now l) (h0 : 0 < ways) :
    e ∈ (access ways t now l).1 ↔ e = ⟨t,now⟩ ∨ e ∈ l ∧ e.tag ≠ t ∧
      (t ∈ tags l ∨ l.length < ways ∨ ∃ d ∈ l, d.mark < e.mark) := by
  have hne (ht : t ∉ tags l) (he : e ∈ l) : e.tag ≠ t := fun h => ht (h ▸ mem_tags he)
  rw [access]
  split_ifs with ht hlt
  · simp only [mem_restamp_iff ht,ht,true_or,and_true]
  · simp only [List.mem_append,List.mem_singleton,hlt,true_or,or_true,and_true]
    rw [or_comm]
    exact or_congr_right ⟨fun he => ⟨he,hne ht he⟩,And.left⟩
  · cases hv : l.argmin Entry.mark with
    | none =>
      rw [List.argmin_eq_none.mp hv] at hlt
      exact absurd h0 hlt
    | some v =>
      have hvm : v ∈ l := List.argmin_mem hv
      simp only [mem_restamp_iff (mem_tags hvm)]
      refine or_congr_right (and_congr_right fun he => ?_)
      constructor
      · intro hev
        have hle : v.mark ≤ e.mark := List.le_of_mem_argmin he hv
        have hmark : v.mark ≠ e.mark := fun h =>
          hev (congrArg Entry.tag (hw.apart.eq_of_mark hvm he h).symm)
        exact ⟨hne ht he,Or.inr (Or.inr ⟨v,hvm,by omega⟩)⟩
      · rintro ⟨_,h | h | ⟨d,hd,hde⟩⟩ hev
        · exact ht h
        · exact hlt h
        · have hle : v.mark ≤ d.mark := List.le_of_mem_argmin hd hv
          have := hw.apart.eq_of_tag he hvm hev
          subst this
          omega

theorem access_full (hl : l.length = ways) : (access ways t now l).1.length = ways := by
  rw [access]
  split_ifs with _ hlt
  · simpa [restamp] using hl
  · omega
  · split
    · exact hl
    · simpa [restamp] using hl

theorem access_hit : (access ways t now l).2 = .hit ↔ t ∈ tags l := by
  rw [access]
  split_ifs with ht hlt
  · simp [ht]
  · simp [ht]
  · split <;> simp [ht]

theorem access_evict : (access ways t now l).2 = .evict ↔ t ∉ tags l ∧ ways ≤ l.length := by
  rw [access]
  split_ifs with ht hlt
  · simp [ht]
  · simp [ht,hlt]
  · split <;> simp [ht,not_lt.mp hlt]

end Mem

section Stacked

variable {ways ways' now : Nat} {t : α} {l l' : List (Entry α Nat)}

theorem Stacked.nil : Stacked ways ([] : List (Entry α Nat)) [] :=
  ⟨Nat.zero_le _,fun _ he => he,fun _ he => absurd he List.not_mem_nil⟩

theorem Stacked.tags (h : Stacked ways l l') (ht : t ∈ tags l) : t ∈ Lru.tags l' := by
  obtain ⟨e,he,rfl⟩ := List.mem_map.mp ht
  exact mem_tags (h.sub e he)

theorem Stacked.length_eq (h : Stacked ways l l') (hw : Apart l) (hw' : Apart l')
    (hlt : l.length < ways) : l'.length = l.length := by
  have hsub : ∀ e ∈ l', e ∈ l := fun e he => by
    by_contra hne
    have := (h.older e he hne).1
    omega
  exact Nat.le_antisymm (hw'.nodup.subperm hsub).length_le (hw.nodup.subperm h.sub).length_le

variable [DecidableEq α]

theorem Stacked.hit (h : Stacked ways l l') (ho : (Lru.access ways t now l).2 = .hit) :
    (Lru.access ways' t now l').2 = .hit :=
  access_hit.mpr (h.tags (access_hit.mp ho))

theorem Stacked.evict (h : Stacked ways l l') (hw : Apart l) (hw' : Apart l') (hle : ways ≤ ways')
    (ho : (Lru.access ways' t now l').2 = .evict) : (Lru.access ways t now l).2 = .evict := by
  obtain ⟨ht,hfull⟩ := access_evict.mp ho
  refine access_evict.mpr ⟨fun hm => ht (h.tags hm),?_⟩
  by_contra hlt
  have := h.length_eq hw hw' (not_le.mp hlt)
  omega

theorem Stacked.access (h : Stacked ways l l') (hw : WellMarked now l) (hw' : WellMarked now l')
    (h0 : 0 < ways) (hle : ways ≤ ways') :
    Stacked ways (Lru.access ways t now l).1 (Lru.access ways' t now l').1 := by
  have mem (e : Entry α Nat) := mem_access_iff (t := t) (e := e) hw h0
  have mem' (e : Entry α Nat) := mem_access_iff (t := t) (e := e) hw' (h0.trans_le hle)
  refine ⟨access_length h.room,fun e he => ?_,fun e he hne => ?_⟩
  · rw [mem] at he
    rw [mem']
    refine he.imp_right fun ⟨he,het,hk⟩ => ⟨h.sub e he,het,?_⟩
    rcases hk with hk | hk | ⟨d,hd,hde⟩
    · exact Or.inl (h.tags hk)
    · have := h.length_eq hw.apart hw'.apart hk
      exact Or.inr (Or.inl (by omega))
    · exact Or.inr (Or.inr ⟨d,h.sub d hd,hde⟩)
  · rw [mem,not_or] at hne
    obtain ⟨hnew,hgone⟩ := hne
    obtain ⟨he,het,-⟩ := ((mem' e).mp he).resolve_left hnew
    have hpast := hw'.past e he
    by_cases hel : e ∈ l
    · -- the line the smaller set evicts is its oldest
      have hout := fun hk => hgone ⟨hel,het,hk⟩
      obtain ⟨ht,hfull,hmin⟩ : t ∉ Lru.tags l ∧ ways ≤ l.length ∧ ∀ d ∈ l, e.mark ≤ d.mark := by
        refine ⟨fun hk => hout (Or.inl hk),?_,fun d hd => ?_⟩
        · by_contra hk
          exact hout (Or.inr (Or.inl (not_le.mp hk)))
        · by_contra hk
          exact hout (Or.inr (Or.inr ⟨d,hd,not_le.mp hk⟩))
      refine ⟨access_full (le_antisymm h.room hfull),fun d hd => ?_⟩
      rcases (mem d).mp hd with rfl | ⟨_,_,hk | hk | ⟨d',hd',hdd⟩⟩
      · exact hpast
      · exact absurd hk ht
      · omega
      · exact (hmin d' hd').trans_lt hdd
    · obtain ⟨hfull,hold⟩ := h.older e he hel
      refine ⟨access_full hfull,fun d hd => ?_⟩
      rcases (mem d).mp hd with rfl | ⟨hd,_⟩
      · exact hpast
      · exact hold d hd

end Stacked

end Lru
