import IcsLabs.Lib.Stacked

namespace Lru

variable {α : Type} {f : Nat → Int} {g : Nat → Nat} {l : List (Entry α Nat)}
  {a : List (Entry α Int)} {ways now : Nat} {t : α} {e : Entry α Nat}

def remark (g : Nat → Nat) (e : Entry α Nat) : Entry α Nat := ⟨e.tag,g e.mark⟩

-- ages see the order of the times only
theorem Ages.remark (h : Ages f (l.map (remark g)) a)
    (hg : StrictMonoOn g {m | ∃ e ∈ l, e.mark = m}) : Ages (f ∘ g) l a := by
  have hmem {e : Entry α Nat} (he : e ∈ l) : Lru.remark g e ∈ l.map (Lru.remark g) :=
    List.mem_map_of_mem he
  refine ⟨by rw [h.eq,List.map_map]; rfl,?_,fun e he => h.pos _ (hmem he)⟩
  rintro _ ⟨d,hd,rfl⟩ _ ⟨e,he,rfl⟩ hde
  exact h.anti ⟨_,hmem hd,rfl⟩ ⟨_,hmem he,rfl⟩ (hg ⟨d,hd,rfl⟩ ⟨e,he,rfl⟩ hde)

def later (now m : Nat) : Nat := if m = now then now + 1 else m

theorem later_strictMonoOn (hl : ∀ e ∈ l, e.mark ≤ now) :
    StrictMonoOn (later now) {m | ∃ e ∈ l, e.mark = m} := by
  rintro _ ⟨d,hd,rfl⟩ _ ⟨e,he,rfl⟩ hde
  have := hl e he
  rw [later,later]
  split_ifs <;> omega

variable [DecidableEq α]

theorem access_latest (hw : WellMarked now l) (h0 : 0 < ways) (he : e ∈ (access ways t now l).1) :
    e.mark ≤ now ∧ (e.tag = t ↔ e.mark = now) := by
  rcases (mem_access_iff hw h0).mp he with rfl | ⟨hel,ht,-⟩
  · exact ⟨le_rfl,iff_of_true rfl rfl⟩
  · have := hw.past e hel
    exact ⟨this.le,iff_of_false ht this.ne⟩

theorem access_again (hw : WellMarked now l) (h0 : 0 < ways) :
    access ways t (now + 1) (access ways t now l).1 =
      ((access ways t now l).1.map (remark (later now)),.hit) := by
  have ht : t ∈ tags (access ways t now l).1 := mem_tags ((mem_access_iff hw h0).mpr (.inl rfl))
  rw [access,if_pos ht,restamp]
  refine congrArg₂ _ (List.map_congr_left fun e he => ?_) rfl
  obtain ⟨-,hiff⟩ := access_latest hw h0 he
  by_cases htag : e.tag = t
  · rw [if_pos htag,remark,later,if_pos (hiff.mp htag),htag]
  · rw [if_neg htag,remark,later,if_neg (mt hiff.mpr htag)]
    rfl

end Lru
