import Mathlib.Order.ConditionallyCompleteLattice.Basic
import Mathlib.Data.Int.ConditionallyCompleteOrder
import Mathlib.Data.List.MinMax
import Mathlib.Data.Set.Monotone

namespace Lru

structure Entry (α κ : Type) where
  tag : α
  mark : κ
deriving DecidableEq

inductive Outcome where
  | hit
  | fill
  | evict
deriving DecidableEq

variable {α : Type}

def tags {κ : Type} (l : List (Entry α κ)) : List α := l.map Entry.tag

-- one line retagged t and marked m, the others changed by g
def restamp {κ : Type} [DecidableEq α] (u t : α) (m : κ) (g : Entry α κ → Entry α κ)
    (l : List (Entry α κ)) : List (Entry α κ) :=
  l.map fun e => if e.tag = u then ⟨t,m⟩ else g e

-- a set of lines marked with the time of their last access
def access [DecidableEq α] (ways : Nat) (t : α) (now : Nat) (l : List (Entry α Nat)) :
    List (Entry α Nat) × Outcome :=
  if t ∈ tags l then (restamp t t now id l,.hit)
  else if l.length < ways then (l ++ [⟨t,now⟩],.fill)
  else
    match l.argmin Entry.mark with
    | none => (l,.evict)
    | some v => (restamp v.tag t now id l,.evict)

def older (e : Entry α Int) : Entry α Int := ⟨e.tag,e.mark + 1⟩

-- the same set with an age in place of the time: the line touched restarts at 1
noncomputable def accessAged [DecidableEq α] (ways : Nat) (t : α) (l : List (Entry α Int)) :
    List (Entry α Int) × Outcome :=
  if t ∈ tags l then (restamp t t 1 older l,.hit)
  else if l.length < ways then (l.map older ++ [⟨t,1⟩],.fill)
  else
    match l.argmax Entry.mark with
    | none => (l,.evict)
    | some v => (restamp v.tag t 1 older l,.evict)

def Apart {κ : Type} (l : List (Entry α κ)) : Prop :=
  l.Pairwise fun d e => d.tag ≠ e.tag ∧ d.mark ≠ e.mark

-- no two lines share a tag or a time, and every time has passed
structure WellMarked (now : Nat) (l : List (Entry α Nat)) : Prop where
  apart : Apart l
  past : ∀ e ∈ l, e.mark < now

section Apart

variable {κ : Type} {u t : α} {m : κ} {g : Entry α κ → Entry α κ} {l xs ys : List (Entry α κ)}
  {d e : Entry α κ}

theorem Apart.ne (h : Apart (xs ++ e :: ys)) (hd : d ∈ xs ++ ys) :
    d.tag ≠ e.tag ∧ d.mark ≠ e.mark := by
  obtain ⟨_,h2,h3⟩ := List.pairwise_append.mp h
  rcases List.mem_append.mp hd with hd | hd
  · exact h3 d hd e (by simp)
  · exact ((List.pairwise_cons.mp h2).1 d hd).imp Ne.symm Ne.symm

theorem Apart.eq_of_mark (h : Apart l) (hd : d ∈ l) (he : e ∈ l) (hm : d.mark = e.mark) : d = e := by
  obtain ⟨xs,ys,rfl⟩ := List.append_of_mem he
  by_contra hne
  refine (h.ne ?_).2 hm
  simpa [hne] using hd

variable [DecidableEq α]

theorem restamp_split (h : Apart (xs ++ e :: ys)) (t : α) (m : κ) (g : Entry α κ → Entry α κ) :
    restamp e.tag t m g (xs ++ e :: ys) = xs.map g ++ ⟨t,m⟩ :: ys.map g := by
  have hne (zs : List (Entry α κ)) (hz : ∀ d ∈ zs, d ∈ xs ++ ys) :
      restamp e.tag t m g zs = zs.map g :=
    List.map_congr_left fun d hd => if_neg (h.ne (hz d hd)).1
  rw [restamp,List.map_append,List.map_cons,if_pos rfl]
  exact congrArg₂ _ (hne xs fun d hd => by simp [hd])
    (congrArg _ (hne ys fun d hd => by simp [hd]))

end Apart

section WellMarked

variable {ways now : Nat} {t u : α} {l : List (Entry α Nat)} {e : Entry α Nat}

theorem WellMarked.nil : WellMarked now ([] : List (Entry α Nat)) := ⟨.nil,by simp⟩

theorem WellMarked.mono {later : Nat} (h : WellMarked now l) (hn : now ≤ later) :
    WellMarked later l :=
  ⟨h.apart,fun e he => (h.past e he).trans_le hn⟩

theorem WellMarked.fill (h : WellMarked now l) (ht : t ∉ tags l) :
    WellMarked (now + 1) (l ++ [⟨t,now⟩]) := by
  refine ⟨List.pairwise_append.mpr ⟨h.apart,List.pairwise_singleton _ _,fun d hd e he => ?_⟩,
    fun e he => ?_⟩
  · obtain rfl : e = ⟨t,now⟩ := by simpa using he
    have := h.past d hd
    exact ⟨fun hdt => ht (List.mem_map.mpr ⟨d,hd,hdt⟩),by simp only; omega⟩
  · rcases List.mem_append.mp he with he | he
    · exact (h.past e he).trans (Nat.lt_succ_self _)
    · obtain rfl : e = ⟨t,now⟩ := by simpa using he
      exact Nat.lt_succ_self _

variable [DecidableEq α]

theorem mem_restamp (he : e ∈ restamp u t now id l) : e ∈ l ∧ e.tag ≠ u ∨ e = ⟨t,now⟩ := by
  obtain ⟨d,hd,hde⟩ := List.mem_map.mp he
  split at hde
  · exact Or.inr hde.symm
  · subst hde
    exact Or.inl ⟨hd,by assumption⟩

theorem WellMarked.restamp (h : WellMarked now l) (ht : t = u ∨ t ∉ tags l) :
    WellMarked (now + 1) (restamp u t now id l) := by
  have hne (d : Entry α Nat) (hd : d ∈ l) (hdu : d.tag ≠ u) : t ≠ d.tag := by
    rcases ht with rfl | ht
    · exact hdu.symm
    · rintro rfl
      exact ht (List.mem_map_of_mem hd)
  refine ⟨List.pairwise_map.mpr (h.apart.imp_of_mem fun {d e} hd he hde => ?_),fun e he => ?_⟩
  · have hdp := h.past d hd
    have hep := h.past e he
    by_cases hdu : d.tag = u
    · have heu : e.tag ≠ u := fun heu => hde.1 (hdu.trans heu.symm)
      rw [if_pos hdu,if_neg heu]
      exact ⟨hne e he heu,fun hm => absurd hm (by simp only [id]; omega)⟩
    · rw [if_neg hdu]
      by_cases heu : e.tag = u
      · rw [if_pos heu]
        exact ⟨(hne d hd hdu).symm,fun hm => absurd hm (by simp only [id]; omega)⟩
      · rw [if_neg heu]
        exact hde
  · rcases mem_restamp he with ⟨he,_⟩ | rfl
    · exact (h.past e he).trans (Nat.lt_succ_self _)
    · exact Nat.lt_succ_self _

theorem access_wellMarked (h : WellMarked now l) :
    WellMarked (now + 1) (access ways t now l).1 := by
  rw [access]
  split
  · exact h.restamp (Or.inl rfl)
  · split
    · exact h.fill (by assumption)
    · split
      · exact h.mono (Nat.le_succ _)
      · exact h.restamp (Or.inr (by assumption))

theorem access_length (hw : l.length ≤ ways) : (access ways t now l).1.length ≤ ways := by
  rw [access]
  split
  · simpa [Lru.restamp] using hw
  · split
    · rw [List.length_append,List.length_singleton]
      assumption
    · split
      · exact hw
      · simpa [Lru.restamp] using hw

end WellMarked

-- ages that decrease as the time of last access grows
structure Ages (f : Nat → Int) (l : List (Entry α Nat)) (a : List (Entry α Int)) : Prop where
  eq : a = l.map fun e => ⟨e.tag,f e.mark⟩
  anti : StrictAntiOn f {m | ∃ e ∈ l, e.mark = m}
  pos : ∀ e ∈ l, 1 ≤ f e.mark

section Ages

variable {ways now : Nat} {t u : α} {f : Nat → Int} {l : List (Entry α Nat)}
  {a : List (Entry α Int)}

theorem Ages.nil (f : Nat → Int) : Ages f ([] : List (Entry α Nat)) [] :=
  ⟨rfl,fun _ ⟨_,he,_⟩ => absurd he (by simp),by simp⟩

theorem Ages.tags_eq (h : Ages f l a) : tags a = tags l := by
  rw [h.eq,tags,tags,List.map_map]
  rfl

theorem Ages.length_eq (h : Ages f l a) : a.length = l.length := by
  rw [h.eq,List.length_map]

theorem Ages.mem_iff (h : Ages f l a) {e : Entry α Int} :
    e ∈ a ↔ ∃ d ∈ l, (⟨d.tag,f d.mark⟩ : Entry α Int) = e := by
  rw [h.eq,List.mem_map]

theorem argmax_ages (hf : StrictAntiOn f {m | ∃ e ∈ l, e.mark = m}) :
    (l.map fun e => (⟨e.tag,f e.mark⟩ : Entry α Int)).argmax Entry.mark =
      (l.argmin Entry.mark).map fun e => ⟨e.tag,f e.mark⟩ := by
  induction l with
  | nil => rfl
  | cons d l ih =>
    rw [List.map_cons,List.argmax_cons,List.argmin_cons,ih (hf.mono ?_)]
    · cases hv : l.argmin Entry.mark with
      | none => rfl
      | some v =>
        have hlt : f d.mark < f v.mark ↔ v.mark < d.mark :=
          hf.lt_iff_gt ⟨d,by simp,rfl⟩ ⟨v,by simp [List.argmin_mem hv],rfl⟩
        simp only [Option.map_some,hlt]
        split <;> rfl
    · rintro m ⟨e,he,rfl⟩
      exact ⟨e,by simp [he],rfl⟩

theorem Ages.apart (h : Ages f l a) (hl : Apart l) : Apart a := by
  rw [h.eq,Apart,List.pairwise_map]
  refine hl.imp_of_mem fun {d e} hd he hde => ⟨hde.1,fun hm => hde.2 ?_⟩
  exact h.anti.injOn ⟨d,hd,rfl⟩ ⟨e,he,rfl⟩ hm

def aged (f : Nat → Int) (now m : Nat) : Int := if m = now then 1 else f m + 1

theorem aged_of_lt {m : Nat} (hm : m < now) : aged f now m = f m + 1 := if_neg hm.ne

theorem aged_now : aged f now now = 1 := if_pos rfl

theorem Ages.step {l' : List (Entry α Nat)} (h : Ages f l a) (hp : ∀ e ∈ l, e.mark < now)
    (hl : ∀ e ∈ l', e ∈ l ∨ e = ⟨t,now⟩) {a' : List (Entry α Int)}
    (ha : a' = l'.map fun e => ⟨e.tag,aged f now e.mark⟩) : Ages (aged f now) l' a' := by
  refine ⟨ha,?_,fun e he => ?_⟩
  · rintro _ ⟨d,hd,rfl⟩ _ ⟨e,he,rfl⟩ hde
    rcases hl d hd with hd | rfl
    · have hdp := hp d hd
      rcases hl e he with he | rfl
      · rw [aged_of_lt hdp,aged_of_lt (hp e he)]
        have := h.anti ⟨d,hd,rfl⟩ ⟨e,he,rfl⟩ hde
        omega
      · rw [aged_of_lt hdp,aged_now]
        have := h.pos d hd
        omega
    · rcases hl e he with he | rfl
      · exact absurd (hp e he) (Nat.not_lt.mpr hde.le)
      · exact absurd hde (lt_irrefl _)
  · rcases hl e he with he | rfl
    · rw [aged_of_lt (hp e he)]
      have := h.pos e he
      omega
    · rw [aged_now]

theorem Ages.fill (h : Ages f l a) (hp : ∀ e ∈ l, e.mark < now) :
    Ages (aged f now) (l ++ [⟨t,now⟩]) (a.map older ++ [⟨t,1⟩]) := by
  refine h.step (t := t) hp (fun e he => by simpa using he) ?_
  rw [h.eq,List.map_append,List.map_map,List.map_singleton,aged_now]
  congr 1
  refine List.map_congr_left fun e he => ?_
  rw [Function.comp_apply,older,aged_of_lt (hp e he)]

variable [DecidableEq α]

theorem Ages.restamp (h : Ages f l a) (hp : ∀ e ∈ l, e.mark < now) :
    Ages (aged f now) (restamp u t now id l) (restamp u t 1 older a) := by
  refine h.step (t := t) hp (fun e he => (mem_restamp he).imp And.left id) ?_
  rw [h.eq,Lru.restamp,Lru.restamp,List.map_map,List.map_map]
  refine List.map_congr_left fun e he => ?_
  simp only [Function.comp_apply,id]
  split
  · rw [aged_now]
  · rw [older,aged_of_lt (hp e he)]

theorem access_aged (hw : WellMarked now l) (h : Ages f l a) (hne : 0 < ways) :
    (accessAged ways t a).2 = (access ways t now l).2 ∧
      Ages (aged f now) (access ways t now l).1 (accessAged ways t a).1 := by
  rw [access,accessAged,h.tags_eq,h.length_eq]
  split
  · exact ⟨rfl,h.restamp hw.past⟩
  · split
    · exact ⟨rfl,h.fill hw.past⟩
    · have hv : a.argmax Entry.mark = (l.argmin Entry.mark).map fun e => ⟨e.tag,f e.mark⟩ := by
        rw [h.eq]
        exact argmax_ages h.anti
      rw [hv]
      cases hm : l.argmin Entry.mark with
      | none =>
        have : l = [] := List.argmin_eq_none.mp hm
        subst this
        simp_all
      | some v => exact ⟨rfl,h.restamp hw.past⟩

end Ages

-- ages from 1 on, and only the line touched last has age 1
structure Recent (last : Option α) (l : List (Entry α Int)) : Prop where
  apart : Apart l
  pos : ∀ e ∈ l, 1 ≤ e.mark
  newest : ∀ t, last = some t → ⟨t,1⟩ ∈ l

section Recent

variable {ways : Nat} {t : α} {l xs ys : List (Entry α Int)} {last : Option α}

theorem Recent.nil : Recent (none : Option α) [] :=
  ⟨.nil,fun _ he => absurd he List.not_mem_nil,fun _ h => nomatch h⟩

theorem Recent.touched (h : Recent last l) (hs : (xs ++ ys).Sublist l) (ht : t ∉ tags (xs ++ ys)) :
    Recent (some t) (xs.map older ++ ⟨t,1⟩ :: ys.map older) := by
  have hpos (e : Entry α Int) (he : e ∈ (xs ++ ys).map older) : 1 < e.mark ∧ e.tag ≠ t := by
    obtain ⟨d,hd,rfl⟩ := List.mem_map.mp he
    exact ⟨Int.lt_add_one_iff.mpr (h.pos d (hs.subset hd)),
      fun hdt => ht (List.mem_map.mpr ⟨d,hd,hdt⟩)⟩
  have hold : Apart ((xs ++ ys).map older) := by
    refine List.pairwise_map.mpr ((h.apart.sublist hs).imp fun {d e} hde => ⟨hde.1,fun hm => hde.2 ?_⟩)
    simp only [older] at hm
    omega
  have hperm : (xs.map older ++ ⟨t,1⟩ :: ys.map older).Perm (⟨t,1⟩ :: (xs ++ ys).map older) := by
    rw [List.map_append]
    exact List.perm_middle
  refine ⟨?_,fun e he => ?_,?_⟩
  · refine (hperm.pairwise_iff fun {d e} hde => ⟨hde.1.symm,hde.2.symm⟩).mpr
      (List.pairwise_cons.mpr ⟨fun e he => ⟨(hpos e he).2.symm,fun hm => ?_⟩,hold⟩)
    have := (hpos e he).1
    simp only at hm
    omega
  · rcases List.mem_cons.mp (hperm.mem_iff.mp he) with rfl | he
    · exact Int.le_refl 1
    · exact Int.le_of_lt (hpos e he).1
  · rintro _ ⟨⟩
    exact hperm.mem_iff.mpr List.mem_cons_self

variable [DecidableEq α]

theorem Recent.access (h : Recent last l) (hne : 0 < ways) (t : α) :
    Recent (some t) (accessAged ways t l).1 := by
  have hsplit (xs ys : List (Entry α Int)) (e : Entry α Int) : (xs ++ ys).Sublist (xs ++ e :: ys) :=
    (List.Sublist.refl xs).append (List.sublist_cons_self e ys)
  rw [accessAged]
  split
  · rename_i ht
    obtain ⟨e,he,rfl⟩ := List.mem_map.mp ht
    obtain ⟨xs,ys,rfl⟩ := List.append_of_mem he
    rw [restamp_split h.apart]
    refine h.touched (hsplit xs ys e) fun hm => ?_
    obtain ⟨d,hd,hde⟩ := List.mem_map.mp hm
    exact (h.apart.ne hd).1 hde
  · rename_i ht
    split
    · exact @Recent.touched _ t l l [] last h (by simp) (by simpa using ht)
    · rename_i hfull
      split
      · rename_i hv
        rw [List.argmax_eq_none.mp hv] at hfull
        exact absurd hne hfull
      · rename_i v hv
        obtain ⟨xs,ys,rfl⟩ := List.append_of_mem (List.argmax_mem hv)
        rw [restamp_split h.apart]
        refine h.touched (hsplit xs ys v) fun hm => ht ?_
        obtain ⟨d,hd,hde⟩ := List.mem_map.mp hm
        exact List.mem_map.mpr ⟨d,(hsplit xs ys v).subset hd,hde⟩

end Recent

end Lru
