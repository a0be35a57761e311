import Mathlib.Data.List.Basic
import Mathlib.Logic.Function.Basic

namespace Linked

structure Links (α : Type) where
  prev : α → Option α
  next : α → Option α
  head : Option α
  tail : Option α

variable {α : Type}

def Seg (L : Links α) : Option α → List α → Option α → Prop
  | _, [], _ => True
  | p, a :: l, n => L.prev a = p ∧ L.next a = l.head?.or n ∧ Seg L (some a) l n

structure Chain (L : Links α) (l : List α) : Prop where
  nodup : l.Nodup
  head : L.head = l.head?
  tail : L.tail = l.getLast?
  seg : Seg L none l none

theorem head?_append_or (xs ys : List α) (n : Option α) :
    (xs ++ ys).head?.or n = xs.head?.or (ys.head?.or n) := by
  cases xs <;> simp

theorem getLast?_middle (xs ys : List α) (a : α) :
    (xs ++ a :: ys).getLast? = ys.getLast?.or (some a) := by
  rw [List.getLast?_append,List.getLast?_cons]
  cases ys.getLast? <;> rfl

theorem ne_last {xs : List α} {c z : α} (hnd : xs.Nodup) (hc : c ∈ xs.dropLast)
    (hz : xs.getLast? = some z) : c ≠ z := by
  obtain ⟨zs,rfl⟩ := List.getLast?_eq_some_iff.mp hz
  rintro rfl
  rw [List.dropLast_concat] at hc
  exact (List.nodup_append.mp hnd).2.2 c hc c (by simp) rfl

theorem seg_append (L : Links α) (p n : Option α) (xs ys : List α) :
    Seg L p (xs ++ ys) n ↔
      Seg L p xs (ys.head?.or n) ∧ Seg L (xs.getLast?.or p) ys n := by
  induction xs generalizing p with
  | nil => simp [Seg]
  | cons a xs ih =>
    have hl : (a :: xs).getLast?.or p = xs.getLast?.or (some a) := by
      cases xs with
      | nil => simp
      | cons b xs => simp [List.getLast?_eq_some_getLast]
    simp only [List.cons_append,Seg,ih,head?_append_or,hl,and_assoc]

theorem seg_entry {L L' : Links α} {p p' n : Option α} {xs : List α} (h : Seg L p xs n)
    (hn : ∀ a ∈ xs, L'.next a = L.next a) (hp : ∀ a ∈ xs.tail, L'.prev a = L.prev a)
    (hh : ∀ z, xs.head? = some z → L'.prev z = p') : Seg L' p' xs n := by
  have tail_same (q : Option α) (ys : List α) (hs : Seg L q ys n)
      (hn' : ∀ a ∈ ys, L'.next a = L.next a) (hp' : ∀ a ∈ ys, L'.prev a = L.prev a) :
      Seg L' q ys n := by
    induction ys generalizing q with
    | nil => trivial
    | cons b ys ih =>
      obtain ⟨h1,h2,h3⟩ := hs
      refine ⟨(hp' b (by simp)).trans h1,(hn' b (by simp)).trans h2,ih _ h3 ?_ ?_⟩
      · exact fun a ha => hn' a (by simp [ha])
      · exact fun a ha => hp' a (by simp [ha])
  cases xs with
  | nil => trivial
  | cons a xs =>
    obtain ⟨_,h2,h3⟩ := h
    refine ⟨hh a rfl,(hn a (by simp)).trans h2,tail_same _ _ h3 ?_ hp⟩
    exact fun b hb => hn b (by simp [hb])

theorem seg_exit {L L' : Links α} {p n n' : Option α} {xs : List α} (h : Seg L p xs n)
    (hp : ∀ a ∈ xs, L'.prev a = L.prev a) (hn : ∀ a ∈ xs.dropLast, L'.next a = L.next a)
    (hl : ∀ z, xs.getLast? = some z → L'.next z = n') : Seg L' p xs n' := by
  induction xs generalizing p with
  | nil => trivial
  | cons a xs ih =>
    obtain ⟨h1,h2,h3⟩ := h
    refine ⟨(hp a (by simp)).trans h1,?_,ih h3 (fun b hb => hp b (by simp [hb])) ?_ ?_⟩
    · cases xs with
      | nil => simpa using hl a (by simp)
      | cons b xs => simpa using (hn a (by simp)).trans h2
    · intro b hb
      cases xs with
      | nil => simp at hb
      | cons c xs => exact hn b (by simp [hb])
    · intro z hz
      cases xs with
      | nil => simp at hz
      | cons c xs => exact hl z (by simpa using hz)

theorem seg_congr {L L' : Links α} {p n : Option α} {xs : List α} (h : Seg L p xs n)
    (hs : ∀ a ∈ xs, L'.prev a = L.prev a ∧ L'.next a = L.next a) : Seg L' p xs n :=
  seg_entry h (fun a ha => (hs a ha).2) (fun a ha => (hs a (List.mem_of_mem_tail ha)).1)
    (fun z hz => by
      cases xs with
      | nil => simp at hz
      | cons a xs =>
        obtain rfl : a = z := by simpa using hz
        exact ((hs a (by simp)).1).trans h.1)

namespace Chain

variable {L L' : Links α} {l xs ys : List α} {a b : α}

theorem split (h : Chain L (xs ++ a :: ys)) :
    L.prev a = xs.getLast? ∧ L.next a = ys.head? := by
  have hs := ((seg_append L none none xs (a :: ys)).mp h.seg).2
  exact ⟨by simpa using hs.1,by simpa using hs.2.1⟩

theorem congr (h : Chain L l) (hh : L'.head = L.head) (ht : L'.tail = L.tail)
    (hs : ∀ a ∈ l, L'.prev a = L.prev a ∧ L'.next a = L.next a) : Chain L' l :=
  ⟨h.nodup,hh.trans h.head,ht.trans h.tail,seg_congr h.seg hs⟩

theorem head_eq_none_iff (h : Chain L l) : L.head = none ↔ l = [] := by
  rw [h.head,List.head?_eq_none_iff]

theorem tail_eq_none_iff (h : Chain L l) : L.tail = none ↔ l = [] := by
  rw [h.tail,List.getLast?_eq_none_iff]

theorem next_prev (h : Chain L l) (ha : a ∈ l) (hb : L.next a = some b) :
    b ∈ l ∧ L.prev b = some a := by
  obtain ⟨xs,ys,rfl⟩ := List.append_of_mem ha
  have hn := (split h).2
  cases ys with
  | nil => simp [hn] at hb
  | cons c ys =>
    obtain rfl : c = b := by simpa [hn] using hb
    have h' : Chain L ((xs ++ [a]) ++ c :: ys) := by simpa using h
    exact ⟨by simp,by simpa using (split h').1⟩

theorem prev_next (h : Chain L l) (ha : a ∈ l) (hb : L.prev a = some b) :
    b ∈ l ∧ L.next b = some a := by
  obtain ⟨xs,ys,rfl⟩ := List.append_of_mem ha
  have hp := (split h).1
  rw [hb] at hp
  obtain ⟨zs,rfl⟩ := List.getLast?_eq_some_iff.mp hp.symm
  have h' : Chain L (zs ++ b :: a :: ys) := by simpa using h
  exact ⟨by simp,by simpa using (split h').2⟩

end Chain

variable [DecidableEq α]

def setNext (L : Links α) (o v : Option α) : Links α where
  prev := L.prev
  next := match o with
    | none => L.next
    | some q => Function.update L.next q v
  head := match o with
    | none => v
    | some _ => L.head
  tail := L.tail

def setPrev (L : Links α) (o v : Option α) : Links α where
  prev := match o with
    | none => L.prev
    | some q => Function.update L.prev q v
  next := L.next
  head := L.head
  tail := match o with
    | none => v
    | some _ => L.tail

def pushBack (L : Links α) (a : α) : Links α where
  prev := Function.update L.prev a L.tail
  next := Function.update (setNext L L.tail (some a)).next a none
  head := (setNext L L.tail (some a)).head
  tail := some a

def remove (L : Links α) (a : α) : Links α :=
  setPrev (setNext L (L.prev a) (L.next a)) (L.next a) (L.prev a)

def relocate (L : Links α) (a b : α) : Links α :=
  { L with prev := Function.update L.prev b (L.prev a), next := Function.update L.next b (L.next a) }

def replace (L : Links α) (a b : α) : Links α :=
  relocate (setPrev (setNext L (L.prev a) (some b)) (L.next a) (some b)) a b

section Relink

variable {L : Links α} {xs ys : List α} {o p n v w : Option α} {c : α}

theorem setNext_apart (h : ∀ z, o = some z → c ≠ z) : (setNext L o v).next c = L.next c := by
  cases o with
  | none => rfl
  | some z => exact Function.update_of_ne (h z rfl) _ _

theorem setPrev_apart (h : ∀ z, o = some z → c ≠ z) : (setPrev L o v).prev c = L.prev c := by
  cases o with
  | none => rfl
  | some z => exact Function.update_of_ne (h z rfl) _ _

theorem setNext_head (h : L.head = xs.head?.or w) :
    (setNext L xs.getLast? v).head = xs.head?.or v := by
  rcases List.eq_nil_or_concat xs with rfl | ⟨zs,z,rfl⟩
  · rfl
  · simp only [setNext,List.concat_eq_append,List.getLast?_concat,h]
    cases zs <;> rfl

theorem setPrev_tail (h : L.tail = ys.getLast?.or w) :
    (setPrev L ys.head? v).tail = ys.getLast?.or v := by
  cases ys with
  | nil => rfl
  | cons y ys => simpa [setPrev,List.getLast?_eq_some_getLast] using h

theorem seg_setNext (h : Seg L p xs n) (hnd : xs.Nodup) : Seg (setNext L xs.getLast? v) p xs v := by
  refine seg_exit h (fun _ _ => rfl) (fun c hc => ?_) (fun z hz => ?_)
  · exact setNext_apart fun z hz => ne_last hnd hc hz
  · rw [hz]
    exact Function.update_self _ _ _

theorem seg_setPrev (h : Seg L p ys n) (hnd : ys.Nodup) : Seg (setPrev L ys.head? v) v ys n := by
  refine seg_entry h (fun _ _ => rfl) (fun c hc => ?_) (fun z hz => ?_)
  · refine setPrev_apart fun z hz => ?_
    obtain ⟨zs,rfl⟩ := List.head?_eq_some_iff.mp hz
    rintro rfl
    exact (List.nodup_cons.mp hnd).1 hc
  · rw [hz]
    exact Function.update_self _ _ _

end Relink

namespace Chain

variable {L : Links α} {l xs ys : List α} {a b : α}

theorem pushBack (h : Chain L l) (ha : a ∉ l) : Chain (pushBack L a) (l ++ [a]) := by
  have hne (c : α) (hc : c ∈ l) : c ≠ a := fun e => ha (e ▸ hc)
  have hseg : Seg (setNext L l.getLast? (some a)) none l (some a) := seg_setNext h.seg h.nodup
  have hhead : (setNext L l.getLast? (some a)).head = l.head?.or (some a) :=
    setNext_head (by rw [h.head,Option.or_none])
  rw [← h.tail] at hseg hhead
  refine ⟨?_,?_,?_,?_⟩
  · simpa [List.nodup_append] using ⟨h.nodup,hne⟩
  · rw [List.head?_append]
    exact hhead
  · rw [List.getLast?_concat]
    rfl
  · rw [seg_append]
    refine ⟨seg_congr hseg fun c hc => ⟨?_,?_⟩,?_⟩
    · exact Function.update_of_ne (hne c hc) _ _
    · exact Function.update_of_ne (hne c hc) _ _
    · simp [Seg,Linked.pushBack,h.tail]

theorem relink (h : Chain L (xs ++ a :: ys)) (v v' : Option α) :
    let K := setPrev (setNext L (L.prev a) v) (L.next a) v'
    K.head = xs.head?.or v ∧ K.tail = ys.getLast?.or v' ∧ Seg K none xs v ∧ Seg K v' ys none ∧
      K.prev a = xs.getLast? ∧ K.next a = ys.head? := by
  obtain ⟨hp,hn⟩ := split h
  obtain ⟨hx,-,-,hy⟩ := (seg_append L none none xs (a :: ys)).mp h.seg
  obtain ⟨hxn,hyn,hdis⟩ := List.nodup_append.mp h.nodup
  obtain ⟨hay,hyn⟩ := List.nodup_cons.mp hyn
  have hlast (c : α) (hc : c ∈ a :: ys) (z : α) (hz : xs.getLast? = some z) : c ≠ z :=
    (hdis z (List.mem_of_getLast? hz) c hc).symm
  have hfirst (c : α) (hc : c ∉ ys) (z : α) (hz : ys.head? = some z) : c ≠ z :=
    fun e => hc (e ▸ List.mem_of_mem_head? hz)
  have hxy (c : α) (hc : c ∈ xs) : c ∉ ys :=
    fun hd => hdis c hc c (List.mem_cons_of_mem a hd) rfl
  rw [hp,hn]
  refine ⟨?_,?_,?_,?_,?_,?_⟩
  · refine setNext_head (w := some a) ?_
    rw [h.head,List.head?_append,List.head?_cons]
  · refine setPrev_tail (w := some a) ?_
    rw [← getLast?_middle]
    exact h.tail
  · refine seg_congr (seg_setNext hx hxn) fun c hc => ⟨?_,rfl⟩
    exact setPrev_apart (hfirst c (hxy c hc))
  · refine seg_setPrev (p := some a) (seg_congr hy fun c hc => ⟨rfl,?_⟩) hyn
    exact setNext_apart (hlast c (List.mem_cons_of_mem a hc))
  · exact (setPrev_apart (hfirst a hay)).trans hp
  · exact (setNext_apart (hlast a List.mem_cons_self)).trans hn

theorem remove (h : Chain L (xs ++ a :: ys)) : Chain (remove L a) (xs ++ ys) := by
  obtain ⟨hp,hn⟩ := split h
  obtain ⟨hhead,htail,hx,hy,-,-⟩ := relink h (L.next a) (L.prev a)
  refine ⟨?_,?_,?_,?_⟩
  · exact h.nodup.sublist ((List.sublist_cons_self a ys).append_left xs)
  · rw [List.head?_append,← hn]
    exact hhead
  · rw [List.getLast?_append,← hp]
    exact htail
  · rw [seg_append,← hn,← hp,Option.or_none,Option.or_none]
    exact ⟨hx,hy⟩

theorem replace (h : Chain L (xs ++ a :: ys)) (hb : b ∉ xs ++ ys) :
    Chain (replace L a b) (xs ++ b :: ys) := by
  obtain ⟨hhead,htail,hx,hy,hp,hn⟩ := relink h (some b) (some b)
  rw [List.mem_append,not_or] at hb
  have hbx (c : α) (hc : c ∈ xs) : c ≠ b := fun e => hb.1 (e ▸ hc)
  have hby (c : α) (hc : c ∈ ys) : c ≠ b := fun e => hb.2 (e ▸ hc)
  refine ⟨?_,?_,?_,?_⟩
  · have hnd : (xs ++ ys).Nodup := h.nodup.sublist ((List.sublist_cons_self a ys).append_left xs)
    refine List.perm_middle.nodup_iff.mpr (List.nodup_cons.mpr ⟨?_,hnd⟩)
    rw [List.mem_append,not_or]
    exact hb
  · rw [List.head?_append,List.head?_cons]
    exact hhead
  · rw [getLast?_middle]
    exact htail
  · rw [seg_append]
    refine ⟨seg_congr hx fun c hc => ⟨?_,?_⟩,?_,?_,seg_congr hy fun c hc => ⟨?_,?_⟩⟩
    · exact Function.update_of_ne (hbx c hc) _ _
    · exact Function.update_of_ne (hbx c hc) _ _
    · rw [Option.or_none,← hp]
      exact Function.update_self _ _ _
    · rw [Option.or_none,← hn]
      exact Function.update_self _ _ _
    · exact Function.update_of_ne (hby c hc) _ _
    · exact Function.update_of_ne (hby c hc) _ _

end Chain

end Linked
