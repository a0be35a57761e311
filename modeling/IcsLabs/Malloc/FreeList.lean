import IcsLabs.Lib.Links
import IcsLabs.Malloc.Mm

namespace Malloc
open Bytes Linked

structure SameFrame (h h' : Heap) : Prop where
  storage : h'.storage = h.storage
  memBrk : h'.memBrk = h.memBrk
  heapListp : h'.heapListp = h.heapListp

theorem SameFrame.trans {h h' h'' : Heap} (a : SameFrame h h') (b : SameFrame h' h'') :
    SameFrame h h'' :=
  ⟨b.storage.trans a.storage,b.memBrk.trans a.memBrk,b.heapListp.trans a.heapListp⟩

structure LinkEdit (h h' : Heap) (ps : List Nat) : Prop where
  frame : SameFrame h h'
  mem : ∀ x, h'.mem x ≠ h.mem x → ∃ p ∈ ps, p ≤ x ∧ x < p + 8

def link (h : Heap) (index : Nat) : Option Nat :=
  if index = 0 then none else some (selfAddr h index)

def ptr (p : Nat) : Option Nat := if p = 0 then none else some p

def links (h : Heap) : Links Nat where
  prev p := link h (prevFreeIndex h p)
  next p := link h (nextFreeIndex h p)
  head := ptr h.hdFree
  tail := ptr h.ftFree

structure Node (h : Heap) (p : Nat) : Prop where
  aligned : p % 8 = 0
  above : h.heapListp < p
  index : p < h.heapListp + 2 ^ 32
  fits : p < 2 ^ 64

structure FreeChain (h : Heap) (fl : List Nat) : Prop where
  listp : 0 < h.heapListp
  chain : Chain (links h) fl
  node : ∀ p ∈ fl, Node h p

@[simp] theorem link_put (h : Heap) (p v i : Nat) : link (h.put p v) i = link h i := rfl

@[simp] theorem link_memcpy (h : Heap) (p q n i : Nat) : link (h.memcpy p q n) i = link h i := rfl

@[simp] theorem ptr_eq_none {p : Nat} : ptr p = none ↔ p = 0 := by simp [ptr]

@[simp] theorem ptr_eq_some {p q : Nat} : ptr p = some q ↔ p = q ∧ q ≠ 0 := by
  simp only [ptr]
  split <;> simp <;> omega

theorem nextFreeBlock_eq (h : Heap) (p : Nat) :
    nextFreeBlock h p = ((links h).next p).getD 0 := by
  simp only [nextFreeBlock,links,link]
  split <;> rfl

theorem prevFreeBlock_eq (h : Heap) (p : Nat) :
    prevFreeBlock h p = ((links h).prev p).getD 0 := by
  simp only [prevFreeBlock,links,link]
  split <;> rfl

section LinkWords

variable {h : Heap} {p q r v : Nat}

theorem next_put_next (hq : q % 8 = 0) (hr : r % 8 = 0) (hv : v < 2 ^ 32) :
    nextFreeIndex (h.put (nextFree q) v) r = if r = q then v else nextFreeIndex h r := by
  split
  · subst r
    rw [nextFreeIndex,get_put_same,Nat.mod_eq_of_lt hv]
  · exact get_put_apart (by simp only [nextFree,wsize]; omega)

theorem prev_put_next (hq : q % 8 = 0) (hr : r % 8 = 0) :
    prevFreeIndex (h.put (nextFree q) v) r = prevFreeIndex h r :=
  get_put_apart (by simp only [nextFree,prevFree,wsize]; omega)

theorem prev_put_prev (hq : q % 8 = 0) (hr : r % 8 = 0) (hv : v < 2 ^ 32) :
    prevFreeIndex (h.put (prevFree q) v) r = if r = q then v else prevFreeIndex h r := by
  split
  · subst r
    rw [prevFreeIndex,get_put_same,Nat.mod_eq_of_lt hv]
  · exact get_put_apart (by simp only [prevFree]; omega)

theorem next_put_prev (hq : q % 8 = 0) (hr : r % 8 = 0) :
    nextFreeIndex (h.put (prevFree q) v) r = nextFreeIndex h r :=
  get_put_apart (by simp only [nextFree,prevFree,wsize]; omega)

theorem next_memcpy (hq : q % 8 = 0) (hr : r % 8 = 0) :
    nextFreeIndex (h.memcpy q p dsize) r = if r = q then nextFreeIndex h p else nextFreeIndex h r := by
  split
  · subst r
    exact readLE_copy_same (i := 4) (by simp [dsize])
  · exact readLE_copy_disjoint (by simp only [nextFree,wsize,dsize]; omega)

theorem prev_memcpy (hq : q % 8 = 0) (hr : r % 8 = 0) :
    prevFreeIndex (h.memcpy q p dsize) r = if r = q then prevFreeIndex h p else prevFreeIndex h r := by
  split
  · subst r
    exact readLE_copy_same (i := 0) (by simp [dsize])
  · exact readLE_copy_disjoint (by simp only [prevFree,dsize]; omega)

theorem selfIndex_eq (hp : Node h p) : selfIndex h p = p - h.heapListp :=
  subSizeT_eq hp.above.le hp.fits

theorem selfIndex_lt (hp : Node h p) : selfIndex h p < 2 ^ 32 := by
  have := hp.index
  have := hp.above
  rw [selfIndex_eq hp]
  omega

theorem link_selfIndex (hp : Node h p) : link h (selfIndex h p) = some p := by
  have := hp.above
  rw [selfIndex_eq hp,link,if_neg (by omega),selfAddr]
  congr 1
  omega

theorem prevFreeIndex_lt : prevFreeIndex h p < 2 ^ 32 := get_lt
theorem nextFreeIndex_lt : nextFreeIndex h p < 2 ^ 32 := get_lt

end LinkWords

theorem of_link {h : Heap} {i q : Nat} (hq : link h i = some q) : i ≠ 0 ∧ selfAddr h i = q := by
  simp only [link] at hq
  split at hq
  · simp at hq
  · exact ⟨by assumption,by simpa using hq⟩

section Pointers

variable (h : Heap) (p : Nat)

theorem link_next : link h (nextFreeIndex h p) = ptr (nextFreeBlock h p) := by
  simp only [link,ptr,nextFreeBlock,selfAddr]
  by_cases h0 : nextFreeIndex h p = 0 <;> simp [h0]

theorem link_prev : link h (prevFreeIndex h p) = ptr (prevFreeBlock h p) := by
  simp only [link,ptr,prevFreeBlock,selfAddr]
  by_cases h0 : prevFreeIndex h p = 0 <;> simp [h0]

theorem links_next : (links h).next p = link h (nextFreeIndex h p) := by
  rw [links]

theorem links_prev : (links h).prev p = link h (prevFreeIndex h p) := by
  rw [links]

theorem ptr_nextFreeBlock : ptr (nextFreeBlock h p) = (links h).next p := by
  rw [links_next,link_next]

theorem ptr_prevFreeBlock : ptr (prevFreeBlock h p) = (links h).prev p := by
  rw [links_prev,link_prev]

end Pointers

def putNextOf (o : Option Nat) (v d : Nat) (h : Heap) : Heap :=
  match o with
  | none => { h with hdFree := d }
  | some q => h.put (nextFree q) v

def putPrevOf (o : Option Nat) (v t : Nat) (h : Heap) : Heap :=
  match o with
  | none => { h with ftFree := t }
  | some q => h.put (prevFree q) v

theorem prev_putNextOf {h : Heap} {o : Option Nat} {v d r : Nat}
    (ho : ∀ q, o = some q → q % 8 = 0) (hr : r % 8 = 0) :
    prevFreeIndex (putNextOf o v d h) r = prevFreeIndex h r := by
  cases o with
  | none => rfl
  | some q => exact prev_put_next (ho q rfl) hr

theorem next_putNextOf {h : Heap} {o : Option Nat} {v d r : Nat}
    (ho : ∀ q, o = some q → q % 8 = 0) (hr : r % 8 = 0) (hne : o ≠ some r) :
    nextFreeIndex (putNextOf o v d h) r = nextFreeIndex h r := by
  cases o with
  | none => rfl
  | some q =>
    refine get_put_apart ?_
    have hqr : q ≠ r := fun e => hne (by rw [e])
    have := ho q rfl
    simp only [nextFree,wsize]
    omega

theorem link_putNextOf (h : Heap) (o : Option Nat) (v d i : Nat) :
    link (putNextOf o v d h) i = link h i := by
  cases o <;> rfl

theorem ftFree_putNextOf (h : Heap) (o : Option Nat) (v d : Nat) :
    (putNextOf o v d h).ftFree = h.ftFree := by
  cases o <;> rfl

theorem selfIndex_putNextOf (h : Heap) (o : Option Nat) (v d p : Nat) :
    selfIndex (putNextOf o v d h) p = selfIndex h p := by
  cases o <;> rfl

theorem selfAddr_putNextOf (h : Heap) (o : Option Nat) (v d i : Nat) :
    selfAddr (putNextOf o v d h) i = selfAddr h i := by
  cases o <;> rfl

namespace LinkEdit

variable {h h' h'' : Heap} {ps : List Nat}

theorem link (e : LinkEdit h h' ps) (i : Nat) : Malloc.link h' i = Malloc.link h i := by
  simp only [Malloc.link,selfAddr,e.frame.heapListp]

theorem trans (e : LinkEdit h h' ps) (e' : LinkEdit h' h'' ps) : LinkEdit h h'' ps := by
  refine ⟨e.frame.trans e'.frame,fun x hx => ?_⟩
  by_cases hx' : h'.mem x = h.mem x
  · exact e'.mem x (hx' ▸ hx)
  · exact e.mem x hx'

theorem of_mem (e : LinkEdit h h' ps) (hf : SameFrame h' h'') (hm : h''.mem = h'.mem) :
    LinkEdit h h'' ps :=
  ⟨e.frame.trans hf,fun x hx => e.mem x (hm ▸ hx)⟩

end LinkEdit

section Edits

variable {h : Heap} {ps : List Nat} {p q v : Nat} {o : Option Nat}

theorem linkEdit_nextFree (hp : p ∈ ps) : LinkEdit h (h.put (nextFree p) v) ps := by
  refine ⟨⟨rfl,rfl,rfl⟩,fun x hx => ⟨p,hp,?_⟩⟩
  by_contra hc
  exact hx (put_mem_apart (by simp only [nextFree,wsize]; omega))

theorem linkEdit_prevFree (hp : p ∈ ps) : LinkEdit h (h.put (prevFree p) v) ps := by
  refine ⟨⟨rfl,rfl,rfl⟩,fun x hx => ⟨p,hp,?_⟩⟩
  by_contra hc
  exact hx (put_mem_apart (by simp only [prevFree]; omega))

theorem linkEdit_memcpy (hp : p ∈ ps) : LinkEdit h (h.memcpy p q dsize) ps := by
  refine ⟨⟨rfl,rfl,rfl⟩,fun x hx => ⟨p,hp,?_⟩⟩
  by_contra hc
  exact hx (copy_outside (by simp only [dsize]; omega))

theorem linkEdit_putNextOf {d : Nat} (ho : ∀ q, o = some q → q ∈ ps) :
    LinkEdit h (putNextOf o v d h) ps := by
  cases o with
  | none => exact ⟨⟨rfl,rfl,rfl⟩,fun x hx => absurd rfl hx⟩
  | some q => exact linkEdit_nextFree (ho q rfl)

theorem linkEdit_putPrevOf {t : Nat} (ho : ∀ q, o = some q → q ∈ ps) :
    LinkEdit h (putPrevOf o v t h) ps := by
  cases o with
  | none => exact ⟨⟨rfl,rfl,rfl⟩,fun x hx => absurd rfl hx⟩
  | some q => exact linkEdit_prevFree (ho q rfl)

end Edits

-- only addresses of blocks matter, and these are multiples of 8
structure LinksAs (h : Heap) (K : Links Nat) : Prop where
  head : ptr h.hdFree = K.head
  tail : ptr h.ftFree = K.tail
  prev : ∀ p, p % 8 = 0 → (links h).prev p = K.prev p
  next : ∀ p, p % 8 = 0 → (links h).next p = K.next p

namespace LinksAs

variable {h : Heap} {K : Links Nat} {o : Option Nat} {v d t p q : Nat}

theorem refl (h : Heap) : LinksAs h (links h) := ⟨rfl,rfl,fun _ _ => rfl,fun _ _ => rfl⟩

theorem putNextOf (hK : LinksAs h K) (ho : ∀ q, o = some q → q % 8 = 0) (hv : v < 2 ^ 32)
    (hw : link h v = ptr d) : LinksAs (putNextOf o v d h) (setNext K o (ptr d)) := by
  cases o with
  | none => exact ⟨rfl,hK.tail,hK.prev,hK.next⟩
  | some q =>
    refine ⟨hK.head,hK.tail,fun r hr => ?_,fun r hr => ?_⟩
    · simp only [Malloc.putNextOf,links,link_put,prev_put_next (ho q rfl) hr]
      exact (links_prev h r).symm.trans (hK.prev r hr)
    · simp only [Malloc.putNextOf,links,link_put,next_put_next (ho q rfl) hr hv,setNext,Function.update_apply]
      split
      · exact hw
      · exact (links_next h r).symm.trans (hK.next r hr)

theorem putPrevOf (hK : LinksAs h K) (ho : ∀ q, o = some q → q % 8 = 0) (hv : v < 2 ^ 32)
    (hw : link h v = ptr t) : LinksAs (putPrevOf o v t h) (setPrev K o (ptr t)) := by
  cases o with
  | none => exact ⟨hK.head,rfl,hK.prev,hK.next⟩
  | some q =>
    refine ⟨hK.head,hK.tail,fun r hr => ?_,fun r hr => ?_⟩
    · simp only [Malloc.putPrevOf,links,link_put,prev_put_prev (ho q rfl) hr hv,setPrev,Function.update_apply]
      split
      · exact hw
      · exact (links_prev h r).symm.trans (hK.prev r hr)
    · simp only [Malloc.putPrevOf,links,link_put,next_put_prev (ho q rfl) hr]
      exact (links_next h r).symm.trans (hK.next r hr)

theorem memcpy (hK : LinksAs h K) (hp : p % 8 = 0) (hq : q % 8 = 0) :
    LinksAs (h.memcpy q p dsize) (relocate K p q) := by
  refine ⟨hK.head,hK.tail,fun r hr => ?_,fun r hr => ?_⟩
  · simp only [links,link_memcpy,prev_memcpy hq hr,relocate,Function.update_apply]
    split
    · exact (links_prev h p).symm.trans (hK.prev p hp)
    · exact (links_prev h r).symm.trans (hK.prev r hr)
  · simp only [links,link_memcpy,next_memcpy hq hr,relocate,Function.update_apply]
    split
    · exact (links_next h p).symm.trans (hK.next p hp)
    · exact (links_next h r).symm.trans (hK.next r hr)

end LinksAs

theorem Node.ne_zero (hp : Node h p) : p ≠ 0 := by
  have := hp.above
  omega

namespace FreeChain

variable {h h' : Heap} {fl xs ys : List Nat} {p q : Nat}

theorem congr (hc : FreeChain h fl) (hf : SameFrame h h') (hhd : h'.hdFree = h.hdFree)
    (hft : h'.ftFree = h.ftFree)
    (hm : ∀ p ∈ fl, ∀ x, p ≤ x → x < p + 8 → h'.mem x = h.mem x) : FreeChain h' fl := by
  have hlp := hf.heapListp
  refine ⟨hlp ▸ hc.listp,hc.chain.congr (by simp [links,hhd]) (by simp [links,hft]) ?_,?_⟩
  · intro p hp
    have hprev : prevFreeIndex h' p = prevFreeIndex h p :=
      get_congr fun x hx hx' => hm p hp x hx (by simp only [prevFree] at hx'; omega)
    have hnext : nextFreeIndex h' p = nextFreeIndex h p :=
      get_congr fun x hx hx' => hm p hp x (by simp only [nextFree,wsize] at hx; omega)
        (by simp only [nextFree,wsize] at hx'; omega)
    simp only [links,hprev,hnext,link,selfAddr,hlp,and_self]
  · intro p hp
    obtain ⟨h1,h2,h3,h4⟩ := hc.node p hp
    exact ⟨h1,hlp ▸ h2,hlp ▸ h3,h4⟩

theorem hdFree_eq_zero (hc : FreeChain h fl) : h.hdFree = 0 ↔ fl = [] := by
  rw [← hc.chain.head_eq_none_iff]
  simp [links]

theorem ftFree_eq_zero (hc : FreeChain h fl) : h.ftFree = 0 ↔ fl = [] := by
  rw [← hc.chain.tail_eq_none_iff]
  simp [links]

theorem ftFree_mem (hc : FreeChain h fl) (hne : fl ≠ []) : h.ftFree ∈ fl := by
  have ht : ptr h.ftFree = fl.getLast? := hc.chain.tail
  have h0 : h.ftFree ≠ 0 := fun e => hne (hc.ftFree_eq_zero.mp e)
  rw [ptr,if_neg h0] at ht
  exact List.mem_of_getLast? ht.symm

theorem hdFree_iff (hc : FreeChain h (xs ++ p :: ys)) :
    h.hdFree = p ↔ (links h).prev p = none := by
  have hh : ptr h.hdFree = (xs ++ p :: ys).head? := hc.chain.head
  have hp := (hc.node p (by simp)).above
  rw [hc.chain.split.1,List.getLast?_eq_none_iff]
  constructor
  · intro he
    cases xs with
    | nil => rfl
    | cons x xs =>
      have hx : x = p := by simpa [ptr,he,show p ≠ 0 by omega] using hh.symm
      have := hc.chain.nodup
      simp [hx] at this
  · rintro rfl
    simpa using (ptr_eq_some.mp (hh.trans rfl)).1

theorem ftFree_iff (hc : FreeChain h (xs ++ p :: ys)) :
    h.ftFree = p ↔ (links h).next p = none := by
  have ht : ptr h.ftFree = (xs ++ p :: ys).getLast? := hc.chain.tail
  have hp := (hc.node p (by simp)).above
  rw [hc.chain.split.2,List.head?_eq_none_iff]
  constructor
  · intro he
    rcases List.eq_nil_or_concat ys with rfl | ⟨zs,y,rfl⟩
    · rfl
    · rw [List.concat_eq_append,← List.cons_append,← List.append_assoc,List.getLast?_concat] at ht
      have hy : p = y := by simpa [ptr,he,show p ≠ 0 by omega] using ht
      have := (List.nodup_append.mp hc.chain.nodup).2.1
      simp [hy] at this
  · rintro rfl
    exact (ptr_eq_some.mp (ht.trans (by simp))).1

theorem node_prev (hc : FreeChain h (xs ++ p :: ys)) (hq : (links h).prev p = some q) :
    q ∈ xs ∧ Node h q := by
  have hx : q ∈ xs := List.mem_of_getLast? (hc.chain.split.1 ▸ hq)
  exact ⟨hx,hc.node q (by simp [hx])⟩

theorem node_next (hc : FreeChain h (xs ++ p :: ys)) (hq : (links h).next p = some q) :
    q ∈ ys ∧ Node h q := by
  have hy : q ∈ ys := List.mem_of_mem_head? (hc.chain.split.2 ▸ hq)
  exact ⟨hy,hc.node q (by simp [hy])⟩

theorem of_as (hc : FreeChain h fl) (hf : SameFrame h h') {ps : List Nat} {K : Links Nat}
    (hK : Chain K ps) (hps : ∀ p ∈ ps, Node h p) (has : LinksAs h' K) : FreeChain h' ps := by
  have hlp := hf.heapListp
  have hal : ∀ p ∈ ps, p % 8 = 0 := fun p hp => (hps p hp).aligned
  refine ⟨hlp ▸ hc.listp,hK.congr has.head has.tail ?_,fun p hp => ?_⟩
  · exact fun p hp => ⟨has.prev p (hal p hp),has.next p (hal p hp)⟩
  · obtain ⟨h1,h2,h3,h4⟩ := hps p hp
    exact ⟨h1,hlp ▸ h2,hlp ▸ h3,h4⟩

theorem nodes_concat (hc : FreeChain h fl) (hp : Node h p) : ∀ q ∈ fl ++ [p], Node h q := by
  intro q hq
  rcases List.mem_append.mp hq with hq | hq
  · exact hc.node q hq
  · obtain rfl : q = p := by simpa using hq
    exact hp

theorem insert_first (hc : FreeChain h fl) (hp : Node h p) (hnew : p ∉ fl) (h0 : h.hdFree = 0) :
    FreeChain (insertFreeBlock p h) (fl ++ [p]) ∧
      LinkEdit h (insertFreeBlock p h) (fl ++ [p]) := by
  have hal := hp.aligned
  have hp0 := hp.ne_zero
  have hchain := hc.chain.pushBack hnew
  have ht : (links h).tail = none := by
    rw [hc.chain.tail_eq_none_iff,← hc.hdFree_eq_zero,h0]
  have heq : insertFreeBlock p h =
      { (h.put (nextFree p) 0).put (prevFree p) 0 with hdFree := p, ftFree := p } := by
    simp [insertFreeBlock,h0]
  have hedit : LinkEdit h (insertFreeBlock p h) (fl ++ [p]) := by
    rw [heq]
    exact ((linkEdit_nextFree (by simp)).trans (linkEdit_prevFree (by simp))).of_mem ⟨rfl,rfl,rfl⟩ rfl
  refine ⟨hc.of_as hedit.frame hchain (nodes_concat hc hp) ⟨?_,?_,?_,?_⟩,hedit⟩
  · simp [heq,pushBack,setNext,ht,ptr,hp0]
  · simp [heq,pushBack,ptr,hp0]
  · intro r hr
    have hprev : prevFreeIndex (insertFreeBlock p h) r = if r = p then 0 else prevFreeIndex h r := by
      rw [heq]
      exact (prev_put_prev hal hr (by omega)).trans (by rw [prev_put_next hal hr])
    simp only [links,hprev,hedit.link,pushBack,Function.update_apply]
    split
    · simpa [link,links] using ht.symm
    · rfl
  · intro r hr
    have hnext : nextFreeIndex (insertFreeBlock p h) r = if r = p then 0 else nextFreeIndex h r := by
      rw [heq]
      exact (next_put_prev hal hr).trans (next_put_next hal hr (by omega))
    simp only [links,hnext,hedit.link,pushBack,Function.update_apply]
    split
    · simp [link]
    · simp only [links] at ht
      simp [setNext,ht]

theorem insert_last (hc : FreeChain h fl) (hp : Node h p) (hnew : p ∉ fl) (h0 : h.hdFree ≠ 0) :
    FreeChain (insertFreeBlock p h) (fl ++ [p]) ∧
      LinkEdit h (insertFreeBlock p h) (fl ++ [p]) := by
  have hal := hp.aligned
  have hp0 := hp.ne_zero
  have hchain := hc.chain.pushBack hnew
  have hne : fl ≠ [] := fun e => h0 (hc.hdFree_eq_zero.mpr e)
  have htm := hc.ftFree_mem hne
  have htn := hc.node _ htm
  have ht : ptr h.ftFree = some h.ftFree := by
    rw [ptr,if_neg fun e => hne (hc.ftFree_eq_zero.mp e)]
  have heq : insertFreeBlock p h =
      { ((h.put (nextFree h.ftFree) (selfIndex h p)).put (prevFree p)
          (selfIndex h h.ftFree)).put (nextFree p) 0 with ftFree := p } := by
    simp only [insertFreeBlock,h0,if_false]
    rfl
  have hedit : LinkEdit h (insertFreeBlock p h) (fl ++ [p]) := by
    rw [heq]
    exact (((linkEdit_nextFree (by simp [htm])).trans (linkEdit_prevFree (by simp))).trans
      (linkEdit_nextFree (by simp))).of_mem ⟨rfl,rfl,rfl⟩ rfl
  refine ⟨hc.of_as hedit.frame hchain (nodes_concat hc hp) ⟨?_,?_,?_,?_⟩,hedit⟩
  · simp [heq,pushBack,setNext,links,ht]
  · simp [heq,pushBack,ptr,hp0]
  · intro r hr
    have hprev : prevFreeIndex (insertFreeBlock p h) r =
        if r = p then selfIndex h h.ftFree else prevFreeIndex h r := by
      rw [heq]
      refine (prev_put_next hal hr).trans ((prev_put_prev hal hr (selfIndex_lt htn)).trans ?_)
      rw [prev_put_next htn.aligned hr]
    simp only [links,hprev,hedit.link,pushBack,Function.update_apply]
    split
    · rw [link_selfIndex htn,ht]
    · rfl
  · intro r hr
    have hnext : nextFreeIndex (insertFreeBlock p h) r =
        if r = p then 0 else if r = h.ftFree then selfIndex h p else nextFreeIndex h r := by
      rw [heq]
      refine (next_put_next hal hr (by omega)).trans ?_
      rw [next_put_prev hal hr,next_put_next htn.aligned hr (selfIndex_lt hp)]
    simp only [links,hnext,hedit.link,pushBack,setNext,ht,Function.update_apply]
    split
    · simp [link]
    · split
      · exact link_selfIndex hp
      · rfl

theorem insert (hc : FreeChain h fl) (hp : Node h p) (hnew : p ∉ fl) :
    FreeChain (insertFreeBlock p h) (fl ++ [p]) ∧
      LinkEdit h (insertFreeBlock p h) (fl ++ [p]) := by
  by_cases h0 : h.hdFree = 0
  · exact insert_first hc hp hnew h0
  · exact insert_last hc hp hnew h0

theorem removeFreeBlock_eq (hc : FreeChain h (xs ++ p :: ys)) : removeFreeBlock p h =
    putPrevOf ((links h).next p) (prevFreeIndex h p) (prevFreeBlock h p)
      (putNextOf ((links h).prev p) (nextFreeIndex h p) (nextFreeBlock h p) h) := by
  have hpn := hc.node p (by simp)
  have hkeep := prev_putNextOf (h := h) (v := nextFreeIndex h p) (d := nextFreeBlock h p)
    (fun q hq => (hc.node_prev hq).2.aligned) hpn.aligned
  simp only [← hkeep]
  simp only [removeFreeBlock,prevFreeBlock_eq,nextFreeBlock_eq]
  cases hx : (links h).prev p with
  | none => cases hy : (links h).next p with
    | none => rfl
    | some n =>
      have := (hc.node_next hy).2.above
      simp [putPrevOf,putNextOf,show n ≠ 0 by omega]
  | some m =>
    have := (hc.node_prev hx).2.above
    cases hy : (links h).next p with
    | none => simp [putPrevOf,putNextOf,show m ≠ 0 by omega]
    | some n =>
      have := (hc.node_next hy).2.above
      simp [putPrevOf,putNextOf,show m ≠ 0 by omega,show n ≠ 0 by omega]

theorem remove (hc : FreeChain h (xs ++ p :: ys)) :
    FreeChain (removeFreeBlock p h) (xs ++ ys) ∧ LinkEdit h (removeFreeBlock p h) (xs ++ ys) := by
  have hmem : ∀ q ∈ xs ++ ys, Node h q := fun q hq => hc.node q (by
    simp only [List.mem_append,List.mem_cons] at hq ⊢
    tauto)
  have heq := hc.removeFreeBlock_eq
  have hedit : LinkEdit h (removeFreeBlock p h) (xs ++ ys) := by
    rw [heq]
    exact (linkEdit_putNextOf fun q hq => by simp [(hc.node_prev hq).1]).trans
      (linkEdit_putPrevOf fun q hq => by simp [(hc.node_next hq).1])
  refine ⟨hc.of_as hedit.frame hc.chain.remove hmem ?_,hedit⟩
  rw [heq,Linked.remove]
  have h1 := (LinksAs.refl h).putNextOf (o := (links h).prev p) (d := nextFreeBlock h p)
    (fun q hq => (hc.node_prev hq).2.aligned) nextFreeIndex_lt (link_next h p)
  rw [ptr_nextFreeBlock] at h1
  have h2 := h1.putPrevOf (o := (links h).next p) (t := prevFreeBlock h p)
    (fun q hq => (hc.node_next hq).2.aligned) prevFreeIndex_lt
    ((link_putNextOf _ _ _ _ _).trans (link_prev h p))
  rwa [ptr_prevFreeBlock] at h2

theorem replaceFreeBlock_eq (hc : FreeChain h (xs ++ p :: ys)) (q : Nat) : replaceFreeBlock p q h =
    (putPrevOf ((links h).next p) (selfIndex h q) q
      (putNextOf ((links h).prev p) (selfIndex h q) q h)).memcpy q p dsize := by
  have hpn := hc.node p (by simp)
  have hkeep := next_putNextOf (h := h) (v := selfIndex h q) (d := q) (o := (links h).prev p)
    (fun r hr => (hc.node_prev hr).2.aligned) hpn.aligned (fun hr => by
      have hx := (hc.node_prev hr).1
      have := (List.nodup_append.mp hc.chain.nodup).2.2 p hx p (by simp)
      exact this rfl)
  have hfirst : (if h.hdFree = p then { h with hdFree := q }
      else h.put (nextFree (selfAddr h (prevFreeIndex h p))) (selfIndex h q)) =
      putNextOf ((links h).prev p) (selfIndex h q) q h := by
    cases hx : (links h).prev p with
    | none => rw [if_pos (hc.hdFree_iff.mpr hx)]; rfl
    | some m =>
      rw [if_neg (fun e => by simp [hc.hdFree_iff.mp e] at hx),(of_link hx).2]
      rfl
  simp only [replaceFreeBlock]
  rw [hfirst,ftFree_putNextOf,hkeep,selfIndex_putNextOf,selfAddr_putNextOf]
  refine congrArg (Heap.memcpy · q p dsize) ?_
  cases hy : (links h).next p with
  | none => rw [if_pos (hc.ftFree_iff.mpr hy)]; rfl
  | some n =>
    rw [if_neg (fun e => by simp [hc.ftFree_iff.mp e] at hy),(of_link hy).2]
    rfl

theorem replace (hc : FreeChain h (xs ++ p :: ys)) (hq : Node h q) (hnew : q ∉ xs ++ ys) :
    FreeChain (replaceFreeBlock p q h) (xs ++ q :: ys) ∧
      LinkEdit h (replaceFreeBlock p q h) (xs ++ q :: ys) := by
  have hpn := hc.node p (by simp)
  have hmem : ∀ r ∈ xs ++ q :: ys, Node h r := by
    intro r hr
    simp only [List.mem_append,List.mem_cons] at hr
    rcases hr with hr | rfl | hr
    · exact hc.node r (by simp [hr])
    · exact hq
    · exact hc.node r (by simp [hr])
  have heq := hc.replaceFreeBlock_eq q
  have hedit : LinkEdit h (replaceFreeBlock p q h) (xs ++ q :: ys) := by
    rw [heq]
    exact ((linkEdit_putNextOf fun r hr => by simp [(hc.node_prev hr).1]).trans
      (linkEdit_putPrevOf fun r hr => by simp [(hc.node_next hr).1])).trans
      (linkEdit_memcpy (by simp))
  refine ⟨hc.of_as hedit.frame (hc.chain.replace hnew) hmem ?_,hedit⟩
  have hq0 : ptr q = some q := by
    have := hq.above
    rw [ptr,if_neg (by omega)]
  have hlk : link h (selfIndex h q) = ptr q := by rw [link_selfIndex hq,hq0]
  have h1 := (LinksAs.refl h).putNextOf (o := (links h).prev p)
    (fun r hr => (hc.node_prev hr).2.aligned) (selfIndex_lt hq) hlk
  have h2 := h1.putPrevOf (o := (links h).next p)
    (fun r hr => (hc.node_next hr).2.aligned) (selfIndex_lt hq) ((link_putNextOf _ _ _ _ _).trans hlk)
  rw [hq0] at h2
  rw [heq,Linked.replace]
  exact h2.memcpy hpn.aligned hq.aligned

end FreeChain

end Malloc
