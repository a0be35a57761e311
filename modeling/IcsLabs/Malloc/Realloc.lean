import IcsLabs.Malloc.Requests

namespace Malloc
open Bytes Tiling Linked

section Shrink

variable {h : Heap} {pre post : List Blk} {n : Blk} {fl : List Nat} {p s a : Nat}

theorem shrink_alone (ha : Arena h (pre ++ ⟨p,s,true⟩ :: post) fl) (hp : p ≠ h.heapListp)
    (h8 : a % 8 = 0) (h16 : 16 ≤ a) (hs : a + 16 ≤ s)
    (hnext : getAlloc h (hdrp (nextBlkp h p)) = 1)
    (hhead : ∀ c, post.head? = some c → c.alloc = true) :
    Effect h (reallocShrink p a s h) 0
      (pre ++ ⟨p,a,true⟩ :: ⟨p + a,s - a,false⟩ :: post) (fl ++ [p + a]) := by
  have hl := ha.layout
  have hb : (⟨p,s,true⟩ : Blk) ∈ pre ++ ⟨p,s,true⟩ :: post := by simp
  have hpro : (⟨p,s,true⟩ : Blk) ≠ prologue h := fun e => hp (congrArg Blk.addr e)
  have hlt := hl.size_lt hb
  obtain ⟨c1,c2,c3,c4,c5⟩ := hl.sec hb
  have hbase := hl.base.listp
  simp only at hlt c1 c2 c3 c4 c5
  have hsub : subSizeT s a = s - a := subSizeT_eq (by omega) (by omega)
  have heq : reallocShrink p a s h =
      insertFreeBlock (p + a) (stamp ⟨p + a,s - a,false⟩ (stamp ⟨p,a,true⟩ h)) := by
    simp only [reallocShrink,hnext,hsub]
    rw [if_neg (by decide),put_tags_alloc h8 (by omega),
      stamp_nextBlkp (by omega) h8 (by omega) (by omega),put_tags_free (by omega) (by omega)]
  have hl' := Layout.stamp_two (M := [⟨p,s,true⟩]) (b := ⟨p,a,true⟩)
    (c := ⟨p + a,s - a,false⟩) (by simpa using hl) (hl.pre_ne_nil hpro) (by simp)
    ⟨rfl,by simp only [Tiles]; omega⟩ rfl h8 h16 (by simp only; omega) (by simp only; omega)
  have hfree : FreeChain (stamp ⟨p + a,s - a,false⟩ (stamp ⟨p,a,true⟩ h)) fl :=
    ha.free.stamp_cut hl ha.perm.subset _ _ hb hb rfl h16
      (by simp only; omega) rfl (by simp only; omega)
  have hperm : ((p + a) :: fl).Perm (frees (pre ++ ⟨p,a,true⟩ :: ⟨p + a,s - a,false⟩ :: post)) := by
    have hq := ha.perm.cons (p + a)
    rw [frees_append,frees_cons_alloc rfl] at hq
    exact hq.trans (perm_frees_next (c := ⟨p + a,_,false⟩) rfl rfl).symm
  obtain ⟨h1,h2⟩ := (coalesced_alloc rfl).mp ha.coalesced
  have hco : Coalesced (pre ++ ⟨p,a,true⟩ :: ⟨p + a,s - a,false⟩ :: post) :=
    (coalesced_alloc rfl).mpr ⟨h1,(coalesced_cons_free rfl).mpr
      ⟨h2,hhead⟩⟩
  rw [heq]
  exact (effect_insert hl' hfree hperm hco).after rfl rfl rfl
    ((frame_stamp_own hl' (by simp)).trans (frame_stamp_own hl' (by simp)))

-- the block cut to a bytes and its rest joined to the free block n, before the list is told
theorem Arena.cut_next (ha : Arena h (pre ++ ⟨p,s,true⟩ :: n :: post) fl) (hp : p ≠ h.heapListp)
    (h8 : a % 8 = 0) (h16 : 16 ≤ a) (hs : a + 16 ≤ s) (hn : n.alloc = false) :
    Layout (stamp ⟨p + a,s - a + n.size,false⟩ (stamp ⟨p,a,true⟩ h))
        (pre ++ ⟨p,a,true⟩ :: ⟨p + a,s - a + n.size,false⟩ :: post) ∧
      FreeChain (stamp ⟨p + a,s - a + n.size,false⟩ (stamp ⟨p,a,true⟩ h)) fl ∧
      fl.Perm (n.addr :: (frees pre ++ frees post)) := by
  have hl := ha.layout
  have hb : (⟨p,s,true⟩ : Blk) ∈ pre ++ ⟨p,s,true⟩ :: n :: post := by simp
  have hnm : n ∈ pre ++ ⟨p,s,true⟩ :: n :: post := by simp
  have hpro : (⟨p,s,true⟩ : Blk) ≠ prologue h := fun e => hp (congrArg Blk.addr e)
  have haddr : n.addr = p + s := hl.next_addr
  have hs8 := (hl.sec hb).sz
  have hn8 := (hl.sec hnm).sz
  simp only at hs8
  refine ⟨?_,?_,?_⟩
  · exact Layout.stamp_two (M := [⟨p,s,true⟩,n]) (b := ⟨p,a,true⟩)
      (c := ⟨p + a,s - a + n.size,false⟩) (by simpa using hl) (hl.pre_ne_nil hpro) (by simp)
      ⟨rfl,haddr,by simp only [Tiles]; omega⟩ rfl h8 h16 (by simp only; omega)
      (by simp only; omega)
  · exact ha.free.stamp_cut hl ha.perm.subset _ _ hb hnm rfl h16
      (by simp only; omega) rfl (by simp only; omega)
  · exact ha.perm.trans (perm_frees_next rfl hn)

theorem shrink_next_eq (ha : Arena h (pre ++ ⟨p,s,true⟩ :: n :: post) fl) (h8 : a % 8 = 0)
    (h16 : 16 ≤ a) (hs : a + 16 ≤ s) (hn : n.alloc = false) :
    nextBlkp h p = n.addr ∧ getAlloc h (hdrp n.addr) = 0 ∧
      (h.put (hdrp p) (pack a 1)).put (ftrp (h.put (hdrp p) (pack a 1)) p) (pack a 1) =
        stamp ⟨p,a,true⟩ h ∧
      nextBlkp (stamp ⟨p,a,true⟩ h) p = p + a ∧
      sizeT (subSizeT s a + getSize (stamp ⟨p,a,true⟩ h) (hdrp n.addr)) = s - a + n.size ∧
      ∀ g : Heap, (g.put (hdrp (p + a)) (pack (s - a + n.size) 0)).put
          (ftrp (g.put (hdrp (p + a)) (pack (s - a + n.size) 0)) (p + a))
          (pack (s - a + n.size) 0) = stamp ⟨p + a,s - a + n.size,false⟩ g := by
  have hl := ha.layout
  have hb : (⟨p,s,true⟩ : Blk) ∈ pre ++ ⟨p,s,true⟩ :: n :: post := by simp
  have hnm : n ∈ pre ++ ⟨p,s,true⟩ :: n :: post := by simp
  have haddr : n.addr = p + s := hl.next_addr
  have hn16 := hl.size_ge hnm (free_ne_prologue hn)
  obtain ⟨c1,c2,c3,c4,c5⟩ := hl.sec hb
  obtain ⟨d1,d2,d3,d4,d5⟩ := hl.sec hnm
  have hbase := hl.base.listp
  have hspan := hl.base.span
  simp only at c1 c2 c3 c4 c5
  have hnz : getSize (stamp ⟨p,a,true⟩ h) (hdrp n.addr) = n.size := by
    rw [← hl.hdr_size hnm,getSize,getSize,stamp_get]
    all_goals simp only [hdrp,wsize]
    all_goals omega
  refine ⟨(hl.nextBlkp_eq hb).trans haddr.symm,?_,put_tags_alloc h8 (by omega),
    stamp_nextBlkp (by omega) h8 (by omega) (by omega),?_,
    fun g => put_tags_free (by omega) (by omega)⟩
  · rw [hl.hdr_alloc hnm,hn]
    rfl
  · rw [hnz,subSizeT_eq (by omega) (by omega),sizeT_eq (by omega)]

theorem shrink_next (ha : Arena h (pre ++ ⟨p,s,true⟩ :: n :: post) fl) (hp : p ≠ h.heapListp)
    (h8 : a % 8 = 0) (h16 : 16 ≤ a) (hs : a + 16 ≤ s) (hn : n.alloc = false) :
    Effect h (reallocShrink p a s h) 0
      (pre ++ ⟨p,a,true⟩ :: ⟨p + a,s - a + n.size,false⟩ :: post) (relink n.addr (p + a) fl) := by
  obtain ⟨hl',hfree,hperm⟩ := ha.cut_next hp h8 h16 hs hn
  obtain ⟨hnb,hna,htag,hnext,hsize,htag'⟩ := shrink_next_eq ha h8 h16 hs hn
  have heq : reallocShrink p a s h = replaceFreeBlock n.addr (p + a)
      (stamp ⟨p + a,s - a + n.size,false⟩ (stamp ⟨p,a,true⟩ h)) := by
    simp only [reallocShrink,hnb,hna,htag,hnext,hsize,htag',if_true]
  obtain ⟨h1,h2⟩ := (coalesced_alloc rfl).mp ha.coalesced
  obtain ⟨h3,h4⟩ := (coalesced_cons_free hn).mp h2
  have hco : Coalesced (pre ++ ⟨p,a,true⟩ :: ⟨p + a,s - a + n.size,false⟩ :: post) :=
    (coalesced_alloc rfl).mpr ⟨h1,(coalesced_cons_free rfl).mpr ⟨h3,h4⟩⟩
  have he := effect_replace (q := p + a) hl' hfree hperm
    (perm_frees_next (c := ⟨p + a,_,false⟩) rfl rfl).symm hco
  rw [heq]
  exact he.after rfl rfl rfl
    ((frame_stamp_own hl' (by simp)).trans (frame_stamp_own hl' (by simp)))

theorem reallocShrink_spec (ha : Arena h (pre ++ ⟨p,s,true⟩ :: post) fl) (hp : p ≠ h.heapListp)
    (h8 : a % 8 = 0) (h16 : 16 ≤ a) (hs : a + 16 ≤ s) :
    Effect h (reallocShrink p a s h) 0 (Plan.shrink pre post fl p s a).blocks
      (Plan.shrink pre post fl p s a).free := by
  rw [Plan.shrink]
  cases post with
  | nil => exact shrink_alone ha hp h8 h16 hs ha.layout.next_alloc_nil (by simp)
  | cons n post =>
    have hnext : getAlloc h (hdrp (nextBlkp h p)) = n.alloc.toNat := ha.layout.next_alloc_cons
    rw [List.head?_cons,List.tail_cons]
    cases hn : n.alloc with
    | true =>
      rw [hn] at hnext
      rw [freeBlk_alloc hn]
      exact shrink_alone ha hp h8 h16 hs hnext (by simpa using hn)
    | false =>
      rw [freeBlk_free hn]
      exact shrink_next ha hp h8 h16 hs hn

end Shrink

section Grow

variable {h : Heap} {pre post : List Blk} {n : Blk} {fl : List Nat} {p s a : Nat}

-- the link words are moved before the tags, so the old tiling still stands while they move
theorem grow_relink (ha : Arena h (pre ++ ⟨p,s,true⟩ :: n :: post) fl) (hn : n.alloc = false)
    (h8 : a % 8 = 0) (hsa : s < a) (hs : a + 16 ≤ s + n.size) :
    Layout (replaceFreeBlock n.addr (p + a) h) (pre ++ ⟨p,s,true⟩ :: n :: post) ∧
      FreeChain (replaceFreeBlock n.addr (p + a) h) (relink n.addr (p + a) fl) ∧
      LinkEdit h (replaceFreeBlock n.addr (p + a) h) (relink n.addr (p + a) fl) ∧
      (relink n.addr (p + a) fl).Perm ((p + a) :: (frees pre ++ frees post)) := by
  have hl := ha.layout
  have hb : (⟨p,s,true⟩ : Blk) ∈ pre ++ ⟨p,s,true⟩ :: n :: post := by simp
  have hnm : n ∈ pre ++ ⟨p,s,true⟩ :: n :: post := by simp
  have haddr : n.addr = p + s := hl.next_addr
  obtain ⟨c1,c2,c3,c4,c5⟩ := hl.sec hb
  obtain ⟨d1,d2,d3,d4,d5⟩ := hl.sec hnm
  have hspan := hl.base.span
  have hfits := hl.base.fits
  simp only at c1 c2 c3 c4 c5
  have hperm : fl.Perm (n.addr :: (frees pre ++ frees post)) :=
    ha.perm.trans (perm_frees_next rfl hn)
  obtain ⟨xs,ys,rfl⟩ := List.append_of_mem (hperm.mem_iff.mpr (by simp : n.addr ∈ n.addr :: _))
  have hrest : (xs ++ ys).Perm (frees pre ++ frees post) :=
    (List.perm_middle.symm.trans hperm).cons_inv
  have hclear : ∀ q ∈ xs ++ ys, q ∈ frees (pre ++ ⟨p,s,true⟩ :: n :: post) ∧
      (q + 16 ≤ n.addr ∨ n.addr + n.size ≤ q) := by
    intro q hq
    have hqf : q ∈ xs ++ n.addr :: ys := by
      simp only [List.mem_append,List.mem_cons] at hq ⊢
      tauto
    refine ⟨ha.perm.mem_iff.mp hqf,(hl.free_apart ha.perm hnm hqf).resolve_left ?_⟩
    have hnd := (List.perm_middle.symm.trans ha.perm).nodup_iff.mpr hl.frees_nodup
    exact fun he => (List.nodup_cons.mp hnd).1 (he.1 ▸ hq)
  have hnode : Node h (p + a) := ⟨by omega,by omega,by omega,by omega⟩
  obtain ⟨hc,he⟩ := ha.free.replace hnode fun hq => by
    have := (hclear _ hq).2
    omega
  rw [relink_middle ha.free.chain.nodup]
  refine ⟨hl.of_writes he.frame fun x hx => ?_,hc,he,List.perm_middle.trans (hrest.cons _)⟩
  obtain ⟨q,hq,hx1,hx2⟩ := he.mem x hx
  rcases List.mem_cons.mp (List.perm_middle.mem_iff.mp hq) with rfl | hq
  · exact ⟨n,hnm,by omega,by omega⟩
  · obtain ⟨c,hcm,hcf,rfl⟩ := mem_frees.mp (hclear q hq).1
    have := hl.size_ge hcm (free_ne_prologue hcf)
    exact ⟨c,hcm,hx1,by omega⟩

theorem growSplit_spec (ha : Arena h (pre ++ ⟨p,s,true⟩ :: n :: post) fl) (hp : p ≠ h.heapListp)
    (hn : n.alloc = false) (h8 : a % 8 = 0) (h16 : 16 ≤ a) (hsa : s < a)
    (hs : a + 16 ≤ s + n.size) :
    Effect h (reallocGrowSplit p a s n.size h) 0
      (pre ++ ⟨p,a,true⟩ :: ⟨p + a,s + n.size - a,false⟩ :: post) (relink n.addr (p + a) fl) := by
  obtain ⟨hl1,hc1,he1,hperm⟩ := grow_relink ha hn h8 hsa hs
  have hl := ha.layout
  have hb : (⟨p,s,true⟩ : Blk) ∈ pre ++ ⟨p,s,true⟩ :: n :: post := by simp
  have hnm : n ∈ pre ++ ⟨p,s,true⟩ :: n :: post := by simp
  have hpro : (⟨p,s,true⟩ : Blk) ≠ prologue h := fun e => hp (congrArg Blk.addr e)
  have haddr : n.addr = p + s := hl.next_addr
  have hnb : nextBlkp h p = n.addr := (hl.nextBlkp_eq hb).trans haddr.symm
  obtain ⟨c1,c2,c3,c4,c5⟩ := hl.sec hb
  obtain ⟨d1,d2,d3,d4,d5⟩ := hl.sec hnm
  have hbase := hl.base.listp
  have hspan := hl.base.span
  simp only at c1 c2 c3 c4 c5
  have hsub : subSizeT (sizeT (s + n.size)) a = s + n.size - a := by
    rw [sizeT_eq (by omega),subSizeT_eq (by omega) (by omega)]
  have heq : reallocGrowSplit p a s n.size h = stamp ⟨p + a,s + n.size - a,false⟩
      (stamp ⟨p,a,true⟩ (replaceFreeBlock n.addr (p + a) h)) := by
    simp only [reallocGrowSplit,hnb,hsub]
    rw [put_tags_alloc h8 (by omega),put_tags_free (by omega) (by omega)]
  have hl' := Layout.stamp_two (M := [⟨p,s,true⟩,n]) (b := ⟨p,a,true⟩)
    (c := ⟨p + a,s + n.size - a,false⟩) (by simpa using hl1) (hl.pre_ne_nil hpro) (by simp)
    ⟨rfl,haddr,by simp only [Tiles]; omega⟩ rfl h8 h16 (by simp only; omega) (by simp only; omega)
  have hp' : (relink n.addr (p + a) fl).Perm
      (frees (pre ++ ⟨p,a,true⟩ :: ⟨p + a,s + n.size - a,false⟩ :: post)) :=
    hperm.trans (perm_frees_next (c := ⟨p + a,_,false⟩) rfl rfl).symm
  have hd := fun q hq =>
    hl'.free_apart hp' (b := ⟨p + a,s + n.size - a,false⟩) (by simp) (q := q) hq
  have hd' := fun q hq => hl'.free_apart hp' (b := ⟨p,a,true⟩) (by simp) (q := q) hq
  obtain ⟨h1,h2⟩ := (coalesced_alloc rfl).mp ha.coalesced
  obtain ⟨h3,h4⟩ := (coalesced_cons_free hn).mp h2
  rw [heq]
  refine ⟨he1.frame.storage,he1.frame.heapListp,he1.frame.memBrk,⟨hl',?_,hp',?_⟩,?_⟩
  · refine (hc1.stamp ?_ fun q hq => ?_).stamp ?_ fun q hq => ?_
    all_goals simp only
    · omega
    · have := hd' q hq
      simp only [Bool.true_eq_false,and_false,false_or] at this
      omega
    · omega
    · have := hd q hq
      simp only at this
      omega
  · exact (coalesced_alloc rfl).mpr ⟨h1,(coalesced_cons_free rfl).mpr
      ⟨h3,h4⟩⟩
  · have f0 : Frame h (replaceFreeBlock n.addr (p + a) h)
        (pre ++ ⟨p,a,true⟩ :: ⟨p + a,s + n.size - a,false⟩ :: post) := by
      intro x hx c hc hca hin
      obtain ⟨q,hq,hx1,hx2⟩ := he1.mem x hx
      obtain ⟨d,hd,hdf,rfl⟩ := mem_frees.mp (hp'.mem_iff.mp hq)
      have := hl'.size_ge hd (free_ne_prologue hdf)
      obtain rfl := hl'.eq_of_payload hd hc ⟨hx1,by omega⟩ hin
      simp [hdf] at hca
    exact (f0.trans (frame_stamp_own hl' (by simp))).trans (frame_stamp_own hl' (by simp))

theorem growWhole_spec (ha : Arena h (pre ++ ⟨p,s,true⟩ :: n :: post) fl) (hp : p ≠ h.heapListp)
    (hn : n.alloc = false) :
    Effect h (reallocGrowWhole p s n.size h) 0 (pre ++ ⟨p,s + n.size,true⟩ :: post)
      (fl.erase n.addr) := by
  have hl := ha.layout
  have hb : (⟨p,s,true⟩ : Blk) ∈ pre ++ ⟨p,s,true⟩ :: n :: post := by simp
  have hnm : n ∈ pre ++ ⟨p,s,true⟩ :: n :: post := by simp
  have hpro : (⟨p,s,true⟩ : Blk) ≠ prologue h := fun e => hp (congrArg Blk.addr e)
  have haddr : n.addr = p + s := hl.next_addr
  have hnb : nextBlkp h p = n.addr := (hl.nextBlkp_eq hb).trans haddr.symm
  have h16 := hl.size_ge hb hpro
  have hn16 := hl.size_ge hnm (free_ne_prologue hn)
  obtain ⟨c1,c2,c3,c4,c5⟩ := hl.sec hb
  obtain ⟨d1,d2,d3,d4,d5⟩ := hl.sec hnm
  have hbase := hl.base.listp
  have hspan := hl.base.span
  simp only at h16 c1 c2 c3 c4 c5
  have heq : reallocGrowWhole p s n.size h =
      removeFreeBlock n.addr (stamp ⟨p,s + n.size,true⟩ h) := by
    simp only [reallocGrowWhole,hnb]
    rw [sizeT_eq (by omega),put_tags_alloc (by omega) (by omega)]
  have hl' := Layout.stamp_one (M := [⟨p,s,true⟩,n]) (b := ⟨p,s + n.size,true⟩)
    (by simpa using hl) (hl.pre_ne_nil hpro) (by simp)
    ⟨rfl,haddr,by simp only [Tiles]; omega⟩ (by simp only; omega) (by simp only; omega)
  have hfree : FreeChain (stamp ⟨p,s + n.size,true⟩ h) fl :=
    ha.free.stamp_span hl ha.perm.subset _ _ hb hnm rfl (by simp only; omega)
  have hperm : fl.Perm (n.addr :: frees (pre ++ ⟨p,s + n.size,true⟩ :: post)) := by
    rw [frees_append,frees_cons_alloc rfl]
    exact ha.perm.trans (perm_frees_next rfl hn)
  obtain ⟨h1,h2⟩ := (coalesced_alloc rfl).mp ha.coalesced
  have h3 := ((coalesced_cons_free hn).mp h2).1
  have he := effect_remove hl' hfree hperm ((coalesced_alloc rfl).mpr ⟨h1,h3⟩)
  rw [heq]
  exact he.after rfl rfl rfl (frame_stamp_own hl' (by simp))

theorem reallocGrow_spec (ha : Arena h (pre ++ ⟨p,s,true⟩ :: n :: post) fl) (hp : p ≠ h.heapListp)
    (hn : n.alloc = false) (h8 : a % 8 = 0) (h16 : 16 ≤ a) (hsa : s < a) :
    Effect h (if a + 16 ≤ s + n.size then reallocGrowSplit p a s n.size h
        else reallocGrowWhole p s n.size h) 0
      (Plan.grow pre post fl p s a n).blocks (Plan.grow pre post fl p s a n).free := by
  rw [Plan.grow]
  split
  · exact growSplit_spec ha hp hn h8 h16 hsa (by assumption)
  · exact growWhole_spec ha hp hn

end Grow

section Realloc

variable {h : Heap} {A : Plan} {rest : List Blk} {p s size : Nat}

-- what mm_realloc leaves for the block at p: its new block and the bytes carried over
structure Moved (h h' : Heap) (rest : List Blk) (p s size q s' : Nat) : Prop where
  room : size + 8 ≤ s'
  outcome : Outcome h h' rest (⟨q,s',true⟩ :: rest)
  bytes : ∀ i, i + 8 < s → i < size → h'.mem (q + i) = h.mem (p + i)

theorem Moved.in_place {h' : Heap} {s' : Nat} (ho : Outcome h h' (⟨p,s',true⟩ :: rest)
    (⟨p,s',true⟩ :: rest)) (hs : size + 8 ≤ s') : Moved h h' rest p s size p s' := by
  refine ⟨hs,⟨ho.storage,ho.heapListp,ho.memBrk,ho.lent,
    ho.frame.mono fun b hb _ => List.mem_cons_of_mem _ hb⟩,fun i _ hi => ?_⟩
  by_contra hx
  exact ho.frame _ hx ⟨p,s',true⟩ (by simp) rfl ⟨by simp only; omega,by simp only; omega⟩

theorem Effect.moved {h' : Heap} {L pre post : List Blk} {fl : List Nat} {s' : Nat}
    (e : Effect h h' 0 L fl) (hL : allocs L = allocs pre ++ ⟨p,s',true⟩ :: allocs post)
    (hp : (allocs pre ++ allocs post).Perm rest) (hs : size + 8 ≤ s') :
    Moved h h' rest p s size p s' := by
  have hperm : (allocs L).Perm (⟨p,s',true⟩ :: rest) :=
    hL ▸ List.perm_middle.trans (hp.cons _)
  exact .in_place (e.outcome hperm fun b hb => hperm.mem_iff.mpr hb) hs

theorem memcpy_payload {q s' n x : Nat} (hn : n + 8 ≤ s') (hx : (h.memcpy q p n).mem x ≠ h.mem x) :
    (⟨q,s',true⟩ : Blk).InPayload x := by
  by_contra hin
  refine hx (copy_outside ?_)
  simp only [Blk.InPayload] at hin
  omega

theorem memcpy_outcome {q s' n : Nat} (hl : Lent h (⟨q,s',true⟩ :: rest)) (hn : n + 8 ≤ s') :
    Outcome h (h.memcpy q p n) rest (⟨q,s',true⟩ :: rest) := by
  have hw := fun x => memcpy_payload (h := h) (p := p) (x := x) (q := q) hn
  refine ⟨rfl,rfl,Nat.le_refl _,hl.of_writes ⟨rfl,rfl,rfl⟩ rfl rfl fun x hx =>
    ⟨_,by simp,hw x hx⟩,fun x hx b hb hba hin => ?_⟩
  obtain ⟨L,fl,ha,hp⟩ := hl
  have hm (c : Blk) (hc : c ∈ ⟨q,s',true⟩ :: rest) : c ∈ L :=
    (mem_allocs.mp (hp.mem_iff.mpr hc)).1
  have hnd : (⟨q,s',true⟩ :: rest).Nodup :=
    hp.nodup_iff.mp ((List.Nodup.of_map _ ha.layout.addrs_nodup).filter _)
  obtain rfl := ha.layout.eq_of_payload (hm _ (by simp)) (hm b (by simp [hb])) (hw x hx) hin
  exact (List.nodup_cons.mp hnd).1 hb

theorem Plan.grow_moved {pre post : List Blk} {n : Blk} {h' : Heap} {fl : List Nat} {a : Nat}
    (e : Effect h h' 0 (Plan.grow pre post fl p s a n).blocks (Plan.grow pre post fl p s a n).free)
    (hp : (allocs pre ++ allocs post).Perm rest) (hs : size + 8 ≤ a) (ha : a ≤ s + n.size) :
    ∃ s', (allocs (Plan.grow pre post fl p s a n).blocks).Perm (⟨p,s',true⟩ :: rest) ∧
      Moved h h' rest p s size p s' := by
  rw [Plan.grow] at e ⊢
  split at e
  · rename_i hsplit
    have hL : allocs (pre ++ ⟨p,a,true⟩ :: ⟨p + a,s + n.size - a,false⟩ :: post) =
        allocs pre ++ ⟨p,a,true⟩ :: allocs post := by
      rw [allocs_append,allocs_cons_alloc rfl,allocs_cons_free rfl]
    rw [if_pos hsplit]
    exact ⟨a,hL ▸ List.perm_middle.trans (hp.cons _),e.moved hL hp hs⟩
  · rename_i hsplit
    have hL : allocs (pre ++ ⟨p,s + n.size,true⟩ :: post) =
        allocs pre ++ ⟨p,s + n.size,true⟩ :: allocs post := by
      rw [allocs_append,allocs_cons_alloc rfl]
    rw [if_neg hsplit]
    exact ⟨s + n.size,hL ▸ List.perm_middle.trans (hp.cons _),e.moved hL hp (by omega)⟩

theorem reallocMove_plan (size : Nat) {asize : Nat} (ha : Arena h A.blocks A.free)
    (hb : (allocs A.blocks).Perm (⟨p,s,true⟩ :: rest)) (hne : p ≠ h.heapListp)
    (h0 : 0 < asize) (hlt : asize ≤ 2 ^ 31 - 8) (hs : 8 ≤ s) (hsa : s < asize)
    (hsize : size + 8 ≤ asize) :
    match (A.malloc h.memMaxAddr asize).map fun (q,B) => (q,B.release p) with
    | none => reallocMove p asize s h = none ∧ mmMalloc asize h = some (0,h)
    | some (q,B) => ∃ h' s', reallocMove p asize s h = some (q,h') ∧ Arena h' B.blocks B.free ∧
        (allocs B.blocks).Perm (⟨q,s',true⟩ :: rest) ∧ Moved h h' rest p s size q s' := by
  have hm := mmMalloc_plan ha h0 hlt
  cases hA : A.malloc h.memMaxAddr asize with
  | none =>
    rw [hA] at hm
    exact ⟨by simp [reallocMove,hm],hm⟩
  | some qB =>
    obtain ⟨q,B⟩ := qB
    rw [hA] at hm
    obtain ⟨h1,s',hm,hs',hG⟩ := hm
    have ho := hG.outcome hb
    have hsub : subSizeT s dsize = s - 8 := subSizeT_eq hs (by omega)
    have hcp := memcpy_outcome (p := p) (n := s - 8) ho.lent (by omega)
    have hlp : p ≠ (h1.memcpy q p (s - 8)).heapListp := by
      rw [hcp.heapListp,ho.heapListp]
      exact hne
    have hfr := mmFree_outcome (hcp.lent.perm (.swap _ _ _)) hlp
    have hcopy : Arena (h1.memcpy q p (s - 8)) B.blocks B.free := by
      refine hG.arena.of_writes ⟨rfl,rfl,rfl⟩ rfl rfl fun x hx =>
        ⟨⟨q,s',true⟩,hG.lends.mem_iff.mpr (by simp),?_⟩
      exact memcpy_payload (by omega) hx
    have hlent : (allocs B.blocks).Perm (⟨p,s,true⟩ :: ⟨q,s',true⟩ :: rest) :=
      (hG.lends.trans (hb.cons _)).trans (.swap _ _ _)
    have hpB : (⟨p,s,true⟩ : Blk) ∈ B.blocks := (mem_allocs.mp (hlent.mem_iff.mpr (by simp))).1
    refine ⟨mmFree p (h1.memcpy q p (s - 8)),s',by simp only [reallocMove,hm,if_neg hG.ne_zero,hsub],
      (release_effect hcopy hpB hlp).arena,release_allocs hcopy hlent,by omega,?_,fun i hi _ => ?_⟩
    · refine ((ho.weaken ?_).trans (hcp.weaken ?_)).trans (hfr.weaken ?_)
      all_goals intro b hb
      · simp [hb]
      · simp [hb]
      · simp [hb]
    · have e1 : (mmFree p (h1.memcpy q p (s - 8))).mem (q + i) = (h1.memcpy q p (s - 8)).mem (q + i) := by
        by_contra hx
        exact hfr.frame _ hx ⟨q,s',true⟩ (by simp) rfl ⟨by simp only; omega,by simp only; omega⟩
      have e2 : h1.mem (p + i) = h.mem (p + i) := by
        by_contra hx
        exact ho.frame _ hx ⟨p,s,true⟩ (by simp) rfl ⟨by simp only; omega,by simp only; omega⟩
      rw [e1,← e2]
      exact copy_inside (by omega)

theorem asize_spec (hlt : size ≤ 2 ^ 31 - 16) : alignSize size % 8 = 0 ∧
    size + 8 ≤ alignSize size ∧ alignSize size ≤ 2 ^ 31 - 8 := by
  rw [alignSize_eq (by omega)]
  omega

section Cases

variable {pre post : List Blk} {fl : List Nat} {n : Blk}
  (ha : Arena h (pre ++ ⟨p,s,true⟩ :: post) fl) (h0 : 0 < size) (hlt : size ≤ 2 ^ 31 - 16)
include ha h0 hlt

theorem mmRealloc_eq : mmRealloc p size h =
    if alignSize size ≤ s then
      if subSizeT s (alignSize size) ≥ 2 * dsize then
        some (p,reallocShrink p (alignSize size) s h)
      else some (p,h)
    else if getAlloc h (hdrp (nextBlkp h p)) = 0 ∧
        s + getSize h (hdrp (nextBlkp h p)) ≥ alignSize size + 16 then
      some (p,reallocGrowSplit p (alignSize size) s (getSize h (hdrp (nextBlkp h p))) h)
    else if getAlloc h (hdrp (nextBlkp h p)) = 0 ∧
        s + getSize h (hdrp (nextBlkp h p)) ≥ alignSize size then
      some (p,reallocGrowWhole p s (getSize h (hdrp (nextBlkp h p))) h)
    else reallocMove p (alignSize size) s h := by
  have hb : (⟨p,s,true⟩ : Blk) ∈ pre ++ ⟨p,s,true⟩ :: post := by simp
  have hs32 := ha.layout.size_lt hb
  have hn32 : getSize h (hdrp (nextBlkp h p)) < 2 ^ 32 := by
    rw [getSize_eq]
    have := get_lt (h := h) (p := hdrp (nextBlkp h p))
    omega
  obtain ⟨_,_,ha31⟩ := asize_spec hlt
  simp only at hs32
  simp only [mmRealloc,if_neg (by omega : size ≠ 0),if_neg (ha.layout.addr_ne_zero hb),
    ha.layout.hdr_size hb,dsize,show 2 * 8 = 16 from rfl]
  rw [sizeT_eq (by omega),sizeT_eq (by omega)]

theorem mmRealloc_kept (hs : alignSize size ≤ s) (hk : s < alignSize size + 16) :
    mmRealloc p size h = some (p,h) := by
  have hs32 := ha.layout.size_lt (b := ⟨p,s,true⟩) (by simp)
  have hd : dsize = 8 := rfl
  simp only at hs32
  rw [mmRealloc_eq ha h0 hlt,if_pos hs,subSizeT_eq hs (by omega),if_neg (by omega)]

theorem mmRealloc_shrinks (hs : alignSize size + 16 ≤ s) :
    mmRealloc p size h = some (p,reallocShrink p (alignSize size) s h) := by
  have hs32 := ha.layout.size_lt (b := ⟨p,s,true⟩) (by simp)
  have hd : dsize = 8 := rfl
  simp only at hs32
  rw [mmRealloc_eq ha h0 hlt,if_pos (by omega),subSizeT_eq (by omega) (by omega),if_pos (by omega)]

omit ha in
theorem mmRealloc_grows (ha : Arena h (pre ++ ⟨p,s,true⟩ :: n :: post) fl) (hn : n.alloc = false)
    (hs : s < alignSize size) (hfit : alignSize size ≤ s + n.size) :
    mmRealloc p size h = some (p,if alignSize size + 16 ≤ s + n.size
      then reallocGrowSplit p (alignSize size) s n.size h else reallocGrowWhole p s n.size h) := by
  have hl := ha.layout
  have hna : getAlloc h (hdrp (nextBlkp h p)) = 0 := by
    rw [hl.next_alloc_cons,hn]
    rfl
  have hnz : getSize h (hdrp (nextBlkp h p)) = n.size := by
    have hnb : nextBlkp h p = n.addr := (hl.nextBlkp_eq (by simp)).trans hl.next_addr.symm
    rw [hnb,hl.hdr_size (by simp)]
  rw [mmRealloc_eq ha h0 hlt,if_neg (by omega),hna,hnz]
  by_cases hsplit : alignSize size + 16 ≤ s + n.size
  · rw [if_pos ⟨rfl,hsplit⟩,if_pos hsplit]
  · rw [if_neg (fun h => hsplit h.2),if_pos ⟨rfl,hfit⟩,if_neg hsplit]

theorem mmRealloc_moves (hs : s < alignSize size)
    (hfit : ∀ n, freeBlk post.head? = some n → s + n.size < alignSize size) :
    mmRealloc p size h = reallocMove p (alignSize size) s h := by
  have hl := ha.layout
  rw [mmRealloc_eq ha h0 hlt,if_neg (by omega)]
  have hno : ¬ (getAlloc h (hdrp (nextBlkp h p)) = 0 ∧
      s + getSize h (hdrp (nextBlkp h p)) ≥ alignSize size) := by
    cases post with
    | nil =>
      rw [hl.next_alloc_nil]
      exact fun h => absurd h.1 (by decide)
    | cons n post =>
      rw [hl.next_alloc_cons]
      cases hn : n.alloc with
      | true => exact fun h => absurd h.1 (by decide)
      | false =>
        have hnb : nextBlkp h p = n.addr := (hl.nextBlkp_eq (by simp)).trans hl.next_addr.symm
        have := hfit n (freeBlk_free hn)
        rw [hnb,hl.hdr_size (by simp)]
        omega
  rw [if_neg (fun h => hno ⟨h.1,by omega⟩),if_neg hno]

end Cases

theorem mmRealloc_plan (ha : Arena h A.blocks A.free)
    (hrest : (allocs A.blocks).Perm (⟨p,s,true⟩ :: rest)) (hne : p ≠ h.heapListp)
    (h0 : 0 < size) (hlt : size ≤ 2 ^ 31 - 16) :
    match A.realloc h.memMaxAddr p size with
    | none => mmRealloc p size h = none ∧ mmMalloc (alignSize size) h = some (0,h)
    | some (q,B) => ∃ h' s', mmRealloc p size h = some (q,h') ∧ Arena h' B.blocks B.free ∧
        (allocs B.blocks).Perm (⟨q,s',true⟩ :: rest) ∧ Moved h h' rest p s size q s' := by
  have hb : (⟨p,s,true⟩ : Blk) ∈ A.blocks := (mem_allocs.mp (hrest.mem_iff.mpr (by simp))).1
  have h16 : 16 ≤ s := ha.layout.size_ge hb fun e => hne (congrArg Blk.addr e)
  obtain ⟨ha8,hsa,ha31⟩ := asize_spec hlt
  obtain ⟨pre,post,hA⟩ := List.append_of_mem hb
  have ha' := ha
  rw [hA] at ha'
  have hperm : (allocs pre ++ allocs post).Perm rest := by
    rw [hA,allocs_append,allocs_cons_alloc rfl] at hrest
    exact (List.perm_middle.symm.trans hrest).cons_inv
  have e1 := Plan.before_eq hA ha.nodup
  have e2 := Plan.after_eq hA ha.nodup
  have e3 := Plan.sizeAt_eq hA ha.nodup
  simp only at e1 e2 e3
  have hmove (hs : s < alignSize size)
      (hfit : ∀ n, freeBlk post.head? = some n → s + n.size < alignSize size) :=
    mmRealloc_moves ha' h0 hlt hs hfit ▸
      reallocMove_plan size ha hrest hne (by omega) ha31 (by omega) hs hsa
  rw [Plan.realloc,e1,e2,e3]
  by_cases hfit : alignSize size ≤ s
  · rw [if_pos hfit]
    by_cases hshrink : alignSize size + 16 ≤ s
    · rw [if_pos hshrink]
      have hE := reallocShrink_spec ha' hne ha8 (by omega) hshrink
      exact ⟨_,_,mmRealloc_shrinks ha' h0 hlt hshrink,hE.arena,
        Plan.allocs_shrink ▸ List.perm_middle.trans (hperm.cons _),
        hE.moved Plan.allocs_shrink hperm hsa⟩
    · rw [if_neg hshrink]
      exact ⟨h,s,mmRealloc_kept ha' h0 hlt hfit (by omega),ha,hrest,
        .in_place (.refl ⟨_,_,ha,hrest⟩) (hsa.trans hfit)⟩
  · rw [if_neg hfit]
    cases hn : freeBlk post.head? with
    | none => exact hmove (by omega) fun n hn' => by simp [hn] at hn'
    | some n =>
      by_cases hwhole : alignSize size ≤ s + n.size
      · simp only [if_pos hwhole]
        obtain ⟨hh,hnf⟩ := freeBlk_eq_some.mp hn
        obtain ⟨post,rfl⟩ := List.head?_eq_some_iff.mp hh
        rw [allocs_cons_free hnf] at hperm
        have hE := reallocGrow_spec ha' hne hnf ha8 (by omega) (by omega)
        obtain ⟨s',hlent,hM⟩ := Plan.grow_moved hE hperm hsa hwhole
        exact ⟨_,s',mmRealloc_grows h0 hlt ha' hnf (by omega) hwhole,hE.arena,hlent,hM⟩
      · simp only [if_neg hwhole]
        exact hmove (by omega) fun m hm => Option.some.inj (hn.symm.trans hm) ▸ (by omega)

theorem mmRealloc_spec (hl : Lent h (⟨p,s,true⟩ :: rest)) (hpro : prologue h ∈ rest)
    (h0 : 0 < size) (hlt : size ≤ 2 ^ 31 - 16) :
    (mmRealloc p size h = none ∧ mmMalloc (alignSize size) h = some (0,h)) ∨
      ∃ q h' s', mmRealloc p size h = some (q,h') ∧ Moved h h' rest p s size q s' := by
  have hne : p ≠ h.heapListp := hl.ne_heapListp hpro
  obtain ⟨L,fl,ha,hp⟩ := hl
  have hm := mmRealloc_plan (A := ⟨L,fl⟩) ha hp hne h0 hlt
  split at hm
  · exact Or.inl hm
  · obtain ⟨h',s',he,_,_,hM⟩ := hm
    exact Or.inr ⟨_,h',s',he,hM⟩

end Realloc

end Malloc
