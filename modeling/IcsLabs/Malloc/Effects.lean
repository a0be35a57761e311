import IcsLabs.Malloc.Arena

namespace Malloc
open Bytes Tiling

section Place

variable {h : Heap} {pre post : List Blk} {fl : List Nat} {p o size : Nat}

theorem place_split (ha : Arena h (pre ++ ⟨p,o,false⟩ :: post) fl) (hs : size % 8 = 0)
    (h16 : 16 ≤ size) (ho : size + 16 ≤ o) :
    ∃ h', place p size h = (p + (o - size),h') ∧ Effect h h' 0
      (pre ++ ⟨p,o - size,false⟩ :: ⟨p + (o - size),size,true⟩ :: post) fl := by
  have hl := ha.layout
  have hb : (⟨p,o,false⟩ : Blk) ∈ pre ++ ⟨p,o,false⟩ :: post := by simp
  have hlt := hl.size_lt hb
  obtain ⟨c1,c2,c3,c4,c5⟩ := hl.sec hb
  have hbase := hl.base.listp
  simp only at hlt c1 c2 c3 c4 c5
  have hsub : subSizeT o size = o - size := subSizeT_eq (by omega) (by omega)
  have heq : place p size h =
      (p + (o - size),stamp ⟨p + (o - size),size,true⟩ (stamp ⟨p,o - size,false⟩ h)) := by
    simp only [place,hl.hdr_size hb,hsub,dsize]
    rw [if_pos (by omega),put_tags_free (by omega) (by omega),
      stamp_nextBlkp (by omega) (by omega) (by omega) (by omega),
      put_tags_alloc hs (by omega)]
  have hl' := Layout.stamp_two (M := [⟨p,o,false⟩]) (b := ⟨p,o - size,false⟩)
    (c := ⟨p + (o - size),size,true⟩) (by simpa using hl)
    (hl.pre_ne_nil (free_ne_prologue rfl)) (by simp) ⟨rfl,by simp only [Tiles]; omega⟩ rfl
    (by simp only; omega) (by simp only; omega) hs h16
  refine ⟨_,heq,rfl,rfl,rfl,⟨hl',?_,?_,?_⟩,?_⟩
  · exact ha.free.stamp_cut hl ha.perm.subset _ _ hb hb rfl
      (by simp only; omega) (by simp only; omega) rfl (by simp only; omega)
  · have := ha.perm
    simpa [frees_cons_free,frees_cons_alloc] using this
  · obtain ⟨h1,h2,h3,h4⟩ := (coalesced_free rfl).mp ha.coalesced
    refine (coalesced_free rfl).mpr ⟨h1,?_,h3,by simp⟩
    exact (coalesced_cons_alloc rfl).mpr h2
  · exact (frame_stamp_own hl' (by simp)).trans (frame_stamp_own hl' (by simp))

theorem place_whole (ha : Arena h (pre ++ ⟨p,o,false⟩ :: post) fl) (hle : size ≤ o)
    (ho : o < size + 16) :
    ∃ h', place p size h = (p,h') ∧ Effect h h' 0 (pre ++ ⟨p,o,true⟩ :: post) (fl.erase p) := by
  have hl := ha.layout
  have hb : (⟨p,o,false⟩ : Blk) ∈ pre ++ ⟨p,o,false⟩ :: post := by simp
  have hlt := hl.size_lt hb
  have h16 := hl.size_ge hb (free_ne_prologue rfl)
  obtain ⟨c1,c2,c3,c4,c5⟩ := hl.sec hb
  have hbase := hl.base.listp
  simp only at hlt h16 c1 c2 c3 c4 c5
  have hsub : subSizeT o size = o - size := subSizeT_eq hle (by omega)
  have heq : place p size h = (p,removeFreeBlock p (stamp ⟨p,o,true⟩ h)) := by
    simp only [place,hl.hdr_size hb,hsub,dsize]
    rw [if_neg (by omega),put_tags_alloc c4 hlt]
  have hl' := Layout.stamp_one (M := [⟨p,o,false⟩]) (b := ⟨p,o,true⟩) (by simpa using hl)
    (hl.pre_ne_nil (free_ne_prologue rfl)) (by simp) ⟨rfl,rfl⟩ c4 h16
  have hfree : FreeChain (stamp ⟨p,o,true⟩ h) fl :=
    ha.free.stamp_span hl ha.perm.subset _ _ hb hb rfl rfl
  have hperm : fl.Perm (p :: frees (pre ++ ⟨p,o,true⟩ :: post)) := by
    rw [frees_append,frees_cons_alloc rfl]
    exact ha.perm.trans (perm_frees rfl)
  obtain ⟨h1,h2,_,_⟩ := (coalesced_free rfl).mp ha.coalesced
  have he := effect_remove hl' hfree hperm ((coalesced_alloc rfl).mpr ⟨h1,h2⟩)
  exact ⟨_,heq,he.after rfl rfl rfl (frame_stamp_own hl' (by simp))⟩

theorem place_effect (ha : Arena h (pre ++ ⟨p,o,false⟩ :: post) fl) (hs : size % 8 = 0)
    (h16 : 16 ≤ size) (hle : size ≤ o) :
    ∃ h', place p size h = ((Plan.place pre post fl p o size).1,h') ∧
      Effect h h' 0 (Plan.place pre post fl p o size).2.blocks
        (Plan.place pre post fl p o size).2.free := by
  by_cases hsplit : size + 16 ≤ o
  · rw [Plan.place,if_pos hsplit]
    exact place_split ha hs h16 hsplit
  · rw [Plan.place,if_neg hsplit]
    exact place_whole ha hle (by omega)

end Place

section Coalesce

variable {h : Heap} {pre post : List Blk} {q n : Blk} {fl : List Nat} {p s : Nat}

-- bp is tagged free but not yet on the free list
structure Pending (h : Heap) (pre : List Blk) (b : Blk) (post : List Blk) (fl : List Nat) :
    Prop where
  layout : Layout h (pre ++ b :: post)
  isFree : b.alloc = false
  free : FreeChain h fl
  perm : fl.Perm (frees (pre ++ post))
  before : Coalesced pre
  after : Coalesced post

namespace Pending

variable {b : Blk} {x : Nat}

theorem mem_of_mem (c : Blk) (hc : c ∈ pre ++ post) : c ∈ pre ++ b :: post := by
  simp only [List.mem_append,List.mem_cons] at hc ⊢
  tauto

theorem subset (hp : Pending h pre b post fl) : fl ⊆ frees (pre ++ b :: post) := by
  intro x hx
  obtain ⟨c,hc,hcf⟩ := mem_frees.mp (hp.perm.mem_iff.mp hx)
  exact mem_frees.mpr ⟨c,mem_of_mem c hc,hcf⟩

end Pending

theorem coalesce_none (hp : Pending h pre ⟨p,s,false⟩ post fl)
    (hprev : getAlloc h (ftrp h (prevBlkp h p)) = 1)
    (hnext : getAlloc h (hdrp (nextBlkp h p)) = 1)
    (hlast : ∀ c, pre.getLast? = some c → c.alloc = true)
    (hhead : ∀ c, post.head? = some c → c.alloc = true) :
    ∃ h', coalesce p h = (p,h') ∧ Effect h h' 0 (pre ++ ⟨p,s,false⟩ :: post) (fl ++ [p]) := by
  have heq : coalesce p h = (p,insertFreeBlock p h) := by
    simp only [coalesce,hprev,hnext]
    rfl
  refine ⟨_,heq,effect_insert hp.layout hp.free ?_ ?_⟩
  · have hperm := hp.perm.cons p
    rw [frees_append] at hperm
    exact hperm.trans (perm_frees (b := ⟨p,s,false⟩) rfl).symm
  · exact (coalesced_free rfl).mpr ⟨hp.before,hp.after,hlast,hhead⟩

-- the block and the free one after it under one tag, before the list is told
theorem Pending.join_next (hp : Pending h pre ⟨p,s,false⟩ (n :: post) fl) (hn : n.alloc = false) :
    Layout (stamp ⟨p,s + n.size,false⟩ h) (pre ++ ⟨p,s + n.size,false⟩ :: post) ∧
      FreeChain (stamp ⟨p,s + n.size,false⟩ h) fl ∧
      fl.Perm (n.addr :: (frees pre ++ frees post)) := by
  have hl := hp.layout
  have hb : (⟨p,s,false⟩ : Blk) ∈ pre ++ ⟨p,s,false⟩ :: n :: post := by simp
  have hnm : n ∈ pre ++ ⟨p,s,false⟩ :: n :: post := by simp
  have haddr : n.addr = p + s := hl.next_addr
  have h16 := hl.size_ge hb (free_ne_prologue rfl)
  obtain ⟨c1,c2,c3,c4,c5⟩ := hl.sec hb
  obtain ⟨d1,d2,d3,d4,d5⟩ := hl.sec hnm
  simp only at h16 c4
  refine ⟨?_,?_,?_⟩
  · exact Layout.stamp_one (M := [⟨p,s,false⟩,n]) (b := ⟨p,s + n.size,false⟩)
      (by simpa using hl) (hl.pre_ne_nil (free_ne_prologue rfl)) (by simp)
      ⟨rfl,haddr,by simp only [Tiles]; omega⟩ (by simp only; omega) (by simp only; omega)
  · exact hp.free.stamp_span hl hp.subset _ _ hb hnm rfl (by simp only; omega)
  · exact hp.perm.trans (perm_frees hn)

theorem coalesce_next (hp : Pending h pre ⟨p,s,false⟩ (n :: post) fl) (hn : n.alloc = false)
    (hprev : getAlloc h (ftrp h (prevBlkp h p)) = 1)
    (hlast : ∀ c, pre.getLast? = some c → c.alloc = true) :
    ∃ h', coalesce p h = (p,h') ∧
      Effect h h' 0 (pre ++ ⟨p,s + n.size,false⟩ :: post) (relink n.addr p fl) := by
  obtain ⟨hl',hfree,hperm⟩ := hp.join_next hn
  have hl := hp.layout
  have hb : (⟨p,s,false⟩ : Blk) ∈ pre ++ ⟨p,s,false⟩ :: n :: post := by simp
  have hnm : n ∈ pre ++ ⟨p,s,false⟩ :: n :: post := by simp
  have hsz := hl.hdr_size hb
  have hnz := hl.hdr_size hnm
  have hnb : nextBlkp h p = n.addr := (hl.nextBlkp_eq hb).trans hl.next_addr.symm
  have hna : getAlloc h (hdrp n.addr) = 0 := by
    rw [hl.hdr_alloc hnm,hn]
    rfl
  have hj := hl'.size_lt (b := ⟨p,s + n.size,false⟩) (by simp)
  have hj8 := (hl'.size_pos (b := ⟨p,s + n.size,false⟩) (by simp)).1
  simp only at hsz hj hj8
  have heq : coalesce p h = (p,replaceFreeBlock n.addr p (stamp ⟨p,s + n.size,false⟩ h)) := by
    simp only [coalesce,hprev,hnb,hna,hsz,hnz,sizeT_eq (by omega : s + n.size < 2 ^ 64)]
    rw [if_neg (by decide),if_pos (by decide),put_tags_free hj8 hj]
  have hco := (coalesced_cons_free hn).mp hp.after
  have he := effect_replace (q := p) hl' hfree hperm (perm_frees (b := ⟨p,_,false⟩) rfl).symm
    ((coalesced_free rfl).mpr ⟨hp.before,hco.1,hlast,hco.2⟩)
  exact ⟨_,heq,he.after rfl rfl rfl (frame_stamp_own hl' (by simp))⟩

theorem coalesce_prev (hp : Pending h (pre ++ [q]) ⟨p,s,false⟩ post fl) (hq : q.alloc = false)
    (hnext : getAlloc h (hdrp (nextBlkp h p)) = 1)
    (hhead : ∀ c, post.head? = some c → c.alloc = true) :
    ∃ h', coalesce p h = (q.addr,h') ∧
      Effect h h' 0 (pre ++ ⟨q.addr,s + q.size,false⟩ :: post) fl := by
  have hl : Layout h (pre ++ q :: ⟨p,s,false⟩ :: post) := by simpa using hp.layout
  have hb : (⟨p,s,false⟩ : Blk) ∈ pre ++ q :: ⟨p,s,false⟩ :: post := by simp
  have hqm : q ∈ pre ++ q :: ⟨p,s,false⟩ :: post := by simp
  have haddr : p = q.addr + q.size := hl.next_addr
  have hsz := hl.hdr_size hb
  have hqz := hl.hdr_size hqm
  have hpb : prevBlkp h p = q.addr := hl.prevBlkp_eq
  have hpa : getAlloc h (ftrp h q.addr) = 0 := by
    rw [hl.ftrp_eq hqm,hl.ftr_alloc hqm,hq]
    rfl
  have h16 := hl.size_ge hb (free_ne_prologue rfl)
  have hq16 := hl.size_ge hqm (free_ne_prologue hq)
  obtain ⟨c1,c2,c3,c4,c5⟩ := hl.sec hb
  obtain ⟨d1,d2,d3,d4,d5⟩ := hl.sec hqm
  have hbase := hl.base.listp
  have hspan := hl.base.span
  simp only at h16 c1 c2 c3 c4 c5 hsz
  have heq : coalesce p h = (q.addr,stamp ⟨q.addr,s + q.size,false⟩ h) := by
    simp only [coalesce,hpa,hnext,hsz,hpb,hqz,sizeT_eq (by omega : s + q.size < 2 ^ 64)]
    rw [if_neg (by decide),if_neg (by decide),if_pos (by decide),
      put_tags_free (by omega) (by omega)]
  have hl' := Layout.stamp_one (M := [q,⟨p,s,false⟩]) (b := ⟨q.addr,s + q.size,false⟩)
    (by simpa using hl) (hl.pre_ne_nil (free_ne_prologue hq)) (by simp)
    ⟨rfl,haddr,by simp only [Tiles]; omega⟩ (by simp only; omega) (by simp only; omega)
  refine ⟨_,heq,rfl,rfl,rfl,⟨hl',?_,?_,?_⟩,?_⟩
  · exact hp.free.stamp_span hp.layout hp.subset q ⟨p,s,false⟩ (by simp) (by simp) rfl
      (by simp only; omega)
  · have := hp.perm
    simp only [frees_append,frees_cons_free hq,frees_nil] at this
    simpa [frees_cons_free] using this
  · have hbef := (coalesced_free hq).mp hp.before
    exact (coalesced_free rfl).mpr ⟨hbef.1,hp.after,hbef.2.2.1,hhead⟩
  · exact frame_stamp_own hl' (by simp)

theorem coalesce_both (hp : Pending h (pre ++ [q]) ⟨p,s,false⟩ (n :: post) fl)
    (hq : q.alloc = false) (hn : n.alloc = false) :
    ∃ h', coalesce p h = (q.addr,h') ∧
      Effect h h' 0 (pre ++ ⟨q.addr,s + (q.size + n.size),false⟩ :: post) (fl.erase n.addr) := by
  have hl : Layout h (pre ++ q :: ⟨p,s,false⟩ :: n :: post) := by simpa using hp.layout
  have hlb : Layout h ((pre ++ [q]) ++ ⟨p,s,false⟩ :: n :: post) := hp.layout
  have hb : (⟨p,s,false⟩ : Blk) ∈ pre ++ q :: ⟨p,s,false⟩ :: n :: post := by simp
  have hqm : q ∈ pre ++ q :: ⟨p,s,false⟩ :: n :: post := by simp
  have hnm : n ∈ pre ++ q :: ⟨p,s,false⟩ :: n :: post := by simp
  have haddr : p = q.addr + q.size := hl.next_addr
  have hnaddr : n.addr = p + s := hlb.next_addr
  have hsz := hl.hdr_size hb
  have hqz := hl.hdr_size hqm
  have hnz := hl.ftr_size hnm
  have hpb : prevBlkp h p = q.addr := hl.prevBlkp_eq
  have hpa : getAlloc h (ftrp h q.addr) = 0 := by
    rw [hl.ftrp_eq hqm,hl.ftr_alloc hqm,hq]
    rfl
  have hnb : nextBlkp h p = n.addr := (hl.nextBlkp_eq hb).trans hnaddr.symm
  have hna : getAlloc h (hdrp n.addr) = 0 := by
    rw [hl.hdr_alloc hnm,hn]
    rfl
  have hnf := hl.ftrp_eq hnm
  have h16 := hl.size_ge hb (free_ne_prologue rfl)
  have hq16 := hl.size_ge hqm (free_ne_prologue hq)
  have hn16 := hl.size_ge hnm (free_ne_prologue hn)
  obtain ⟨c1,c2,c3,c4,c5⟩ := hl.sec hb
  obtain ⟨d1,d2,d3,d4,d5⟩ := hl.sec hqm
  obtain ⟨e1,e2,e3,e4,e5⟩ := hl.sec hnm
  have hbase := hl.base.listp
  have hspan := hl.base.span
  simp only at h16 c1 c2 c3 c4 c5 hsz
  have hend : n.addr + n.size = q.addr + (s + (q.size + n.size)) := by
    rw [hnaddr,haddr]
    ring
  have hadd : addUInt q.size n.size = q.size + n.size := Nat.mod_eq_of_lt (by omega)
  have hftr : ftrp (h.put (hdrp q.addr) (s + (q.size + n.size))) n.addr = n.addr + n.size - 8 := by
    have : getSize (h.put (hdrp q.addr) (s + (q.size + n.size))) (hdrp n.addr) = n.size := by
      rw [← hl.hdr_size hnm,getSize,getSize,get_put_apart (by simp only [hdrp,wsize]; omega)]
    rw [ftrp,this,dsize]
  have heq : coalesce p h =
      (q.addr,removeFreeBlock n.addr (stamp ⟨q.addr,s + (q.size + n.size),false⟩ h)) := by
    simp only [coalesce,hpa,hnb,hna,hsz,hpb,hqz,hnf,hnz,hadd,pack_zero,
      sizeT_eq (by omega : s + (q.size + n.size) < 2 ^ 64)]
    rw [if_neg (by decide),if_neg (by decide),if_neg (by decide),hftr]
    simp only [stamp,Blk.tag,Bool.toNat_false,hdrp,wsize,Nat.add_zero]
    rw [hend]
  have hl' := Layout.stamp_one (M := [q,⟨p,s,false⟩,n])
    (b := ⟨q.addr,s + (q.size + n.size),false⟩) (by simpa using hl)
    (hl.pre_ne_nil (free_ne_prologue hq)) (by simp)
    ⟨rfl,haddr,by simp only; omega,by simp only [Tiles]; omega⟩ (by simp only; omega)
    (by simp only; omega)
  have hfree : FreeChain (stamp ⟨q.addr,s + (q.size + n.size),false⟩ h) fl :=
    hp.free.stamp_span hp.layout hp.subset q n (by simp) (by simp) rfl hend.symm
  have hbef := (coalesced_free hq).mp hp.before
  have haft := (coalesced_cons_free hn).mp hp.after
  have hperm : fl.Perm (n.addr :: frees (pre ++ ⟨q.addr,s + (q.size + n.size),false⟩ :: post)) := by
    have := hp.perm
    simp only [frees_append,frees_cons_free hq,frees_cons_free hn,frees_nil] at this
    simpa [frees_cons_free] using this.trans List.perm_middle
  have he := effect_remove hl' hfree hperm
    ((coalesced_free rfl).mpr ⟨hbef.1,haft.1,hbef.2.2.1,haft.2⟩)
  exact ⟨_,heq,he.after rfl rfl rfl (frame_stamp_own hl' (by simp))⟩

theorem coalesce_spec (hp : Pending h pre ⟨p,s,false⟩ post fl) (hne : pre ≠ []) :
    ∃ bp h', coalesce p h = (bp,h') ∧
      Effect h h' 0 (Plan.merge pre post fl ⟨p,s,false⟩).blocks
        (Plan.merge pre post fl ⟨p,s,false⟩).free ∧
      ∃ m ∈ (Plan.merge pre post fl ⟨p,s,false⟩).blocks,
        m.alloc = false ∧ m.addr ≤ p ∧ p + s ≤ m.addr + m.size := by
  obtain ⟨pre,q,rfl⟩ : ∃ pre' q, pre = pre' ++ [q] :=
    ⟨pre.dropLast,pre.getLast hne,(List.dropLast_concat_getLast hne).symm⟩
  have hl : Layout h (pre ++ q :: ⟨p,s,false⟩ :: post) := by simpa using hp.layout
  have hprev : getAlloc h (ftrp h (prevBlkp h p)) = q.alloc.toNat := hl.prev_alloc
  have haddr : p = q.addr + q.size := hl.next_addr
  have hlast (hq : q.alloc = true) : ∀ c, (pre ++ [q]).getLast? = some c → c.alloc = true := by
    intro c hc
    obtain rfl : q = c := by simpa using hc
    exact hq
  simp only [Plan.merge,List.getLast?_concat,List.dropLast_concat]
  cases post with
  | nil =>
    have hnext : getAlloc h (hdrp (nextBlkp h p)) = 1 := hp.layout.next_alloc_nil
    have hnone : freeBlk ([] : List Blk).head? = none := rfl
    cases hq : q.alloc with
    | true =>
      rw [hq] at hprev
      rw [freeBlk_alloc hq,hnone]
      obtain ⟨h',he,hE⟩ := coalesce_none hp hprev hnext (hlast hq) (by simp)
      exact ⟨p,h',he,hE,⟨p,s,false⟩,by simp,rfl,Nat.le_refl _,Nat.le_refl _⟩
    | false =>
      rw [freeBlk_free hq,hnone]
      obtain ⟨h',he,hE⟩ := coalesce_prev hp hq hnext (by simp)
      exact ⟨q.addr,h',he,hE,⟨q.addr,s + q.size,false⟩,by simp,rfl,by simp only; omega,
        by simp only; omega⟩
  | cons n post =>
    have hnext : getAlloc h (hdrp (nextBlkp h p)) = n.alloc.toNat := hp.layout.next_alloc_cons
    have hhead (hn : n.alloc = true) : ∀ c, (n :: post).head? = some c → c.alloc = true := by
      intro c hc
      obtain rfl : n = c := by simpa using hc
      exact hn
    rw [List.head?_cons,List.tail_cons]
    cases hq : q.alloc with
    | true =>
      rw [hq] at hprev
      rw [freeBlk_alloc hq]
      cases hn : n.alloc with
      | true =>
        rw [hn] at hnext
        rw [freeBlk_alloc hn]
        obtain ⟨h',he,hE⟩ := coalesce_none hp hprev hnext (hlast hq) (hhead hn)
        exact ⟨p,h',he,hE,⟨p,s,false⟩,by simp,rfl,Nat.le_refl _,Nat.le_refl _⟩
      | false =>
        rw [freeBlk_free hn]
        obtain ⟨h',he,hE⟩ := coalesce_next hp hn hprev (hlast hq)
        exact ⟨p,h',he,hE,⟨p,s + n.size,false⟩,by simp,rfl,Nat.le_refl _,by simp only; omega⟩
    | false =>
      rw [freeBlk_free hq]
      cases hn : n.alloc with
      | true =>
        rw [hn] at hnext
        rw [freeBlk_alloc hn]
        obtain ⟨h',he,hE⟩ := coalesce_prev hp hq hnext (hhead hn)
        exact ⟨q.addr,h',he,hE,⟨q.addr,s + q.size,false⟩,by simp,rfl,by simp only; omega,
          by simp only; omega⟩
      | false =>
        rw [freeBlk_free hn]
        obtain ⟨h',he,hE⟩ := coalesce_both hp hq hn
        exact ⟨q.addr,h',he,hE,⟨q.addr,s + (q.size + n.size),false⟩,by simp,rfl,by simp only; omega,
          by simp only; omega⟩

end Coalesce

section Free

variable {h : Heap} {pre post : List Blk} {fl : List Nat} {p s : Nat}

theorem Arena.pending (ha : Arena h (pre ++ ⟨p,s,true⟩ :: post) fl) (hp : p ≠ h.heapListp) :
    Pending (stamp ⟨p,s,false⟩ h) pre ⟨p,s,false⟩ post fl := by
  have hl := ha.layout
  have hb : (⟨p,s,true⟩ : Blk) ∈ pre ++ ⟨p,s,true⟩ :: post := by simp
  have hpro : (⟨p,s,true⟩ : Blk) ≠ prologue h := fun e => hp (congrArg Blk.addr e)
  have hl' := Layout.stamp_one (M := [⟨p,s,true⟩]) (b := ⟨p,s,false⟩) (by simpa using hl)
    (hl.pre_ne_nil hpro) (by simp) ⟨rfl,rfl⟩ (hl.sec hb).sz
    (hl.size_ge (b := ⟨p,s,true⟩) hb hpro)
  obtain ⟨h1,h2⟩ := (coalesced_alloc rfl).mp ha.coalesced
  exact ⟨hl',rfl,ha.free.stamp_span hl ha.perm.subset _ _ hb hb rfl rfl,
    by simpa [frees_cons_alloc] using ha.perm,h1,h2⟩

theorem mmFree_spec (ha : Arena h (pre ++ ⟨p,s,true⟩ :: post) fl) (hp : p ≠ h.heapListp) :
    Effect h (mmFree p h) 0 (Plan.merge pre post fl ⟨p,s,false⟩).blocks
      (Plan.merge pre post fl ⟨p,s,false⟩).free := by
  have hl := ha.layout
  have hb : (⟨p,s,true⟩ : Blk) ∈ pre ++ ⟨p,s,true⟩ :: post := by simp
  have hpro : (⟨p,s,true⟩ : Blk) ≠ prologue h := fun e => hp (congrArg Blk.addr e)
  have hlt := hl.size_lt hb
  obtain ⟨c1,c2,c3,c4,c5⟩ := hl.sec hb
  have hbase := hl.base.listp
  have hsz := hl.hdr_size hb
  simp only at hlt c1 c4 c5 hsz
  obtain ⟨bp,h',he,hE,m,hm,hmf,hlo,hhi⟩ := coalesce_spec (ha.pending hp) (hl.pre_ne_nil hpro)
  simp only [mmFree,hsz,put_tags_free c4 hlt,he]
  refine hE.after rfl rfl rfl ?_
  exact frame_stamp hE.arena.layout (by simp only; omega) hm hlo hhi c5 (Or.inl hmf)

end Free

end Malloc
