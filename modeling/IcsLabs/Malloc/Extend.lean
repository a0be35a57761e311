import IcsLabs.Malloc.Effects

namespace Malloc
open Bytes Tiling

-- the heap after mem_sbrk, b stamped over the old epilogue and a new epilogue written
def extended (h : Heap) (b : Blk) (size : Nat) : Heap :=
  (stamp b { h with memBrk := h.memBrk + size }).put (h.memBrk + size - 4) 1

section Extended

variable {h : Heap} {pre M : List Blk} {b : Blk} {fl : List Nat} {k : Nat}

theorem extended_layout (hl : Layout h (pre ++ M)) (hpre : pre ≠ [])
    (hp : Tiles Blk.addr Blk.size h.heapListp pre b.addr)
    (hend : b.addr + b.size = h.memBrk + k)
    (hs : b.size % 8 = 0) (h16 : 16 ≤ b.size) (hmax : h.memBrk + k ≤ h.memMaxAddr) :
    Layout (extended h b k) (pre ++ [b]) := by
  have hle := tiles_le hp
  have hbase := hl.base.listp
  have hstart := hl.listp
  have hfit := h.storage.fits
  have hm := h.storage.max
  simp only [Heap.memMaxAddr,Heap.memStartBrk,maxHeap] at hmax hstart hfit hm
  refine hl.grow hpre (k := k) hp ⟨rfl,hend⟩ rfl rfl rfl hmax ?_ ?_ ?_ ?_
  · intro x hx
    by_contra hc
    refine hx ?_
    rw [extended,put_mem_apart (by omega),stamp_mem (by omega) (by omega) (by omega)]
  · intro c hc
    obtain rfl : c = b := by simpa using hc
    exact ⟨hs,h16⟩
  · intro c hc
    obtain rfl : c = b := by simpa using hc
    obtain ⟨t1,t2⟩ := stamp_tagged (h := { h with memBrk := h.memBrk + k }) (b := c) (by omega) hs
      (by omega) (by omega)
    exact ⟨by rw [extended,get_put_apart (by omega),t1],by rw [extended,get_put_apart (by omega),t2]⟩
  · exact get_put_same _ _ _

theorem extended_frame (hl : Layout (extended h b k) (pre ++ [b]))
    (hend : b.addr + b.size = h.memBrk + k) (h8 : 8 ≤ b.addr) (h16 : 16 ≤ b.size) :
    Frame h (extended h b k) (pre ++ [b]) := by
  have f1 : Frame h (stamp b { h with memBrk := h.memBrk + k }) (pre ++ [b]) :=
    frame_stamp (h := { h with memBrk := h.memBrk + k }) hl h8 (m := b) (by simp) (Nat.le_refl _)
      (Nat.le_refl _) (by omega) (Or.inr rfl)
  refine f1.trans fun x hx c hc hca hin => ?_
  have hx' : h.memBrk + k ≤ x + 4 := by
    by_contra hcon
    exact hx (put_mem_apart (by omega))
  have := (hl.sec hc).hi
  have hbrk : (extended h b k).memBrk = h.memBrk + k := rfl
  have := hin.2
  omega

theorem extended_free (hc : FreeChain h fl) (h8 : 8 ≤ b.addr)
    (hend : b.addr + b.size = h.memBrk + k) (h16 : 16 ≤ b.size)
    (hd : ∀ p ∈ fl, p + 12 ≤ b.addr ∨ p = b.addr) : FreeChain (extended h b k) fl := by
  have hgrow : FreeChain { h with memBrk := h.memBrk + k } fl := ⟨hc.listp,hc.chain,fun p hp =>
    ⟨(hc.node p hp).aligned,(hc.node p hp).above,(hc.node p hp).index,(hc.node p hp).fits⟩⟩
  have hst : FreeChain (stamp b { h with memBrk := h.memBrk + k }) fl :=
    hgrow.stamp h8 fun p hp => by
      have := hd p hp
      omega
  refine hst.congr ⟨rfl,rfl,rfl⟩ rfl rfl fun p hp x hx hx' => put_mem_apart ?_
  have := hd p hp
  omega

end Extended

section ExtendHeap

variable {h : Heap} {L : List Blk} {fl : List Nat} {size words : Nat}

theorem extendHeap_fail (hw : words * 4 = size) (hlt : size < 2 ^ 32)
    (hfit : 2 ^ 31 ≤ size ∨ h.memMaxAddr < h.memBrk + size) : extendHeap words h = (0,h) := by
  have hsz : sizeT (words * wsize) = size := by rw [wsize,hw,sizeT_eq (by omega)]
  rw [extendHeap]
  dsimp only
  rw [hsz,memSbrk_fail hlt hfit]
  exact if_pos rfl

theorem extendHeap_eq {pre : List Blk} {q : Blk} (hl : Layout h (pre ++ [q]))
    (hw : words * 4 = size) (hs : size % 8 = 0) (h16 : 16 ≤ size) (hlt : size < 2 ^ 31)
    (hfit : h.memBrk + size ≤ h.memMaxAddr) :
    extendHeap words h = if q.alloc = true then
      (h.memBrk,insertFreeBlock h.memBrk (extended h ⟨h.memBrk,size,false⟩ size))
    else (q.addr,extended h ⟨q.addr,size + q.size,false⟩ size) := by
  have hqm : q ∈ pre ++ [q] := by simp
  have hlast := hl.last_addr
  obtain ⟨c1,c2,c3,c4,c5⟩ := hl.sec hqm
  obtain ⟨b1,b2,b3,b4,b5,b6⟩ := hl.base
  have hprev : prevBlkp { h with memBrk := h.memBrk + size } h.memBrk = q.addr := by
    have : getSize { h with memBrk := h.memBrk + size } (h.memBrk - dsize) = q.size := by
      rw [← hlast]
      exact hl.ftr_size hqm
    rw [prevBlkp,this]
    omega
  have hqa : getAlloc { h with memBrk := h.memBrk + size } (hdrp q.addr) = q.alloc.toNat :=
    hl.hdr_alloc hqm
  have hqs : getSize { h with memBrk := h.memBrk + size } (hdrp q.addr) = q.size := hl.hdr_size hqm
  have hbrk : h.memBrk ≠ sbrkFailed := by
    rw [sbrkFailed]
    omega
  have hsz : sizeT (words * wsize) = size := by
    rw [wsize,hw,sizeT_eq (by omega)]
  rw [extendHeap]
  dsimp only
  rw [hsz,memSbrk_ok hlt hfit]
  cases hqb : q.alloc with
  | true =>
    simp only [if_neg hbrk,hprev,hqa,hqb]
    rw [if_pos (by decide),put_tags_free hs (by omega),
      stamp_nextBlkp (by omega) hs (by omega) (by omega)]
    rfl
  | false =>
    have hq16 := hl.size_ge hqm (free_ne_prologue hqb)
    have hadd : sizeT (size + q.size) = size + q.size := sizeT_eq (by omega)
    simp only [if_neg hbrk,hprev,hqa,hqb,hqs,hadd]
    rw [if_neg (by decide),put_tags_free (by omega) (by omega),
      stamp_nextBlkp (by omega) (by omega) (by omega) (by omega)]
    rw [show q.addr + (size + q.size) = h.memBrk + size by omega]
    rfl

theorem extended_behind {pre : List Blk} {q : Blk} (ha : Arena h (pre ++ [q]) fl)
    (hqb : q.alloc = true) (hs : size % 8 = 0) (h16 : 16 ≤ size)
    (hfit : h.memBrk + size ≤ h.memMaxAddr) :
    Effect h (insertFreeBlock h.memBrk (extended h ⟨h.memBrk,size,false⟩ size)) size
      (pre ++ [q] ++ [⟨h.memBrk,size,false⟩]) (fl ++ [h.memBrk]) := by
  have hl := ha.layout
  have hqm : q ∈ pre ++ [q] := by simp
  have hl' := extended_layout (M := []) (b := ⟨h.memBrk,size,false⟩) (k := size)
    (by simpa using hl) (by simp) hl.tiles rfl hs h16 hfit
  have hd : ∀ p ∈ fl, p + 12 ≤ h.memBrk ∨ p = h.memBrk := by
    intro p hp
    obtain ⟨c,hc,hcf,rfl⟩ := mem_frees.mp (ha.perm.mem_iff.mp hp)
    have := (hl.sec hc).hi
    have := hl.size_ge hc (free_ne_prologue hcf)
    omega
  have hlast := hl.last_addr
  have hlo := hl.base.listp
  have := (hl.sec hqm).lo
  have hfree := extended_free (b := ⟨h.memBrk,size,false⟩) (k := size) ha.free
    (by simp only; omega) rfl h16 hd
  have hperm : (h.memBrk :: fl).Perm (frees (pre ++ [q] ++ [⟨h.memBrk,size,false⟩])) := by
    rw [frees_append,frees_cons_free rfl,frees_nil]
    exact (List.perm_append_singleton _ _).symm.trans (ha.perm.append_right _)
  have hco : Coalesced (pre ++ [q] ++ [⟨h.memBrk,size,false⟩]) := by
    refine (coalesced_free rfl).mpr ⟨ha.coalesced,by simp [Coalesced],fun c hc => ?_,by simp⟩
    obtain rfl : q = c := by simpa using hc
    exact hqb
  exact (effect_insert hl' hfree hperm hco).after rfl rfl rfl
    (extended_frame hl' rfl (by simp only; omega) h16)

theorem extended_merged {pre : List Blk} {q : Blk} (ha : Arena h (pre ++ [q]) fl)
    (hqb : q.alloc = false) (hs : size % 8 = 0) (h16 : 16 ≤ size) (hlt : size < 2 ^ 31)
    (hfit : h.memBrk + size ≤ h.memMaxAddr) :
    Effect h (extended h ⟨q.addr,size + q.size,false⟩ size) size
      (pre ++ [⟨q.addr,size + q.size,false⟩]) fl := by
  have hl := ha.layout
  have hqm : q ∈ pre ++ [q] := by simp
  have hlast := hl.last_addr
  obtain ⟨c1,c2,c3,c4,c5⟩ := hl.sec hqm
  have hlo := hl.base.listp
  have hq16 := hl.size_ge hqm (free_ne_prologue hqb)
  have hl' := extended_layout (M := [q]) (b := ⟨q.addr,size + q.size,false⟩) (k := size)
    hl (hl.pre_ne_nil (free_ne_prologue hqb)) (tiles_around hl.tiles).1
    (by simp only; omega) (by simp only; omega) (by simp only; omega) hfit
  have hd : ∀ p ∈ fl, p + 12 ≤ q.addr ∨ p = q.addr := by
    intro p hp
    obtain ⟨c,hc,hcf,rfl⟩ := mem_frees.mp (ha.perm.mem_iff.mp hp)
    have := (hl.sec hc).hi
    have := hl.size_ge hc (free_ne_prologue hcf)
    rcases hl.apart hc hqm with rfl | h1 | h1 <;> omega
  have hfree := extended_free (b := ⟨q.addr,size + q.size,false⟩) (k := size) ha.free
    (by simp only; omega) (by simp only; omega) (by simp only; omega) hd
  refine ⟨rfl,rfl,rfl,⟨hl',hfree,?_,?_⟩,?_⟩
  · have hperm := ha.perm
    rw [frees_append,frees_cons_free hqb] at hperm
    rw [frees_append,frees_cons_free rfl]
    exact hperm
  · exact (coalesced_free rfl).mpr ((coalesced_free hqb).mp ha.coalesced)
  · exact extended_frame hl' (by simp only; omega) (by simp only; omega) (by simp only; omega)

theorem extendHeap_spec {A : Plan} (ha : Arena h A.blocks A.free) (hw : words * 4 = size)
    (hs : size % 8 = 0) (h16 : 16 ≤ size) (hlt : size < 2 ^ 31)
    (hfit : h.memBrk + size ≤ h.memMaxAddr) :
    ∃ h', extendHeap words h = ((A.extend size).last.addr,h') ∧
      Effect h h' size (A.extend size).blocks (A.extend size).free := by
  obtain ⟨L,fl⟩ := A
  have hne : L ≠ [] := ha.layout.ne_nil
  obtain ⟨pre,q,rfl⟩ : ∃ pre q, L = pre ++ [q] :=
    ⟨L.dropLast,L.getLast hne,(List.dropLast_concat_getLast hne).symm⟩
  have hlq : (⟨pre ++ [q],fl⟩ : Plan).last = q := by simp [Plan.last]
  have heq := extendHeap_eq ha.layout hw hs h16 hlt hfit
  cases hqb : q.alloc with
  | true =>
    have hx : (⟨pre ++ [q],fl⟩ : Plan).extend size =
        ⟨pre ++ [q] ++ [⟨h.memBrk,size,false⟩],fl ++ [h.memBrk]⟩ := by
      rw [Plan.extend,hlq,if_pos hqb,Plan.brk,hlq,ha.layout.last_addr]
    have hxl : ((⟨pre ++ [q],fl⟩ : Plan).extend size).last.addr = h.memBrk := by
      simp [hx,Plan.last]
    rw [hxl,hx]
    exact ⟨_,heq.trans (if_pos hqb),extended_behind ha hqb hs h16 hfit⟩
  | false =>
    have hx : (⟨pre ++ [q],fl⟩ : Plan).extend size = ⟨pre ++ [⟨q.addr,size + q.size,false⟩],fl⟩ := by
      rw [Plan.extend,hlq,if_neg (by simp [hqb]),List.dropLast_concat]
    have hxl : ((⟨pre ++ [q],fl⟩ : Plan).extend size).last.addr = q.addr := by
      simp [hx,Plan.last]
    rw [hxl,hx]
    exact ⟨_,heq.trans (if_neg (by simp [hqb])),extended_merged ha hqb hs h16 hlt hfit⟩

end ExtendHeap

end Malloc
