import IcsLabs.Malloc.InPlace
import IcsLabs.Malloc.Logged

namespace Malloc
open Bytes Tiling Linked

-- the link words at p and at q
def Apart (p q : Nat) : Prop := p + 8 ≤ q ∨ q + 8 ≤ p

def Request.Misses (r : Request) (p : Nat) : Prop := p + 8 ≤ r.ptr ∨ r.ptr + r.size ≤ p

structure Relocates (live : List Request) (r : Relocation) : Prop where
  apart : Apart r.old r.new
  payloads : ∀ q ∈ live, q.Misses r.old ∧ q.Misses r.new
  moves : ∃ xs ys, FreeChain r.heap (xs ++ r.old :: ys) ∧
    (∀ p ∈ xs ++ ys, Apart p r.old ∧ Apart p r.new) ∧
    FreeChain (replaceFreeBlock r.old r.new r.heap) (xs ++ r.new :: ys) ∧
    LinkEdit r.heap (replaceFreeBlock r.old r.new r.heap) (xs ++ r.new :: ys)

-- what of r's payload has to survive its move to q: in place, the bytes that were there
def Request.resized (r : Request) (q n : Nat) : Request :=
  ⟨q,if q = r.ptr then min r.size n else n⟩

-- each request has one of the blocks, with room for its payload
def Kept (bs : List Blk) (live : List Request) : Prop :=
  ∀ r ∈ live, ∃ s, (⟨r.ptr,s,true⟩ : Blk) ∈ bs ∧ r.size + 8 ≤ s

section Kept

variable {bs bs' pre post : List Blk} {live : List Request} {b : Blk} {p s n : Nat}

theorem Kept.mono (hk : Kept bs live) (hs : ∀ b ∈ bs, b.alloc = true → b ∈ bs') :
    Kept bs' live := fun r hr => by
  obtain ⟨s,hb,hle⟩ := hk r hr
  exact ⟨s,hs _ hb rfl,hle⟩

theorem Kept.cons (hk : Kept bs live) (hp : (⟨p,s,true⟩ : Blk) ∈ bs) (hn : n + 8 ≤ s) :
    Kept bs (⟨p,n⟩ :: live) := by
  intro r hr
  rcases List.mem_cons.mp hr with rfl | hr
  · exact ⟨s,hp,hn⟩
  · exact hk r hr

theorem Kept.skip (hk : Kept (pre ++ b :: post) live) (hb : b.alloc = false) :
    Kept (pre ++ post) live := by
  refine hk.mono fun c hc hca => ?_
  simp only [List.mem_append,List.mem_cons] at hc ⊢
  rcases hc with hc | rfl | hc
  · exact .inl hc
  · simp [hb] at hca
  · exact .inr hc

theorem Kept.insert (hk : Kept (pre ++ post) live) (bs : List Blk) :
    Kept (pre ++ (bs ++ post)) live := by
  refine hk.mono fun c hc _ => ?_
  simp only [List.mem_append] at hc ⊢
  exact hc.imp_right .inr

end Kept

section Place

variable {h : Heap} {L pre post : List Blk} {fl F : List Nat} {live : List Request} {b : Blk}
  {old new : Nat}

theorem Layout.next_free (hl : Layout h (pre ++ b :: post))
    (h0 : getAlloc h (hdrp (nextBlkp h b.addr)) = 0) :
    ∃ n rest, post = n :: rest ∧ n.alloc = false ∧ nextBlkp h b.addr = n.addr := by
  cases post with
  | nil => exact absurd (hl.next_alloc_nil.symm.trans h0) (by decide)
  | cons n rest =>
    exact ⟨n,rest,rfl,toNat_eq_zero.mp (hl.next_alloc_cons.symm.trans h0),
      (hl.nextBlkp_eq (by simp)).trans hl.next_addr.symm⟩

theorem Layout.relocates (hl : Layout h L) (hc : FreeChain h fl) (hp : fl.Perm (old :: F))
    (hF : (b.addr :: F).Perm (frees L)) (hk : Kept L live) (hb : b ∈ L) (hf : b.alloc = false)
    (ho : b.addr ≤ old ∧ old + 8 ≤ b.addr + b.size)
    (hn : b.addr ≤ new ∧ new + 8 ≤ b.addr + b.size) (h8 : new % 8 = 0) (hap : Apart old new) :
    Relocates live ⟨old,new,h⟩ := by
  obtain ⟨xs,ys,rfl⟩ := List.append_of_mem (hp.mem_iff.mpr (by simp : old ∈ old :: F))
  have hrest : (xs ++ ys).Perm F := (List.perm_middle.symm.trans hp).cons_inv
  have hnd := List.nodup_cons.mp (hF.nodup_iff.mpr hl.frees_nodup)
  -- another free block lies on one side of b
  have hclear : ∀ q ∈ xs ++ ys, q + 16 ≤ b.addr ∨ b.addr + b.size ≤ q := by
    intro q hq
    have hqF := hrest.mem_iff.mp hq
    have hqL : q ∈ frees L := hF.mem_iff.mp (List.mem_cons_of_mem _ hqF)
    refine (hl.off_block (List.Subset.refl _) hqL hb).resolve_left fun he => ?_
    exact hnd.1 (he.1 ▸ hqF)
  have hnode := hl.node hb (free_ne_prologue hf)
  have h32 := (hl.sec hb).hi
  have hspan := hl.base.span
  have hfits := hl.base.fits
  have hab := hnode.above
  have hnew : Node h new := ⟨h8,by omega,by omega,by omega⟩
  obtain ⟨hc',he⟩ := hc.replace hnew fun hq => by
    have := hclear _ hq
    omega
  refine ⟨hap,fun q hq => ?_,xs,ys,hc,fun q hq => ?_,hc',he⟩
  · obtain ⟨s,hs,hle⟩ := hk q hq
    simp only [Request.Misses]
    rcases hl.apart hb hs with rfl | h1 | h1
    · simp at hf
    · simp only at h1
      omega
    · simp only at h1
      omega
  · have := hclear q hq
    simp only [Apart]
    omega

end Place

namespace Logged

section Free

variable {h : Heap} {pre post rest : List Blk} {n : Blk} {fl : List Nat} {live : List Request}
  {p s : Nat}

theorem coalesce_relocates (hp : Pending h pre ⟨p,s,false⟩ post fl)
    (hk : Kept (pre ++ post) live) : (coalesce p h).All (Relocates live) := by
  have hl := hp.layout
  refine Traced.all_ite (fun _ => Traced.all_pure _) fun _ => Traced.all_ite (fun hc => ?_)
    fun _ => Traced.all_ite (fun _ => Traced.all_pure _) fun _ => Traced.all_pure _
  obtain ⟨n,post,rfl,hn,hnb⟩ := hl.next_free hc.2
  obtain ⟨hl',hfree,hperm⟩ := hp.join_next hn
  have hb : (⟨p,s,false⟩ : Blk) ∈ pre ++ ⟨p,s,false⟩ :: n :: post := by simp
  have hnm : n ∈ pre ++ ⟨p,s,false⟩ :: n :: post := by simp
  have hm : (⟨p,s + n.size,false⟩ : Blk) ∈ pre ++ ⟨p,s + n.size,false⟩ :: post := by simp
  have haddr : n.addr = p + s := hl.next_addr
  have hsz := hl.hdr_size hb
  have hj := hl'.size_lt hm
  have hj8 := (hl'.size_pos hm).1
  have h16 := hl.size_ge hb (free_ne_prologue rfl)
  have hn16 := hl.size_ge hnm (free_ne_prologue hn)
  have h8 := (hl.sec hb).al
  simp only at hsz hj hj8 h16 h8 hnb
  refine (Traced.all_bind _ _).mpr ⟨?_,Traced.all_pure _⟩
  simp only [replaceFreeBlock,hnb,hsz,hl.hdr_size hnm,sizeT_eq (by omega : s + n.size < 2 ^ 64),
    put_tags_free hj8 hj,Traced.all_mk]
  exact hl'.relocates hfree hperm (perm_frees (b := ⟨p,_,false⟩) rfl).symm
    ((hk.skip hn).insert [_]) hm rfl ⟨by simp only; omega,by simp only; omega⟩
    ⟨by simp only; omega,by simp only; omega⟩ h8 (Or.inr (by omega))

theorem mmFree_relocates (hl : Lent h (⟨p,s,true⟩ :: rest)) (hp : p ≠ h.heapListp)
    (hk : Kept rest live) : (mmFree p h).All (Relocates live) := by
  obtain ⟨_,pre,post,fl,ha,hperm⟩ := hl.split
  have hb : (⟨p,s,true⟩ : Blk) ∈ pre ++ ⟨p,s,true⟩ :: post := by simp
  have hsz := ha.layout.hdr_size hb
  have hlt := ha.layout.size_lt hb
  have h8 := (ha.layout.sec hb).sz
  simp only at hsz hlt h8
  refine (Traced.all_bind _ _).mpr ⟨?_,Traced.all_pure _⟩
  rw [hsz,put_tags_free h8 hlt]
  refine coalesce_relocates (ha.pending hp) (hk.mono fun b hb _ => ?_)
  have := hperm.mem_iff.mpr hb
  rw [← allocs_append] at this
  exact (mem_allocs.mp this).1

end Free

section Realloc

variable {h : Heap} {pre post rest : List Blk} {n : Blk} {fl : List Nat} {live : List Request}
  {p s a m size : Nat}

theorem reallocShrink_relocates (ha : Arena h (pre ++ ⟨p,s,true⟩ :: post) fl)
    (hp : p ≠ h.heapListp) (h8 : a % 8 = 0) (h16 : 16 ≤ a) (hs : a + 16 ≤ s)
    (hk : Kept (pre ++ post) live) (hm : m + 8 ≤ a) :
    (reallocShrink p a s h).All (Relocates (⟨p,m⟩ :: live)) := by
  have hl := ha.layout
  refine Traced.all_ite (fun hc => ?_) fun _ => Traced.all_pure _
  obtain ⟨n,post,rfl,hn,-⟩ := hl.next_free hc
  obtain ⟨hl',hfree,hperm⟩ := ha.cut_next hp h8 h16 hs hn
  obtain ⟨hnb,_,htag,hnew,hsize,htag'⟩ := shrink_next_eq ha h8 h16 hs hn
  have hb : (⟨p,s,true⟩ : Blk) ∈ pre ++ ⟨p,s,true⟩ :: n :: post := by simp
  have hnm : n ∈ pre ++ ⟨p,s,true⟩ :: n :: post := by simp
  have hbm : (⟨p,a,true⟩ : Blk) ∈
    pre ++ ⟨p,a,true⟩ :: ⟨p + a,s - a + n.size,false⟩ :: post := by simp
  have hcm : (⟨p + a,s - a + n.size,false⟩ : Blk) ∈
    pre ++ ⟨p,a,true⟩ :: ⟨p + a,s - a + n.size,false⟩ :: post := by simp
  have haddr : n.addr = p + s := hl.next_addr
  have hn16 := hl.size_ge hnm (free_ne_prologue hn)
  have hp8 := (hl.sec hb).al
  simp only at hp8
  simp only [replaceFreeBlock,hnb,htag,hnew,hsize,htag',Traced.all_mk]
  exact hl'.relocates hfree hperm (perm_frees_next (c := ⟨p + a,_,false⟩) rfl rfl).symm
    (((hk.skip hn).insert [_,_]).cons hbm hm) hcm rfl ⟨by simp only; omega,by simp only; omega⟩
    ⟨by simp only; omega,by simp only; omega⟩ (by omega) (Or.inr (by omega))

-- the tags are still the old ones: the new area lies inside the free block n
theorem reallocGrowSplit_relocates (ha : Arena h (pre ++ ⟨p,s,true⟩ :: n :: post) fl)
    (hn : n.alloc = false) (h8 : a % 8 = 0) (hsa : s < a) (hs : a + 16 ≤ s + n.size)
    (hk : Kept (pre ++ post) live) (hm : m + 8 ≤ s) :
    (reallocGrowSplit p a s n.size h).All (Relocates (⟨p,m⟩ :: live)) := by
  have hl := ha.layout
  have hb : (⟨p,s,true⟩ : Blk) ∈ pre ++ ⟨p,s,true⟩ :: n :: post := by simp
  have hnm : n ∈ pre ++ ⟨p,s,true⟩ :: n :: post := by simp
  have haddr : n.addr = p + s := hl.next_addr
  have hnb : nextBlkp h p = n.addr := (hl.nextBlkp_eq hb).trans haddr.symm
  have hp8 := (hl.sec hb).al
  have hs8 := (hl.sec hb).sz
  simp only at hp8 hs8
  have hF : (frees (pre ++ ⟨p,s,true⟩ :: n :: post)).Perm
      (n.addr :: (frees pre ++ frees post)) := perm_frees_next rfl hn
  refine (Traced.all_bind _ _).mpr ⟨?_,Traced.all_pure _⟩
  simp only [replaceFreeBlock,hnb,Traced.all_mk]
  exact hl.relocates ha.free (ha.perm.trans hF) hF.symm ((hk.insert [_,_]).cons hb hm) hnm hn
    ⟨Nat.le_refl _,by omega⟩ ⟨by omega,by omega⟩ (by omega) (Or.inl (by omega))

theorem reallocMove_relocates (hl : Lent h (⟨p,s,true⟩ :: rest)) (hp : p ≠ h.heapListp)
    (h0 : 0 < a) (ha : a ≤ 2 ^ 31 - 8) (hs : 8 ≤ s) (hsa : s < a) (hk : Kept rest live)
    (hm : m + 8 ≤ a) : (reallocMove p a s h).All fun e =>
      ∃ q h', Malloc.reallocMove p a s h = some (q,h') ∧ q ≠ p ∧
        Relocates (⟨q,m⟩ :: live) e := by
  obtain ⟨q,h1,he,⟨rfl,rfl⟩ | ⟨s',hs',hq,ho⟩⟩ := mmMalloc_spec hl h0 ha
  · simp only [reallocMove,he]
    exact Traced.all_ite (fun _ => Traced.all_pure _) fun h => absurd trivial h
  · have hsub : subSizeT s dsize = s - 8 := subSizeT_eq hs (by omega)
    have hcp := memcpy_outcome (p := p) (n := s - 8) ho.lent (by omega)
    have hne : p ≠ (h1.memcpy q p (s - 8)).heapListp := by
      rw [hcp.heapListp,ho.heapListp]
      exact hp
    have hqp : q ≠ p := by
      rintro rfl
      exact (List.nodup_cons.mp ho.lent.addrs_nodup).1 (by simp)
    have hkept : Kept (⟨q,s',true⟩ :: rest) (⟨q,m⟩ :: live) :=
      .cons (hk.mono fun b hb _ => List.mem_cons_of_mem _ hb) (s := s') (by simp) (by omega)
    have hfree := mmFree_relocates (hcp.lent.perm (.swap _ _ _)) hne hkept
    simp only [reallocMove,Malloc.reallocMove,he,hsub,if_neg hq,Traced.all_bind]
    exact ⟨fun e h => ⟨q,_,rfl,hqp,hfree e h⟩,Traced.all_pure _⟩

theorem mmRealloc_relocates {r : Request} (ha : Arena h (pre ++ ⟨r.ptr,s,true⟩ :: post) fl)
    (hrest : (allocs pre ++ allocs post).Perm rest) (hp : r.ptr ≠ h.heapListp)
    (hk : Kept rest live) (hr : r.size + 8 ≤ s) (h0 : 0 < size) (hlt : size ≤ maxRequest) :
    (mmRealloc r.ptr size h).All fun e => ∃ q h', Malloc.mmRealloc r.ptr size h = some (q,h') ∧
      Relocates (r.resized q size :: live) e := by
  have hl := ha.layout
  have hb : (⟨r.ptr,s,true⟩ : Blk) ∈ pre ++ ⟨r.ptr,s,true⟩ :: post := by simp
  have hs16 := hl.size_ge hb fun e => hp (congrArg Blk.addr e)
  have hs32 := hl.size_lt hb
  obtain ⟨ha8,hsa,ha31⟩ := asize_spec hlt
  simp only at hs16 hs32
  have hsz := hl.hdr_size hb
  have h0' : size ≠ 0 := by omega
  have hp0 : r.ptr ≠ 0 := hl.addr_ne_zero hb
  have hd : dsize = 8 := rfl
  have hin : r.resized r.ptr size = ⟨r.ptr,min r.size size⟩ := by
    rw [Request.resized,if_pos rfl]
  have hmin : min r.size size + 8 ≤ s ∧ min r.size size + 8 ≤ alignSize size := by omega
  have hk' : Kept (pre ++ post) live := hk.mono fun b hb _ =>
    (mem_allocs.mp (by rw [allocs_append]; exact hrest.mem_iff.mpr hb)).1
  simp only [mmRealloc,Malloc.mmRealloc,if_neg h0',if_neg hp0,hsz]
  refine Traced.all_ite (fun hfit => Traced.all_ite (fun hsh => ?_) fun _ => Traced.all_pure _)
    fun hfit => Traced.all_ite (fun hsp => ?_) fun hsp => Traced.all_ite
      (fun _ => Traced.all_pure _) fun hno => ?_
  · rw [if_pos hfit,if_pos hsh]
    rw [subSizeT_eq hfit (by omega),hd] at hsh
    refine (Traced.all_bind _ _).mpr ⟨fun e he => ⟨r.ptr,_,rfl,?_⟩,Traced.all_pure _⟩
    rw [hin]
    exact reallocShrink_relocates ha hp ha8 (by omega) (by omega) hk' hmin.2 e he
  · rw [if_neg hfit,if_pos hsp]
    obtain ⟨n,post,rfl,hn,hnb⟩ := hl.next_free hsp.1
    have hnz : getSize h (hdrp (nextBlkp h r.ptr)) = n.size := by
      rw [show nextBlkp h r.ptr = n.addr from hnb,hl.hdr_size (by simp)]
    have hn32 := hl.size_lt (b := n) (by simp)
    have hsize := hsp.2
    rw [hnz,hd,sizeT_eq (by omega),sizeT_eq (by omega)] at hsize
    refine (Traced.all_bind _ _).mpr ⟨fun e he => ⟨r.ptr,_,rfl,?_⟩,Traced.all_pure _⟩
    rw [hnz] at he
    rw [hin]
    exact reallocGrowSplit_relocates ha hn ha8 (by omega) (by omega) (hk'.skip hn) hmin.1 e he
  · have hlent : Lent h (⟨r.ptr,s,true⟩ :: rest) := by
      refine ⟨_,fl,ha,?_⟩
      rw [allocs_append,allocs_cons_alloc rfl]
      exact List.perm_middle.trans (hrest.cons _)
    rw [if_neg hfit,if_neg hsp,if_neg hno]
    intro e he
    obtain ⟨q,h',hv,hq,hR⟩ := reallocMove_relocates hlent hp (by omega) ha31 (by omega)
      (by omega) hk hsa e he
    refine ⟨q,h',hv,?_⟩
    rw [Request.resized,if_neg hq]
    exact hR

end Realloc

end Logged

section Runs

variable {calls : List Call} {h : Heap} {c : Client} {r : Request}

theorem Holds.kept_erase {live : List Request} {size : Nat → Nat} (hc : Holds h live size) :
    Kept (prologue h :: held size (live.erase r)) (live.erase r) := fun q hq =>
  ⟨size q.ptr,List.mem_cons_of_mem _ (mem_held.mpr ⟨q,hq,rfl⟩),(hc.room_erase r q hq).2⟩

theorem replace_free_block_relocates (hr : Client.run calls h = some c) :
    (∀ n, 0 < n → (Logged.mmRealloc 0 n c.heap).val = mmRealloc 0 n c.heap ∧
      (Logged.mmRealloc 0 n c.heap).log = []) ∧
    ∀ r ∈ c.live,
      ((Logged.mmFree r.ptr c.heap).val = mmFree r.ptr c.heap ∧
        (Logged.mmFree r.ptr c.heap).All (Relocates (c.live.erase r))) ∧
      ((Logged.mmRealloc r.ptr 0 c.heap).val = mmRealloc r.ptr 0 c.heap ∧
        (Logged.mmRealloc r.ptr 0 c.heap).All (Relocates (c.live.erase r))) ∧
      ∀ n, 0 < n → n ≤ maxRequest →
        (Logged.mmRealloc r.ptr n c.heap).val = mmRealloc r.ptr n c.heap ∧
          (Logged.mmRealloc r.ptr n c.heap).All fun e =>
            ∃ q h', mmRealloc r.ptr n c.heap = some (q,h') ∧
              Relocates (r.resized q n :: c.live.erase r) e := by
  refine ⟨fun n h0 => ⟨Logged.mmRealloc_val _ _ _,?_⟩,fun r hm => ?_⟩
  · rw [Logged.mmRealloc,if_neg (by omega : n ≠ 0),if_pos rfl]
    rfl
  obtain ⟨size,hc⟩ := Client.run_inv hr
  have hs := hc.split hm
  have hne := hs.ne_heapListp (by simp)
  have hfree := Logged.mmFree_relocates hs hne hc.kept_erase
  refine ⟨⟨Logged.mmFree_val _ _,hfree⟩,⟨Logged.mmRealloc_val _ _ _,?_⟩,fun n h0 hn =>
    ⟨Logged.mmRealloc_val _ _ _,?_⟩⟩
  · rw [Logged.mmRealloc,if_pos rfl]
    exact (Traced.all_bind _ _).mpr ⟨hfree,Traced.all_pure _⟩
  · obtain ⟨_,pre,post,fl,ha,hperm⟩ := hs.split
    exact Logged.mmRealloc_relocates ha hperm hne hc.kept_erase (hc.room r hm).2 h0 hn

-- the last block of the heap is free, the one before it is given back or grown into it
theorem relocation_live : ∃ c, Client.run [.malloc 24,.malloc 24,.malloc 24,.free 4096] sampleHeap =
    some c ∧ ⟨4064,24⟩ ∈ c.live ∧ (Logged.mmFree 4064 c.heap).log.length = 1 ∧
    (Logged.mmRealloc 4064 40 c.heap).log.length = 1 := by
  have h : (Client.run [.malloc 24,.malloc 24,.malloc 24,.free 4096] sampleHeap).any (fun c =>
      decide (⟨4064,24⟩ ∈ c.live ∧ (Logged.mmFree 4064 c.heap).log.length = 1 ∧
        (Logged.mmRealloc 4064 40 c.heap).log.length = 1)) = true := by decide +kernel
  obtain ⟨c,hr,hc⟩ := (Option.any_eq_true _ _).mp h
  exact ⟨c,hr,of_decide_eq_true hc⟩

theorem replace_free_block_relocates_last : ∃ c,
    Client.run [.malloc 24,.malloc 24,.malloc 24,.free 4096] sampleHeap = some c ∧
      (Logged.mmFree 4064 c.heap).log.length = 1 ∧
      (Logged.mmFree 4064 c.heap).All (Relocates (c.live.erase ⟨4064,24⟩)) ∧
      (Logged.mmRealloc 4064 40 c.heap).log.length = 1 ∧
      (Logged.mmRealloc 4064 40 c.heap).All fun e =>
        ∃ q h', mmRealloc 4064 40 c.heap = some (q,h') ∧
          Relocates ((⟨4064,24⟩ : Request).resized q 40 :: c.live.erase ⟨4064,24⟩) e := by
  obtain ⟨c,hr,hm,h1,h2⟩ := relocation_live
  obtain ⟨hfree,_,hrealloc⟩ := (replace_free_block_relocates hr).2 ⟨4064,24⟩ hm
  exact ⟨c,hr,h1,hfree.2,h2,(hrealloc 40 (by decide) (by decide)).2⟩

end Runs

end Malloc
