import IcsLabs.Malloc.Contract

namespace Malloc
open Bytes Tiling Linked

-- the block at p, alone or with the free block after it, has room for a bytes
def FitsInPlace (h : Heap) (p a : Nat) : Prop :=
  a ≤ getSize h (hdrp p) ∨ getAlloc h (hdrp (nextBlkp h p)) = 0 ∧
    a ≤ getSize h (hdrp p) + getSize h (hdrp (nextBlkp h p))

instance (h : Heap) (p a : Nat) : Decidable (FitsInPlace h p a) :=
  inferInstanceAs (Decidable (_ ∨ _))

def avail (h : Heap) (p a : Nat) : Nat :=
  if a ≤ getSize h (hdrp p) then getSize h (hdrp p)
  else getSize h (hdrp p) + getSize h (hdrp (nextBlkp h p))

section Block

variable {h : Heap} {pre post : List Blk} {fl : List Nat} {n : Blk} {p s a : Nat}

theorem Layout.next_hdr (hl : Layout h (pre ++ ⟨p,s,true⟩ :: n :: post)) :
    getAlloc h (hdrp (nextBlkp h p)) = n.alloc.toNat ∧ getSize h (hdrp (nextBlkp h p)) = n.size := by
  have hnb : nextBlkp h p = n.addr := (hl.nextBlkp_eq (by simp)).trans hl.next_addr.symm
  rw [hnb]
  exact ⟨hl.hdr_alloc (by simp),hl.hdr_size (by simp)⟩

theorem fitsInPlace_iff (hl : Layout h (pre ++ ⟨p,s,true⟩ :: post)) :
    FitsInPlace h p a ↔ a ≤ s ∨ ∃ n, freeBlk post.head? = some n ∧ a ≤ s + n.size := by
  rw [FitsInPlace,hl.hdr_size (b := ⟨p,s,true⟩) (by simp)]
  refine or_congr_right ?_
  cases post with
  | nil =>
    rw [hl.next_alloc_nil]
    simp [freeBlk]
  | cons n post =>
    obtain ⟨h1,h2⟩ := hl.next_hdr
    rw [h1,h2,toNat_eq_zero]
    cases hn : n.alloc with
    | true => simp [freeBlk_alloc hn]
    | false => simp [freeBlk_free hn]

theorem avail_eq (hl : Layout h (pre ++ ⟨p,s,true⟩ :: post)) :
    (a ≤ s → avail h p a = s) ∧
      ∀ n, s < a → freeBlk post.head? = some n → avail h p a = s + n.size := by
  have hsz : getSize h (hdrp p) = s := hl.hdr_size (b := ⟨p,s,true⟩) (by simp)
  rw [avail,hsz]
  refine ⟨fun hs => if_pos hs,fun n hs hn => ?_⟩
  obtain ⟨hh,_⟩ := freeBlk_eq_some.mp hn
  obtain ⟨post,rfl⟩ := List.head?_eq_some_iff.mp hh
  rw [if_neg (by omega),hl.next_hdr.2]

-- the blocks once the one at p has been given a of its v bytes, or all of them
def Resized (pre post : List Blk) (p a v : Nat) (L : List Blk) : Prop :=
  ∃ post', allocs post' = allocs post ∧
    ((∃ o, a + 16 ≤ v ∧ v ≤ a + o ∧ L = pre ++ ⟨p,a,true⟩ :: ⟨p + a,o,false⟩ :: post') ∨
      v < a + 16 ∧ L = pre ++ ⟨p,v,true⟩ :: post')

theorem shrink_resized (hs : a + 16 ≤ s) :
    Resized pre post p a s (Plan.shrink pre post fl p s a).blocks := by
  rw [Plan.shrink]
  cases hn : freeBlk post.head? with
  | none => exact ⟨post,rfl,.inl ⟨s - a,hs,by omega,rfl⟩⟩
  | some n => exact ⟨post.tail,(allocs_head_free hn).symm,.inl ⟨_,hs,by omega,rfl⟩⟩

theorem grow_resized (hn : n.alloc = false) :
    Resized pre (n :: post) p a (s + n.size) (Plan.grow pre post fl p s a n).blocks := by
  rw [Plan.grow]
  refine ⟨post,(allocs_cons_free hn).symm,?_⟩
  split
  · exact .inl ⟨_,‹_›,by omega,rfl⟩
  · exact .inr ⟨by omega,rfl⟩

theorem mmRealloc_resized {size : Nat} (ha : Arena h (pre ++ ⟨p,s,true⟩ :: post) fl)
    (hne : p ≠ h.heapListp) (h0 : 0 < size) (hlt : size ≤ 2 ^ 31 - 16)
    (hfit : FitsInPlace h p (alignSize size)) : ∃ h' L fl', mmRealloc p size h = some (p,h') ∧
      Effect h h' 0 L fl' ∧ Resized pre post p (alignSize size) (avail h p (alignSize size)) L := by
  obtain ⟨ha8,hsa,ha31⟩ := asize_spec hlt
  obtain ⟨hv1,hv2⟩ := avail_eq (a := alignSize size) ha.layout
  rcases Nat.lt_or_ge s (alignSize size) with hs | hs
  · obtain ⟨n,hn,hle⟩ := ((fitsInPlace_iff ha.layout).mp hfit).resolve_left (by omega)
    obtain ⟨hh,hnf⟩ := freeBlk_eq_some.mp hn
    rw [hv2 n hs hn]
    obtain ⟨post,rfl⟩ := List.head?_eq_some_iff.mp hh
    exact ⟨_,_,_,mmRealloc_grows h0 hlt ha hnf hs hle,
      reallocGrow_spec ha hne hnf ha8 (by omega) hs,grow_resized hnf⟩
  · rw [hv1 hs]
    by_cases hshrink : alignSize size + 16 ≤ s
    · exact ⟨_,_,_,mmRealloc_shrinks ha h0 hlt hshrink,
        reallocShrink_spec ha hne ha8 (by omega) hshrink,shrink_resized hshrink⟩
    · exact ⟨h,_,fl,mmRealloc_kept ha h0 hlt hs (by omega),⟨rfl,rfl,rfl,ha,Frame.refl h _⟩,
        post,rfl,.inr ⟨by omega,rfl⟩⟩

theorem mmRealloc_not_fits {size : Nat} (ha : Arena h (pre ++ ⟨p,s,true⟩ :: post) fl)
    (h0 : 0 < size) (hlt : size ≤ 2 ^ 31 - 16) (hfit : ¬ FitsInPlace h p (alignSize size)) :
    mmRealloc p size h = reallocMove p (alignSize size) s h := by
  rw [fitsInPlace_iff ha.layout] at hfit
  refine mmRealloc_moves ha h0 hlt (Nat.lt_of_not_le fun hs => hfit (.inl hs)) fun n hn => ?_
  exact Nat.lt_of_not_le fun hs => hfit (.inr ⟨n,hn,hs⟩)

theorem reallocMove_ne {q size : Nat} {h' : Heap} (ha : Arena h (pre ++ ⟨p,s,true⟩ :: post) fl)
    (h0 : 0 < a) (hlt : a ≤ 2 ^ 31 - 8) (hm : reallocMove p a size h = some (q,h')) : q ≠ p := by
  have hp := mmMalloc_plan (A := ⟨_,fl⟩) ha h0 hlt
  split at hp
  · simp [reallocMove,hp] at hm
  · obtain ⟨h1,s',he,_,hG⟩ := hp
    simp only [reallocMove,he,if_neg hG.ne_zero,Option.some.injEq,Prod.mk.injEq] at hm
    obtain ⟨rfl,-⟩ := hm
    rintro rfl
    have hnd := ((hG.lends.map Blk.addr).nodup_iff.mp
      (hG.arena.layout.addrs_nodup.sublist (List.filter_sublist.map _)))
    refine (List.nodup_cons.mp hnd).1 (List.mem_map.mpr ⟨⟨_,s,true⟩,?_,rfl⟩)
    exact mem_allocs.mpr ⟨by simp,rfl⟩

end Block

-- the block at p resized in place, the rest of the heap as it was
structure Stays (h h' : Heap) (p a v : Nat) (live : List Request) : Prop where
  memBrk : h'.memBrk = h.memBrk
  alloc : getAlloc h' (hdrp p) = 1
  whole : v < a + 16 → getSize h' (hdrp p) = v
  split : a + 16 ≤ v → getSize h' (hdrp p) = a ∧ getAlloc h' (hdrp (p + a)) = 0 ∧
    v ≤ a + getSize h' (hdrp (p + a))
  blocks : ∃ n fl, BlockStructure h' (live.map Request.ptr) n ∧ FreeListStructure h' n fl ∧
    (a + 16 ≤ v → p + a ∈ fl)
  others : ∀ q ∈ live, q.ptr ≠ p → getAlloc h' (hdrp q.ptr) = 1 ∧
    getSize h' (hdrp q.ptr) = getSize h (hdrp q.ptr) ∧
    ∀ x, q.ptr ≤ x → x + 8 < q.ptr + getSize h (hdrp q.ptr) → h'.mem x = h.mem x

section Resized

variable {h h' : Heap} {pre post L : List Blk} {fl : List Nat} {p s a v : Nat} {b : Blk}

theorem Resized.allocs (hr : Resized pre post p a v L) :
    ∃ x, allocs L = Malloc.allocs pre ++ ⟨p,x,true⟩ :: Malloc.allocs post := by
  obtain ⟨post',hp,⟨o,_,_,rfl⟩ | ⟨_,rfl⟩⟩ := hr
  · exact ⟨a,by rw [allocs_append,allocs_cons_alloc rfl,allocs_cons_free rfl,hp]⟩
  · exact ⟨v,by rw [allocs_append,allocs_cons_alloc rfl,hp]⟩

theorem Resized.keeps (hr : Resized pre post p a v L) (hb : b ∈ pre ++ ⟨p,s,true⟩ :: post)
    (ha : b.alloc = true) (hp : b.addr ≠ p) : b ∈ L := by
  obtain ⟨x,hx⟩ := hr.allocs
  have hm := mem_allocs.mpr ⟨hb,ha⟩
  rw [allocs_append,allocs_cons_alloc rfl] at hm
  refine (mem_allocs.mp (?_ : b ∈ Malloc.allocs L)).1
  rw [hx]
  simp only [List.mem_append,List.mem_cons] at hm ⊢
  rcases hm with hm | rfl | hm
  · exact .inl hm
  · exact absurd rfl hp
  · exact .inr (.inr hm)

theorem Resized.addrs (hr : Resized pre post p a v L) : (Malloc.allocs L).map Blk.addr =
    (Malloc.allocs (pre ++ ⟨p,s,true⟩ :: post)).map Blk.addr := by
  obtain ⟨x,hx⟩ := hr.allocs
  rw [hx,allocs_append,allocs_cons_alloc rfl,List.map_append,List.map_append,List.map_cons,
    List.map_cons]

theorem Resized.uncons (hr : Resized (b :: pre) post p a v L) :
    ∃ bs, L = b :: bs ∧ Resized pre post p a v bs := by
  obtain ⟨post',hp,⟨o,h1,h2,rfl⟩ | ⟨h1,rfl⟩⟩ := hr
  · exact ⟨_,rfl,post',hp,.inl ⟨o,h1,h2,rfl⟩⟩
  · exact ⟨_,rfl,post',hp,.inr ⟨h1,rfl⟩⟩

theorem mem_addrs {q : Nat} :
    (∃ b ∈ L, b.alloc = true ∧ b.addr = q) ↔ q ∈ (Malloc.allocs L).map Blk.addr := by
  simp only [List.mem_map,mem_allocs,and_assoc]

theorem Resized.stays {live : List Request} {bs : List Blk} {fl' : List Nat}
    (ha : Arena h (prologue h :: pre ++ ⟨p,s,true⟩ :: post) fl)
    (hlive : ∀ q, q ∈ live.map Request.ptr ↔
      ∃ b ∈ pre ++ ⟨p,s,true⟩ :: post, b.alloc = true ∧ b.addr = q)
    (hE : Effect h h' 0 (prologue h :: bs) fl') (hr : Resized pre post p a v bs) :
    Stays h h' p a v live := by
  have hl := hE.arena.layout
  obtain ⟨x,hx⟩ := hr.allocs
  have hpx : (⟨p,x,true⟩ : Blk) ∈ prologue h :: bs := by
    refine List.mem_cons_of_mem _ (mem_allocs.mp (?_ : _ ∈ Malloc.allocs bs)).1
    simp [hx]
  have hal := hl.hdr_alloc hpx
  refine ⟨hE.memBrk,hal,fun hv => ?_,fun hv => ?_,?_,fun q hq hne => ?_⟩
  · obtain ⟨post',hp,⟨o,h1,h2,rfl⟩ | ⟨h1,rfl⟩⟩ := hr
    · omega
    · exact hl.hdr_size (b := ⟨p,v,true⟩) (by simp)
  · obtain ⟨post',hp,⟨o,h1,h2,rfl⟩ | ⟨h1,rfl⟩⟩ := hr
    · have h3 := hl.hdr_size (b := ⟨p + a,o,false⟩) (by simp)
      have h4 := hl.hdr_alloc (b := ⟨p + a,o,false⟩) (by simp)
      simp only at h3
      exact ⟨hl.hdr_size (b := ⟨p,a,true⟩) (by simp),h4,h3.symm ▸ h2⟩
    · omega
  · have hpro : prologue h' = prologue h := prologue_eq hE.heapListp
    have ha' := hE.arena
    rw [← hpro] at ha'
    obtain ⟨bs',hbs,hw,he⟩ := ha'.layout.blocks
    obtain rfl := (List.cons.inj hbs).2
    refine ⟨_,fl',ha'.blockStructure (fun q => ?_) hw he,ha'.freeListStructure hw,fun hv => ?_⟩
    · rw [hlive,mem_addrs,mem_addrs,hr.addrs]
    · obtain ⟨post',hp,⟨o,h1,h2,rfl⟩ | ⟨h1,rfl⟩⟩ := hr
      · exact ha'.perm.mem_iff.mpr (mem_frees.mpr ⟨⟨p + a,o,false⟩,by simp,rfl,rfl⟩)
      · omega
  · obtain ⟨b,hb,hba,hbq⟩ := (hlive q.ptr).mp (List.mem_map_of_mem hq)
    have hb' : b ∈ prologue h :: bs := List.mem_cons_of_mem _ (hr.keeps hb hba (hbq ▸ hne))
    rw [← hbq,hl.hdr_alloc hb',hl.hdr_size hb',ha.layout.hdr_size (List.mem_cons_of_mem _ hb),hba]
    refine ⟨rfl,rfl,fun x h1 h2 => ?_⟩
    by_contra hx
    exact hE.frame x hx b hb' hba ⟨h1,h2⟩

end Resized

section Runs

variable {calls : List Call} {h : Heap} {c : Client} {r : Request} {n : Nat}

theorem Client.cut (hr : Client.run calls h = some c) (hm : r ∈ c.live) : ∃ pre post s fl,
    Arena c.heap (prologue c.heap :: pre ++ ⟨r.ptr,s,true⟩ :: post) fl ∧
      r.ptr ≠ c.heap.heapListp ∧ ∀ q, q ∈ c.live.map Request.ptr ↔
        ∃ b ∈ pre ++ ⟨r.ptr,s,true⟩ :: post, b.alloc = true ∧ b.addr = q := by
  obtain ⟨sizes,hc⟩ := Client.run_inv hr
  have hne := (hc.split hm).ne_heapListp (by simp)
  obtain ⟨bs,fl,ha,hp,hb,_,_⟩ := hc.arena
  obtain ⟨pre,post,rfl⟩ := List.append_of_mem (hb r hm)
  exact ⟨pre,post,_,fl,ha,hne,hp⟩

theorem realloc_in_place (hr : Client.run calls h = some c) (hm : r ∈ c.live) (h0 : 0 < n)
    (hn : n ≤ maxRequest) :
    ((∃ h', mmRealloc r.ptr n c.heap = some (r.ptr,h') ∧ h'.memBrk = c.heap.memBrk) ↔
      FitsInPlace c.heap r.ptr (alignSize n)) ∧
    (FitsInPlace c.heap r.ptr (alignSize n) → ∃ h', mmRealloc r.ptr n c.heap = some (r.ptr,h') ∧
      Stays c.heap h' r.ptr (alignSize n) (avail c.heap r.ptr (alignSize n)) c.live) := by
  obtain ⟨pre,post,s,fl,ha,hne,hlive⟩ := Client.cut hr hm
  have hstay (hfit : FitsInPlace c.heap r.ptr (alignSize n)) :
      ∃ h', mmRealloc r.ptr n c.heap = some (r.ptr,h') ∧
        Stays c.heap h' r.ptr (alignSize n) (avail c.heap r.ptr (alignSize n)) c.live := by
    obtain ⟨h',L,fl',he,hE,hR⟩ := mmRealloc_resized ha hne h0 hn hfit
    obtain ⟨bs,rfl,hbs⟩ := hR.uncons
    exact ⟨h',he,hbs.stays ha hlive hE⟩
  refine ⟨⟨?_,fun hfit => ?_⟩,hstay⟩
  · rintro ⟨h',he,_⟩
    by_contra hfit
    rw [mmRealloc_not_fits ha h0 hn hfit] at he
    obtain ⟨_,hsa,ha31⟩ := asize_spec hn
    exact reallocMove_ne ha (by omega) ha31 he rfl
  · obtain ⟨h',he,hS⟩ := hstay hfit
    exact ⟨h',he,hS.memBrk⟩

theorem sample_live : ∃ c r, Client.run sampleCalls sampleHeap = some c ∧ r ∈ c.live ∧
    FitsInPlace c.heap r.ptr (alignSize 40) := by
  have h : (Client.run sampleCalls sampleHeap).any (fun c => c.live.any fun r =>
      decide (FitsInPlace c.heap r.ptr (alignSize 40))) = true := by decide +kernel
  obtain ⟨c,hr,hc⟩ := (Option.any_eq_true _ _).mp h
  obtain ⟨r,hm,hf⟩ := List.any_eq_true.mp hc
  exact ⟨c,r,hr,hm,of_decide_eq_true hf⟩

theorem realloc_in_place_sample : ∃ c r h', Client.run sampleCalls sampleHeap = some c ∧
    r ∈ c.live ∧ mmRealloc r.ptr 40 c.heap = some (r.ptr,h') ∧ h'.memBrk = c.heap.memBrk := by
  obtain ⟨c,r,hr,hm,hfit⟩ := sample_live
  obtain ⟨h',he,hS⟩ := (realloc_in_place hr hm (by decide : 0 < 40) (by decide)).2 hfit
  exact ⟨c,r,h',hr,hm,he,hS.memBrk⟩

-- where mm_malloc returns NULL, memcpy is handed it and a count that is not 0
theorem realloc_copies_to_null (hr : Client.run calls h = some c) (hm : r ∈ c.live) (h0 : 0 < n)
    (hn : n ≤ maxRequest) (hfit : ¬ FitsInPlace c.heap r.ptr (alignSize n))
    (hnull : (mmMalloc (alignSize n) c.heap).map Prod.fst = some 0) :
    (∀ q h', mmRealloc r.ptr n c.heap ≠ some (q,h')) ∧
      0 < subSizeT (getSize c.heap (hdrp r.ptr)) dsize ∧ 0 < c.heap.memStartBrk := by
  obtain ⟨pre,post,s,fl,ha,hne,hlive⟩ := Client.cut hr hm
  have hb : (⟨r.ptr,s,true⟩ : Blk) ∈ prologue c.heap :: pre ++ ⟨r.ptr,s,true⟩ :: post := by simp
  have h16 : 16 ≤ s := ha.layout.size_ge hb fun e => hne (congrArg Blk.addr e)
  have hlt := ha.layout.size_lt hb
  have hsz := ha.layout.hdr_size hb
  simp only at hlt hsz
  refine ⟨fun q h' => ?_,?_,c.heap.storage.nonnull⟩
  · rw [mmRealloc_not_fits ha h0 hn hfit]
    obtain ⟨⟨z,h1⟩,he,hz⟩ := Option.map_eq_some_iff.mp hnull
    obtain rfl : z = 0 := hz
    simp [reallocMove,he]
  · rw [hsz,dsize,subSizeT_eq (by omega) (by omega)]
    omega

-- 30 MB asked for the only block
theorem exhausted_live : ∃ c r, Client.run [.malloc 24] sampleHeap = some c ∧ r ∈ c.live ∧
    ¬ FitsInPlace c.heap r.ptr (alignSize 30000000) ∧
    (mmMalloc (alignSize 30000000) c.heap).map Prod.fst = some 0 := by
  have h : (Client.run [.malloc 24] sampleHeap).any (fun c => c.live.any fun r =>
      decide (¬ FitsInPlace c.heap r.ptr (alignSize 30000000) ∧
        (mmMalloc (alignSize 30000000) c.heap).map Prod.fst = some 0)) = true := by decide +kernel
  obtain ⟨c,hr,hc⟩ := (Option.any_eq_true _ _).mp h
  obtain ⟨r,hm,hf⟩ := List.any_eq_true.mp hc
  exact ⟨c,r,hr,hm,of_decide_eq_true hf⟩

theorem realloc_copies_to_null_sample : ∃ c r, Client.run [.malloc 24] sampleHeap = some c ∧
    r ∈ c.live ∧ ∀ q h', mmRealloc r.ptr 30000000 c.heap ≠ some (q,h') := by
  obtain ⟨c,r,hr,hm,hfit,hnull⟩ := exhausted_live
  exact ⟨c,r,hr,hm,(realloc_copies_to_null hr hm (by decide) (by decide) hfit hnull).1⟩

theorem realloc_not_null : ∃ c r, Client.run [.malloc 24] sampleHeap = some c ∧ r ∈ c.live ∧
    ¬ FitsInPlace c.heap r.ptr (alignSize 30000000) ∧
    (mmMalloc (alignSize 30000000) c.heap).map Prod.fst = some 0 ∧
    ¬ ∃ h', mmRealloc r.ptr 30000000 c.heap = some (0,h') := by
  have h : (Client.run [.malloc 24] sampleHeap).any (fun c => c.live.any fun r =>
      decide (¬ FitsInPlace c.heap r.ptr (alignSize 30000000) ∧
        (mmMalloc (alignSize 30000000) c.heap).map Prod.fst = some 0 ∧
        (mmRealloc r.ptr 30000000 c.heap).isNone = true)) = true := by decide +kernel
  obtain ⟨c,hr,hc⟩ := (Option.any_eq_true _ _).mp h
  obtain ⟨r,hm,hf⟩ := List.any_eq_true.mp hc
  obtain ⟨h1,h2,h3⟩ := of_decide_eq_true hf
  refine ⟨c,r,hr,hm,h1,h2,fun ⟨h',he⟩ => ?_⟩
  simp [he] at h3

end Runs

end Malloc
