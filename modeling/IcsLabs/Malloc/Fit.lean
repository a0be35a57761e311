import IcsLabs.Malloc.Contract

namespace Malloc
open Bytes Tiling Linked

-- the free block of o bytes at p has given a block of at least a bytes at q
structure Carved (h : Heap) (p o a q : Nat) : Prop where
  nonnull : q ≠ 0
  alloc : getAlloc h (hdrp q) = 1
  split : a + 16 ≤ o → q = p + (o - a) ∧ getSize h (hdrp q) = a ∧
    getSize h (hdrp p) = o - a ∧ getAlloc h (hdrp p) = 0
  whole : o < a + 16 → q = p ∧ getSize h (hdrp q) = o

section Fit

variable {h h' : Heap} {A : Plan} {b : Blk} {a : Nat}

theorem Effect.carved (ha : Arena h A.blocks A.free) (hb : b ∈ A.blocks)
    (hE : Effect h h' 0 (A.placeAt b.addr a).2.blocks (A.placeAt b.addr a).2.free) :
    Carved h' b.addr b.size a (A.placeAt b.addr a).1 := by
  obtain ⟨pre,post,hL⟩ := List.append_of_mem hb
  have hl := hE.arena.layout
  rw [Plan.placeAt,Plan.before_eq hL ha.nodup,Plan.after_eq hL ha.nodup,Plan.sizeAt_eq hL ha.nodup,
    Plan.place] at hl ⊢
  by_cases hs : a + 16 ≤ b.size
  · rw [if_pos hs] at hl ⊢
    simp only at hl
    have hq : (⟨b.addr + (b.size - a),a,true⟩ : Blk) ∈ pre ++ ⟨b.addr,b.size - a,false⟩ ::
        ⟨b.addr + (b.size - a),a,true⟩ :: post := by simp
    have hp : (⟨b.addr,b.size - a,false⟩ : Blk) ∈ pre ++ ⟨b.addr,b.size - a,false⟩ ::
        ⟨b.addr + (b.size - a),a,true⟩ :: post := by simp
    have h1 := hl.addr_ne_zero hq
    have h2 := hl.hdr_alloc hq
    have h3 := hl.hdr_size hq
    have h4 := hl.hdr_size hp
    have h5 := hl.hdr_alloc hp
    exact ⟨h1,h2,fun _ => ⟨rfl,h3,h4,h5⟩,fun hw => absurd hs (by omega)⟩
  · rw [if_neg hs] at hl ⊢
    obtain ⟨c,hc⟩ : ∃ c : Blk, c = ⟨b.addr,b.size,true⟩ := ⟨_,rfl⟩
    rw [← hc] at hl
    have hq : c ∈ pre ++ c :: post := by simp
    have h1 := hl.addr_ne_zero hq
    have h2 := hl.hdr_alloc hq
    have h3 := hl.hdr_size hq
    rw [hc] at h1 h2 h3
    exact ⟨h1,h2,fun h16 => absurd h16 hs,fun _ => ⟨rfl,h3⟩⟩

theorem Arena.room_lt {L : List Blk} {fl : List Nat} {k : Nat} (ha : Arena h L fl)
    (hk : h.memBrk + k ≤ h.memMaxAddr) : k < 2 ^ 31 := by
  have h1 := ha.layout.listp
  have h2 := ha.layout.base.listp_brk
  have h3 := h.storage.max
  simp only [Heap.memMaxAddr,Heap.memStartBrk,maxHeap] at hk h1 h3
  omega

end Fit

section Runs

variable {calls : List Call} {h : Heap} {c : Client} {size : Nat}

theorem malloc_first_fit (hr : Client.run calls h = some c) (h0 : 0 < size)
    (hn : size ≤ maxRequest) : ∃ n fl, blockPtr c.heap n = c.heap.memBrk ∧
      FreeListStructure c.heap n fl ∧
      (∀ p, fl.find? (fun p => Plan.padded size ≤ getSize c.heap (hdrp p)) = some p →
        ∃ q h', mmMalloc size c.heap = some (q,h') ∧
          Carved h' p (getSize c.heap (hdrp p)) (Plan.padded size) q ∧
          h'.memBrk = c.heap.memBrk) ∧
      (fl.find? (fun p => Plan.padded size ≤ getSize c.heap (hdrp p)) = none →
        c.heap.memBrk + max (Plan.padded size) 4096 ≤ c.heap.memMaxAddr →
        ∃ p q h', mmMalloc size c.heap = some (q,h') ∧
          h'.memBrk = c.heap.memBrk + max (Plan.padded size) 4096 ∧
          Carved h' p (h'.memBrk - p) (Plan.padded size) q) ∧
      (fl.find? (fun p => Plan.padded size ≤ getSize c.heap (hdrp p)) = none →
        c.heap.memMaxAddr < c.heap.memBrk + max (Plan.padded size) 4096 →
        mmMalloc size c.heap = some (0,c.heap)) := by
  have hlt : size ≤ 2 ^ 31 - 8 := hn.trans (by decide)
  obtain ⟨sizes,hc⟩ := Client.run_inv hr
  obtain ⟨bs,fl,ha,_,_,hw,he⟩ := hc.arena
  obtain ⟨k,hk,_⟩ := max_padded hlt
  have hm := fun p => find_sizeAt (A := ⟨prologue c.heap :: bs,fl⟩) ha p
  rw [show (4096 : Nat) = chunksize from rfl,hk]
  refine ⟨bs.length,fl,he,ha.freeListStructure hw,fun p hf => ?_,fun hf hroom => ?_,fun hf hroom => ?_⟩
  · obtain ⟨h',hm,hE,b,hb,_,rfl,_⟩ := mmMalloc_fits (A := ⟨_,fl⟩) ha h0 hlt ((hm _).symm.trans hf)
    rw [ha.layout.hdr_size hb]
    exact ⟨_,h',hm,hE.carved ha hb,hE.memBrk⟩
  · obtain ⟨h1,h',hm,hE,hE'⟩ := mmMalloc_extends (A := ⟨_,fl⟩) ha h0 hlt ((hm _).symm.trans hf) hk
      (ha.room_lt hroom) hroom
    obtain ⟨pre,hL,_⟩ := Plan.blocks_extend ⟨prologue c.heap :: bs,fl⟩ k
    have hbrk : h'.memBrk = h1.memBrk := hE'.memBrk
    refine ⟨(Plan.extend ⟨prologue c.heap :: bs,fl⟩ k).last.addr,_,h',hm,hbrk.trans hE.memBrk,?_⟩
    rw [hbrk,← hE.arena.brk_eq,Plan.brk,Nat.add_sub_cancel_left]
    exact hE'.carved hE.arena (by rw [hL]; simp)
  · exact mmMalloc_null (A := ⟨_,fl⟩) ha h0 hlt ((hm _).symm.trans hf) hk (Or.inr hroom)

theorem malloc_first_fit_sample : ∃ c, Client.run sampleCalls sampleHeap = some c ∧
    ∃ n fl, FreeListStructure c.heap n fl ∧
      ∀ p, fl.find? (fun p => Plan.padded 24 ≤ getSize c.heap (hdrp p)) = some p →
        ∃ q h', mmMalloc 24 c.heap = some (q,h') ∧ h'.memBrk = c.heap.memBrk := by
  obtain ⟨c,hr⟩ := sample_runs
  obtain ⟨n,fl,_,hw,hfit,_⟩ := malloc_first_fit hr (by decide) (by decide : 24 ≤ maxRequest)
  refine ⟨c,hr,n,fl,hw,fun p hp => ?_⟩
  obtain ⟨q,h',hm,_,hb⟩ := hfit p hp
  exact ⟨q,h',hm,hb⟩

end Runs

end Malloc
