import IcsLabs.Malloc.Extend
import Mathlib.Data.List.Find
import Mathlib.Data.List.Nodup

namespace Malloc
open Bytes Tiling Linked

-- live lists the allocated blocks, the prologue among them, in any order
def Lent (h : Heap) (live : List Blk) : Prop :=
  ∃ L fl, Arena h L fl ∧ (allocs L).Perm live

structure Outcome (h h' : Heap) (keep live : List Blk) : Prop where
  storage : h'.storage = h.storage
  heapListp : h'.heapListp = h.heapListp
  memBrk : h.memBrk ≤ h'.memBrk
  lent : Lent h' live
  frame : Frame h h' keep

namespace Frame

variable {h h' : Heap} {L L' : List Blk}

theorem mono (f : Frame h h' L) (hs : ∀ b ∈ L', b.alloc = true → b ∈ L) : Frame h h' L' :=
  fun x hx b hb ha => f x hx b (hs b hb ha) ha

theorem of_allocs {keep : List Blk} (f : Frame h h' L) (hs : ∀ b ∈ keep, b ∈ allocs L) :
    Frame h h' keep :=
  f.mono fun b hb _ => (mem_allocs.mp (hs b hb)).1

end Frame

section Outcomes

variable {h h' h'' : Heap} {L live keep : List Blk} {fl : List Nat} {k : Nat}

theorem Effect.outcome (e : Effect h h' k L fl) (hl : (allocs L).Perm live)
    (hk : ∀ b ∈ keep, b ∈ allocs L) : Outcome h h' keep live :=
  ⟨e.storage,e.heapListp,e.memBrk ▸ Nat.le_add_right _ _,⟨L,fl,e.arena,hl⟩,e.frame.of_allocs hk⟩

theorem Outcome.trans {mid : List Blk} (o : Outcome h h' keep mid) (o' : Outcome h' h'' keep live) :
    Outcome h h'' keep live :=
  ⟨o'.storage.trans o.storage,o'.heapListp.trans o.heapListp,o.memBrk.trans o'.memBrk,o'.lent,
    o.frame.trans o'.frame⟩

theorem Outcome.weaken {keep' : List Blk} (o : Outcome h h' keep live)
    (hk : ∀ b ∈ keep', b ∈ keep) : Outcome h h' keep' live :=
  ⟨o.storage,o.heapListp,o.memBrk,o.lent,o.frame.mono fun b hb _ => hk b hb⟩

theorem Outcome.refl (hl : Lent h live) : Outcome h h keep live :=
  ⟨rfl,rfl,Nat.le_refl _,hl,Frame.refl h keep⟩

end Outcomes

theorem Layout.addr_ne_zero {h : Heap} {L : List Blk} {b : Blk} (hl : Layout h L) (hb : b ∈ L) :
    b.addr ≠ 0 := by
  have h1 := (hl.sec hb).lo
  have h2 := hl.base.listp
  omega

theorem Lent.addr_ne_zero {h : Heap} {live : List Blk} {b : Blk} (hl : Lent h (b :: live)) :
    b.addr ≠ 0 := by
  obtain ⟨L,fl,ha,hp⟩ := hl
  exact ha.layout.addr_ne_zero (mem_allocs.mp (hp.mem_iff.mpr (by simp))).1

section Live

variable {h h' : Heap} {live rest : List Blk} {b : Blk} {p s : Nat}

theorem Lent.perm {live' : List Blk} (hl : Lent h live) (hp : live.Perm live') : Lent h live' := by
  obtain ⟨L,fl,ha,hL⟩ := hl
  exact ⟨L,fl,ha,hL.trans hp⟩

theorem Lent.split (hl : Lent h (b :: rest)) : b.alloc = true ∧ ∃ pre post fl,
    Arena h (pre ++ b :: post) fl ∧ (allocs pre ++ allocs post).Perm rest := by
  obtain ⟨L,fl,ha,hp⟩ := hl
  obtain ⟨hb,hba⟩ := mem_allocs.mp (hp.mem_iff.mpr (by simp : b ∈ b :: rest))
  obtain ⟨pre,post,rfl⟩ := List.append_of_mem hb
  rw [allocs_append,allocs_cons_alloc hba] at hp
  exact ⟨hba,pre,post,fl,ha,(List.perm_middle.symm.trans hp).cons_inv⟩

theorem Arena.of_writes {L : List Blk} {fl : List Nat} (ha : Arena h L fl) (hf : SameFrame h h')
    (hhd : h'.hdFree = h.hdFree) (hft : h'.ftFree = h.ftFree)
    (hw : ∀ x, h'.mem x ≠ h.mem x → ∃ b ∈ allocs L, b.InPayload x) : Arena h' L fl := by
  refine ⟨ha.layout.of_writes hf fun x hx => ?_,?_,ha.perm,ha.coalesced⟩
  · obtain ⟨b,hb,hin⟩ := hw x hx
    exact ⟨b,(mem_allocs.mp hb).1,hin⟩
  · refine ha.free.congr hf hhd hft fun q hq x hx1 hx2 => ?_
    by_contra hx
    obtain ⟨b,hb,hin⟩ := hw x hx
    obtain ⟨hbL,hba⟩ := mem_allocs.mp hb
    obtain ⟨c,hc,hcf,rfl⟩ := mem_frees.mp (ha.perm.mem_iff.mp hq)
    have := ha.layout.size_ge hc (free_ne_prologue hcf)
    obtain rfl := ha.layout.eq_of_payload hbL hc hin ⟨hx1,by omega⟩
    simp [hba] at hcf

theorem Lent.of_writes (hl : Lent h live) (hf : SameFrame h h') (hhd : h'.hdFree = h.hdFree)
    (hft : h'.ftFree = h.ftFree)
    (hw : ∀ x, h'.mem x ≠ h.mem x → ∃ b ∈ live, b.InPayload x) : Lent h' live := by
  obtain ⟨L,fl,ha,hp⟩ := hl
  refine ⟨L,fl,ha.of_writes hf hhd hft fun x hx => ?_,hp⟩
  obtain ⟨b,hb,hin⟩ := hw x hx
  exact ⟨b,hp.mem_iff.mpr hb,hin⟩

theorem mmFree_outcome (hl : Lent h (⟨p,s,true⟩ :: rest)) (hp : p ≠ h.heapListp) :
    Outcome h (mmFree p h) rest rest := by
  obtain ⟨_,pre,post,fl,ha,hperm⟩ := hl.split
  rw [← Plan.allocs_merge fl (b := ⟨p,s,false⟩) rfl] at hperm
  exact (mmFree_spec ha hp).outcome hperm fun b hb => hperm.mem_iff.mpr hb

theorem Lent.ne_heapListp (hl : Lent h (b :: rest)) (hpro : prologue h ∈ rest) :
    b.addr ≠ h.heapListp := by
  obtain ⟨L,fl,ha,hp⟩ := hl
  have hb := (mem_allocs.mp (hp.mem_iff.mpr (by simp : b ∈ b :: rest))).1
  intro he
  obtain rfl : b = prologue h := ha.layout.eq_of_addr hb ha.layout.prologue_mem he
  have hnd : (allocs L).Nodup := (List.Nodup.of_map _ ha.layout.addrs_nodup).filter _
  exact (List.nodup_cons.mp (hp.nodup_iff.mp hnd)).1 hpro

end Live

section FindFit

variable {h : Heap} {L : List Blk} {fl : List Nat} {size : Nat}

theorem findFitLoop_eq {l r : List Nat} {fuel : Nat} (hc : FreeChain h (l ++ r))
    (hf : r.length < fuel) : findFitLoop h size fuel (r.head?.getD 0) =
      some ((r.find? fun p => size ≤ getSize h (hdrp p)).getD 0) := by
  induction fuel generalizing l r with
  | zero => omega
  | succ fuel ih =>
    cases r with
    | nil => rfl
    | cons p r =>
      have hp : p ≠ 0 := by
        have := (hc.node p (by simp)).above
        omega
      rw [List.head?_cons,Option.getD_some,findFitLoop,if_neg hp]
      by_cases hs : size ≤ getSize h (hdrp p)
      · rw [if_pos hs,List.find?_cons_of_pos (by simpa using hs)]
        rfl
      · rw [if_neg hs,List.find?_cons_of_neg (by simpa using hs),nextFreeBlock_eq,
          hc.chain.split.2]
        exact ih (l := l ++ [p]) (by simpa using hc) (by simpa using hf)

theorem Arena.length_lt (ha : Arena h L fl) : fl.length < h.memHeapsize + 1 := by
  have hlen : fl.length ≤ L.length := by
    rw [ha.perm.length_eq,frees,List.length_map]
    exact List.length_filter_le _ _
  have ht := tiles_length ha.layout.tiles fun b hb => (ha.layout.size_pos hb).2
  have hp := ha.layout.listp
  simp only [Heap.memHeapsize,Heap.memStartBrk] at hp ⊢
  omega

theorem FreeChain.hdFree_eq (hc : FreeChain h fl) : h.hdFree = fl.head?.getD 0 := by
  have hh : ptr h.hdFree = fl.head? := hc.chain.head
  rw [← hh,ptr]
  split <;> simp_all

theorem findFit_eq (ha : Arena h L fl) (size : Nat) :
    findFit size h = some ((fl.find? fun p => size ≤ getSize h (hdrp p)).getD 0) := by
  rw [findFit,ha.free.hdFree_eq]
  exact findFitLoop_eq (l := []) ha.free ha.length_lt

end FindFit

section Malloc

variable {h h' h'' : Heap} {A B : Plan} {live : List Blk} {p s size k : Nat}

-- h' holds the plan B, which lends ⟨p,s⟩ beside what A lends
structure Grant (h h' : Heap) (A B : Plan) (p s : Nat) : Prop where
  storage : h'.storage = h.storage
  heapListp : h'.heapListp = h.heapListp
  memBrk : h.memBrk ≤ h'.memBrk
  arena : Arena h' B.blocks B.free
  lends : (allocs B.blocks).Perm (⟨p,s,true⟩ :: allocs A.blocks)
  frame : Frame h h' (allocs A.blocks)

theorem Grant.outcome (g : Grant h h' A B p s) (hl : (allocs A.blocks).Perm live) :
    Outcome h h' live (⟨p,s,true⟩ :: live) :=
  ⟨g.storage,g.heapListp,g.memBrk,⟨_,_,g.arena,g.lends.trans (hl.cons _)⟩,
    g.frame.mono fun _ hb _ => hl.mem_iff.mpr hb⟩

theorem Grant.ne_zero (g : Grant h h' A B p s) : p ≠ 0 :=
  g.arena.layout.addr_ne_zero (b := ⟨p,s,true⟩) (mem_allocs.mp (g.lends.mem_iff.mpr (by simp))).1

theorem Grant.after {C : Plan} (g : Grant h' h'' C B p s) (e : Effect h h' k C.blocks C.free)
    (hC : allocs C.blocks = allocs A.blocks) : Grant h h'' A B p s := by
  refine ⟨g.storage.trans e.storage,g.heapListp.trans e.heapListp,?_,g.arena,hC ▸ g.lends,?_⟩
  · have h1 := e.memBrk
    have h2 := g.memBrk
    omega
  · exact (e.frame.of_allocs fun c hc => hC ▸ hc).trans (hC ▸ g.frame)

theorem Arena.nodup (ha : Arena h A.blocks A.free) : (A.blocks.map Blk.addr).Nodup :=
  ha.layout.addrs_nodup

theorem Effect.grant (e : Effect h h' k B.blocks B.free)
    (hp : (allocs B.blocks).Perm (⟨p,s,true⟩ :: allocs A.blocks)) : Grant h h' A B p s :=
  ⟨e.storage,e.heapListp,e.memBrk ▸ Nat.le_add_right _ _,e.arena,hp,
    e.frame.of_allocs fun _ hb => hp.mem_iff.mpr (List.mem_cons_of_mem _ hb)⟩

theorem placeAt_effect {b : Blk} (ha : Arena h A.blocks A.free) (hb : b ∈ A.blocks)
    (hf : b.alloc = false) (hs : size % 8 = 0) (h16 : 16 ≤ size) (hle : size ≤ b.size) :
    ∃ h', place b.addr size h = ((A.placeAt b.addr size).1,h') ∧
      Effect h h' 0 (A.placeAt b.addr size).2.blocks (A.placeAt b.addr size).2.free := by
  obtain ⟨pre,post,hL⟩ := List.append_of_mem hb
  obtain ⟨q,o,f⟩ := b
  obtain rfl : f = false := hf
  rw [Plan.placeAt,Plan.before_eq hL ha.nodup,Plan.after_eq hL ha.nodup,Plan.sizeAt_eq hL ha.nodup]
  exact place_effect (hL ▸ ha) hs h16 hle

theorem placeAt_allocs {b : Blk} (ha : Arena h A.blocks A.free) (hb : b ∈ A.blocks)
    (hf : b.alloc = false) (hle : size ≤ b.size) : ∃ s, size ≤ s ∧
      (allocs (A.placeAt b.addr size).2.blocks).Perm
        (⟨(A.placeAt b.addr size).1,s,true⟩ :: allocs A.blocks) := by
  obtain ⟨pre,post,hL⟩ := List.append_of_mem hb
  rw [Plan.placeAt,Plan.before_eq hL ha.nodup,Plan.after_eq hL ha.nodup,Plan.sizeAt_eq hL ha.nodup,
    show allocs A.blocks = allocs pre ++ allocs post by rw [hL,allocs_append,allocs_cons_free hf]]
  exact Plan.allocs_place pre post A.free b.addr hle

theorem alignSize_eq (hlt : size < 2 ^ 32) : alignSize size = 8 * ((size + 15) / 8) := by
  have hr : sizeT (size + 8 + (8 - 1)) = size + 15 := sizeT_eq (by omega)
  simp only [alignSize,dsize,hr]
  exact sizeT_eq (by omega)

theorem padded_spec (hlt : size ≤ 2 ^ 31 - 8) : Plan.padded size % 8 = 0 ∧
    size + 8 ≤ Plan.padded size ∧ Plan.padded size ≤ 2 ^ 31 := by
  obtain ⟨n,hn,hsn,hn31⟩ : ∃ n, (if (if size = 448 then 512 else size) = 112 then 128
      else if size = 448 then 512 else size) = n ∧ size ≤ n ∧ n ≤ 2 ^ 31 - 8 := by
    refine ⟨_,rfl,?_⟩
    split <;> split <;> omega
  simp only [Plan.padded,hn,alignSize_eq (by omega : n < 2 ^ 32)]
  omega

theorem release_effect (ha : Arena h A.blocks A.free) (hb : (⟨p,s,true⟩ : Blk) ∈ A.blocks)
    (hp : p ≠ h.heapListp) : Effect h (mmFree p h) 0 (A.release p).blocks (A.release p).free := by
  obtain ⟨pre,post,hL⟩ := List.append_of_mem hb
  have h1 := Plan.before_eq hL ha.nodup
  have h2 := Plan.after_eq hL ha.nodup
  have h3 := Plan.sizeAt_eq hL ha.nodup
  simp only at h1 h2 h3
  rw [Plan.release,h1,h2,h3]
  exact mmFree_spec (hL ▸ ha) hp

theorem release_allocs {rest : List Blk} (ha : Arena h A.blocks A.free)
    (hp : (allocs A.blocks).Perm (⟨p,s,true⟩ :: rest)) : (allocs (A.release p).blocks).Perm rest := by
  have hb : (⟨p,s,true⟩ : Blk) ∈ A.blocks := (mem_allocs.mp (hp.mem_iff.mpr (by simp))).1
  obtain ⟨pre,post,hL⟩ := List.append_of_mem hb
  have h1 := Plan.before_eq hL ha.nodup
  have h2 := Plan.after_eq hL ha.nodup
  simp only at h1 h2
  rw [Plan.release,h1,h2,Plan.allocs_merge _ rfl]
  rw [hL,allocs_append,allocs_cons_alloc rfl] at hp
  exact (List.perm_middle.symm.trans hp).cons_inv

theorem find_sizeAt (ha : Arena h A.blocks A.free) (size : Nat) :
    A.free.find? (fun p => decide (size ≤ getSize h (hdrp p))) =
      A.free.find? fun p => decide (size ≤ A.sizeAt p) := by
  refine List.find?_congr fun p hp => ?_
  obtain ⟨b,hb,_,rfl⟩ := mem_frees.mp (ha.perm.mem_iff.mp hp)
  obtain ⟨pre,post,hL⟩ := List.append_of_mem hb
  rw [ha.layout.hdr_size hb,Plan.sizeAt_eq hL ha.nodup]

theorem Arena.brk_eq (ha : Arena h A.blocks A.free) : A.brk = h.memBrk := by
  obtain ⟨pre,q,hq⟩ : ∃ pre q, A.blocks = pre ++ [q] :=
    ⟨_,_,(List.dropLast_concat_getLast ha.layout.ne_nil).symm⟩
  have hl := ha.layout
  rw [hq] at hl
  rw [Plan.brk,Plan.last,hq,List.getLast?_concat,Option.getD_some,hl.last_addr]

theorem mmMalloc_eq (ha : Arena h A.blocks A.free) (h0 : 0 < size) : mmMalloc size h =
    match A.free.find? fun p => decide (Plan.padded size ≤ A.sizeAt p) with
    | some p => some (place p (Plan.padded size) h)
    | none =>
      if (extendHeap (max (Plan.padded size) chunksize / wsize) h).1 = 0 then
        some (0,(extendHeap (max (Plan.padded size) chunksize / wsize) h).2)
      else some (place (extendHeap (max (Plan.padded size) chunksize / wsize) h).1 (Plan.padded size)
        (extendHeap (max (Plan.padded size) chunksize / wsize) h).2) := by
  have hpad : alignSize (if (if size = 448 then 512 else size) = 112 then 128
      else if size = 448 then 512 else size) = Plan.padded size := rfl
  have hmax : (if Plan.padded size > chunksize then Plan.padded size else chunksize) =
      max (Plan.padded size) chunksize := by
    split <;> omega
  simp only [mmMalloc,if_neg (show ¬ size = 0 by omega),hpad,hmax,findFit_eq ha,find_sizeAt ha]
  cases hf : A.free.find? fun p => decide (Plan.padded size ≤ A.sizeAt p) with
  | some p =>
    obtain ⟨b,hb,_,rfl⟩ := mem_frees.mp (ha.perm.mem_iff.mp (List.mem_of_find?_eq_some hf))
    simp only [Option.getD_some,if_pos (ha.layout.addr_ne_zero hb)]
  | none => rfl

theorem mmMalloc_fits (ha : Arena h A.blocks A.free) (h0 : 0 < size) (hlt : size ≤ 2 ^ 31 - 8)
    (hf : A.free.find? (fun p => decide (Plan.padded size ≤ A.sizeAt p)) = some p) :
    ∃ h', mmMalloc size h = some ((A.placeAt p (Plan.padded size)).1,h') ∧
      Effect h h' 0 (A.placeAt p (Plan.padded size)).2.blocks
        (A.placeAt p (Plan.padded size)).2.free ∧
      ∃ b ∈ A.blocks, b.alloc = false ∧ b.addr = p ∧ Plan.padded size ≤ b.size := by
  obtain ⟨hs8,hs16,hs31⟩ := padded_spec hlt
  obtain ⟨b,hb,hbf,rfl⟩ := mem_frees.mp (ha.perm.mem_iff.mp (List.mem_of_find?_eq_some hf))
  obtain ⟨pre,post,hL⟩ := List.append_of_mem hb
  have hfit : Plan.padded size ≤ A.sizeAt b.addr := by simpa using List.find?_some hf
  rw [Plan.sizeAt_eq hL ha.nodup] at hfit
  obtain ⟨h',he,hE⟩ := placeAt_effect ha hb hbf hs8 (by omega) hfit
  exact ⟨h',by rw [mmMalloc_eq ha h0,hf,← he],hE,b,hb,hbf,rfl,hfit⟩

theorem max_padded (hlt : size ≤ 2 ^ 31 - 8) : ∃ e, max (Plan.padded size) chunksize = e ∧
    Plan.padded size ≤ e ∧ e ≤ 2 ^ 31 ∧ e % 8 = 0 ∧ 16 ≤ e ∧ e / wsize * 4 = e := by
  have hc : chunksize = 4096 := rfl
  obtain ⟨hs8,hs16,hs31⟩ := padded_spec hlt
  refine ⟨_,rfl,?_⟩
  rw [show wsize = 4 from rfl]
  omega

theorem mmMalloc_extends (ha : Arena h A.blocks A.free) (h0 : 0 < size) (hlt : size ≤ 2 ^ 31 - 8)
    (hf : A.free.find? (fun p => decide (Plan.padded size ≤ A.sizeAt p)) = none)
    (hk : max (Plan.padded size) chunksize = k) (hk31 : k < 2 ^ 31)
    (hroom : h.memBrk + k ≤ h.memMaxAddr) :
    ∃ h1 h', mmMalloc size h =
        some (((A.extend k).placeAt (A.extend k).last.addr (Plan.padded size)).1,h') ∧
      Effect h h1 k (A.extend k).blocks (A.extend k).free ∧
      Effect h1 h' 0 ((A.extend k).placeAt (A.extend k).last.addr (Plan.padded size)).2.blocks
        ((A.extend k).placeAt (A.extend k).last.addr (Plan.padded size)).2.free := by
  obtain ⟨hs8,hs16,hs31⟩ := padded_spec hlt
  obtain ⟨e,he,hae,he31,he8,he16,hw⟩ := max_padded hlt
  obtain rfl : e = k := he.symm.trans hk
  obtain ⟨h1,hx,hE⟩ := extendHeap_spec ha hw he8 he16 hk31 hroom
  obtain ⟨pre,hL,hlf,hls,hal⟩ := Plan.blocks_extend A e
  have hmem : (A.extend e).last ∈ (A.extend e).blocks := by
    rw [hL]
    simp
  obtain ⟨h',hpl,hE'⟩ := placeAt_effect hE.arena hmem hlf hs8 (by omega) (hae.trans hls)
  refine ⟨h1,h',?_,hE,hE'⟩
  rw [mmMalloc_eq ha h0,hf,he,hx]
  simp only [if_neg (hE.arena.layout.addr_ne_zero hmem),hpl]

theorem mmMalloc_null (ha : Arena h A.blocks A.free) (h0 : 0 < size) (hlt : size ≤ 2 ^ 31 - 8)
    (hf : A.free.find? (fun p => decide (Plan.padded size ≤ A.sizeAt p)) = none)
    (hk : max (Plan.padded size) chunksize = k)
    (hroom : 2 ^ 31 ≤ k ∨ h.memMaxAddr < h.memBrk + k) : mmMalloc size h = some (0,h) := by
  obtain ⟨e,he,hae,he31,he8,he16,hw⟩ := max_padded hlt
  obtain rfl : e = k := he.symm.trans hk
  rw [mmMalloc_eq ha h0,hf,he,extendHeap_fail hw (by omega) hroom]
  rfl

theorem mmMalloc_plan (ha : Arena h A.blocks A.free) (h0 : 0 < size) (hlt : size ≤ 2 ^ 31 - 8) :
    match A.malloc h.memMaxAddr size with
    | none => mmMalloc size h = some (0,h)
    | some (p,B) => ∃ h' s, mmMalloc size h = some (p,h') ∧ size + 8 ≤ s ∧ Grant h h' A B p s := by
  have hs16 := (padded_spec hlt).2.1
  rw [Plan.malloc]
  cases hf : A.free.find? fun p => decide (Plan.padded size ≤ A.sizeAt p) with
  | some p =>
    obtain ⟨h',he,hE,b,hb,hbf,rfl,hfit⟩ := mmMalloc_fits ha h0 hlt hf
    obtain ⟨s,hss,hp⟩ := placeAt_allocs ha hb hbf hfit
    exact ⟨h',s,he,by omega,hE.grant hp⟩
  | none =>
    obtain ⟨e,he,hae,_⟩ := max_padded hlt
    simp only [he]
    rw [ha.brk_eq]
    by_cases hroom : e < 2 ^ 31 ∧ h.memBrk + e ≤ h.memMaxAddr
    · obtain ⟨h1,h',hm,hE,hE'⟩ := mmMalloc_extends ha h0 hlt hf he hroom.1 hroom.2
      obtain ⟨pre,hL,hlf,hls,hal⟩ := Plan.blocks_extend A e
      obtain ⟨s,hss,hp⟩ := placeAt_allocs hE.arena (by rw [hL]; simp) hlf (hae.trans hls)
      rw [if_pos hroom]
      refine ⟨h',s,hm,by omega,(hE'.grant hp).after hE ?_⟩
      rw [hL,allocs_append,allocs_cons_free hlf,allocs_nil,List.append_nil,hal]
    · rw [if_neg hroom]
      exact mmMalloc_null ha h0 hlt hf he (by omega)

theorem mmMalloc_spec (hl : Lent h live) (h0 : 0 < size) (hlt : size ≤ 2 ^ 31 - 8) :
    ∃ p h', mmMalloc size h = some (p,h') ∧ ((p = 0 ∧ h' = h) ∨
      ∃ s, size + 8 ≤ s ∧ p ≠ 0 ∧ Outcome h h' live (⟨p,s,true⟩ :: live)) := by
  obtain ⟨L,fl,ha,hp⟩ := hl
  have hm := mmMalloc_plan (A := ⟨L,fl⟩) ha h0 hlt
  split at hm
  · exact ⟨0,h,hm,Or.inl ⟨rfl,rfl⟩⟩
  · obtain ⟨h',s,he,hs,hG⟩ := hm
    exact ⟨_,h',he,Or.inr ⟨s,hs,hG.ne_zero,hG.outcome hp⟩⟩

end Malloc

end Malloc
