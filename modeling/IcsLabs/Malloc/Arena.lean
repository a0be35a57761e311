import IcsLabs.Malloc.Plan
import Mathlib.Data.List.Chain

namespace Malloc
open Bytes Tiling

def frees (L : List Blk) : List Nat := (L.filter (fun b => !b.alloc)).map Blk.addr

def allocs (L : List Blk) : List Blk := L.filter Blk.alloc

def Coalesced (L : List Blk) : Prop := L.IsChain (fun a b => a.alloc = true ∨ b.alloc = true)

def Frame (h h' : Heap) (L : List Blk) : Prop :=
  ∀ x, h'.mem x ≠ h.mem x → ∀ b ∈ L, b.alloc = true → ¬b.InPayload x

structure Arena (h : Heap) (L : List Blk) (fl : List Nat) : Prop where
  layout : Layout h L
  free : FreeChain h fl
  perm : fl.Perm (frees L)
  coalesced : Coalesced L

section Lists

variable {L pre post : List Blk} {b : Blk} {p : Nat}

@[simp] theorem frees_append : frees (pre ++ post) = frees pre ++ frees post := by simp [frees]
@[simp] theorem frees_nil : frees [] = [] := rfl
@[simp] theorem allocs_append : allocs (pre ++ post) = allocs pre ++ allocs post := by simp [allocs]
@[simp] theorem allocs_nil : allocs [] = [] := rfl

theorem frees_cons_free (hb : b.alloc = false) : frees (b :: L) = b.addr :: frees L := by
  simp [frees,hb]

theorem frees_cons_alloc (hb : b.alloc = true) : frees (b :: L) = frees L := by
  simp [frees,hb]

theorem perm_frees (hb : b.alloc = false) :
    (frees (pre ++ b :: post)).Perm (b.addr :: (frees pre ++ frees post)) := by
  rw [frees_append,frees_cons_free hb]
  exact List.perm_middle

theorem perm_frees_next {c : Blk} (hb : b.alloc = true) (hc : c.alloc = false) :
    (frees (pre ++ b :: c :: post)).Perm (c.addr :: (frees pre ++ frees post)) := by
  rw [frees_append,frees_cons_alloc hb,frees_cons_free hc]
  exact List.perm_middle

theorem allocs_cons_free (hb : b.alloc = false) : allocs (b :: L) = allocs L := by
  simp [allocs,hb]

theorem allocs_cons_alloc (hb : b.alloc = true) : allocs (b :: L) = b :: allocs L := by
  simp [allocs,hb]

theorem mem_frees : p ∈ frees L ↔ ∃ b ∈ L, b.alloc = false ∧ b.addr = p := by
  simp only [frees,List.mem_map,List.mem_filter,Bool.not_eq_true',and_assoc]

theorem mem_allocs : b ∈ allocs L ↔ b ∈ L ∧ b.alloc = true := by
  simp [allocs]

theorem coalesced_alloc (hb : b.alloc = true) :
    Coalesced (pre ++ b :: post) ↔ Coalesced pre ∧ Coalesced post := by
  simp only [Coalesced,List.isChain_append,List.isChain_cons,List.head?_cons,Option.mem_some_iff]
  constructor
  · exact fun h => ⟨h.1,h.2.1.2⟩
  · exact fun h => ⟨h.1,⟨fun y _ => Or.inl hb,h.2⟩,fun x _ y hy => Or.inr (hy ▸ hb)⟩

theorem coalesced_free (hb : b.alloc = false) :
    Coalesced (pre ++ b :: post) ↔ Coalesced pre ∧ Coalesced post ∧
      (∀ c, pre.getLast? = some c → c.alloc = true) ∧ ∀ c, post.head? = some c → c.alloc = true := by
  simp only [Coalesced,List.isChain_append,List.isChain_cons,List.head?_cons,Option.mem_def]
  constructor
  · rintro ⟨h1,⟨h2,h3⟩,h4⟩
    refine ⟨h1,h3,fun c hc => ?_,fun c hc => ?_⟩
    · exact (h4 c hc b rfl).resolve_right (by simp [hb])
    · exact (h2 c hc).resolve_left (by simp [hb])
  · rintro ⟨h1,h2,h3,h4⟩
    exact ⟨h1,⟨fun y hy => Or.inr (h4 y hy),h2⟩,fun x hx y _ => Or.inl (h3 x hx)⟩

theorem coalesced_cons_alloc (hb : b.alloc = true) : Coalesced (b :: post) ↔ Coalesced post := by
  simp [Coalesced,List.isChain_cons,hb]

theorem coalesced_cons_free (hb : b.alloc = false) : Coalesced (b :: post) ↔
    Coalesced post ∧ ∀ c, post.head? = some c → c.alloc = true := by
  simp [Coalesced,List.isChain_cons,hb,and_comm]

end Lists

section Plans

variable {L pre post : List Blk} {fl : List Nat} {b : Blk} {p o s a size k : Nat} {A : Plan}

theorem freeBlk_alloc (hb : b.alloc = true) : freeBlk (some b) = none := by simp [freeBlk,hb]

theorem freeBlk_free (hb : b.alloc = false) : freeBlk (some b) = some b := by simp [freeBlk,hb]

theorem freeBlk_eq_some {c : Option Blk} : freeBlk c = some b ↔ c = some b ∧ b.alloc = false := by
  simp [freeBlk,Option.filter_eq_some_iff]

theorem allocs_last_free {q : Blk} (hq : freeBlk pre.getLast? = some q) :
    allocs pre = allocs pre.dropLast := by
  obtain ⟨hl,hqf⟩ := freeBlk_eq_some.mp hq
  obtain ⟨ys,rfl⟩ := List.getLast?_eq_some_iff.mp hl
  rw [allocs_append,allocs_cons_free hqf,List.dropLast_concat,allocs_nil,List.append_nil]

theorem allocs_head_free {n : Blk} (hn : freeBlk post.head? = some n) :
    allocs post = allocs post.tail := by
  obtain ⟨hh,hnf⟩ := freeBlk_eq_some.mp hn
  obtain ⟨ys,rfl⟩ := List.head?_eq_some_iff.mp hh
  rw [allocs_cons_free hnf,List.tail_cons]

namespace Plan

theorem allocs_merge (fl : List Nat) (hb : b.alloc = false) :
    allocs (merge pre post fl b).blocks = allocs pre ++ allocs post := by
  rw [merge]
  cases hq : freeBlk pre.getLast? with
  | none =>
    cases hn : freeBlk post.head? with
    | none => simp only [allocs_append,allocs_cons_free hb]
    | some n => simp only [allocs_append,allocs_cons_free,allocs_head_free hn]
  | some q =>
    cases hn : freeBlk post.head? with
    | none => simp only [allocs_append,allocs_cons_free,allocs_last_free hq]
    | some n => simp only [allocs_append,allocs_cons_free,allocs_last_free hq,allocs_head_free hn]

theorem allocs_place (pre post : List Blk) (fl : List Nat) (p : Nat) (hle : size ≤ o) : ∃ s, size ≤ s ∧
    (allocs (place pre post fl p o size).2.blocks).Perm
      (⟨(place pre post fl p o size).1,s,true⟩ :: (allocs pre ++ allocs post)) := by
  rw [place]
  split
  · refine ⟨size,Nat.le_refl _,?_⟩
    rw [allocs_append,allocs_cons_free rfl,allocs_cons_alloc rfl]
    exact List.perm_middle
  · refine ⟨o,hle,?_⟩
    rw [allocs_append,allocs_cons_alloc rfl]
    exact List.perm_middle

theorem allocs_shrink :
    allocs (shrink pre post fl p s a).blocks = allocs pre ++ ⟨p,a,true⟩ :: allocs post := by
  rw [shrink]
  cases hn : freeBlk post.head? with
  | none => simp only [allocs_append,allocs_cons_free,allocs_cons_alloc]
  | some n => simp only [allocs_append,allocs_cons_free,allocs_cons_alloc,allocs_head_free hn]

theorem blocks_extend (A : Plan) (k : Nat) : ∃ pre, (A.extend k).blocks = pre ++ [(A.extend k).last] ∧
    (A.extend k).last.alloc = false ∧ k ≤ (A.extend k).last.size ∧ allocs pre = allocs A.blocks := by
  rw [extend]
  split
  · exact ⟨A.blocks,by simp [last],by simp [last],by simp [last],rfl⟩
  · rename_i hl
    refine ⟨A.blocks.dropLast,by simp [last],by simp [last],by simp [last],?_⟩
    have hf : freeBlk A.blocks.getLast? = some A.last := by
      rw [last] at hl ⊢
      cases hg : A.blocks.getLast? with
      | none => simp [hg] at hl
      | some q =>
        simp only [hg,Option.getD_some] at hl ⊢
        exact freeBlk_free (by simpa using hl)
    exact (allocs_last_free hf).symm

section Cut

variable (hb : A.blocks = pre ++ b :: post) (hn : (A.blocks.map Blk.addr).Nodup)
include hb hn

theorem addr_ne (c : Blk) (hc : c ∈ pre) : c.addr ≠ b.addr := by
  rw [hb,List.map_append,List.nodup_append] at hn
  exact hn.2.2 _ (List.mem_map_of_mem hc) _ (by simp)

theorem before_eq : A.before b.addr = pre := by
  rw [before,hb,List.takeWhile_append_of_pos fun c hc => by simpa using addr_ne hb hn c hc]
  simp

theorem after_eq : A.after b.addr = post := by
  rw [after,hb,List.dropWhile_append_of_pos fun c hc => by simpa using addr_ne hb hn c hc]
  simp

theorem sizeAt_eq : A.sizeAt b.addr = b.size := by
  have hnone : pre.find? (fun c => decide (c.addr = b.addr)) = none :=
    List.find?_eq_none.mpr fun c hc => by simpa using addr_ne hb hn c hc
  rw [sizeAt,hb,List.find?_append,hnone]
  simp

end Cut

end Plan

end Plans

namespace Frame

variable {h h' h'' : Heap} {L : List Blk}

theorem refl (h : Heap) (L : List Blk) : Frame h h L := fun _ hx => absurd rfl hx

theorem trans (f : Frame h h' L) (f' : Frame h' h'' L) : Frame h h'' L := by
  intro x hx
  by_cases hx' : h'.mem x = h.mem x
  · exact f' x (hx' ▸ hx)
  · exact f x hx'

end Frame

section Effects

variable {h h' h'' : Heap} {L pre post : List Blk} {b c m : Blk} {fl : List Nat}

theorem Layout.node (hl : Layout h L) (hb : b ∈ L) (hp : b ≠ prologue h) : Node h b.addr := by
  obtain ⟨c1,c2,c3,c4,c5⟩ := hl.sec hb
  have h1 := hl.base.span
  have h2 := hl.base.fits
  have hne : b.addr ≠ h.heapListp := fun e => hp (hl.eq_of_addr hb hl.prologue_mem e)
  exact ⟨c3,by omega,by omega,by omega⟩

theorem Layout.addrs_nodup (hl : Layout h L) : (L.map Blk.addr).Nodup :=
  tiles_nodup hl.tiles fun b hb => Nat.lt_of_lt_of_le (by omega) (hl.size_pos hb).2

theorem Layout.frees_nodup (hl : Layout h L) : (frees L).Nodup :=
  hl.addrs_nodup.sublist (List.filter_sublist.map _)

theorem frame_stamp (hl : Layout h' L) (h8 : 8 ≤ b.addr) (hm : m ∈ L) (hlo : m.addr ≤ b.addr)
    (hhi : b.addr + b.size ≤ m.addr + m.size) (hs : 8 ≤ b.size)
    (hma : m.alloc = false ∨ b = m) : Frame h (stamp b h) L := by
  intro x hx c hc hca hin
  have hxm : (b.addr ≤ x + 4 ∧ x < b.addr) ∨ (b.addr + b.size ≤ x + 8 ∧ x + 4 < b.addr + b.size) := by
    by_contra hcon
    exact hx (stamp_mem (by omega) (by omega) h8)
  obtain ⟨h1,h2⟩ := hin
  rcases hl.apart hc hm with rfl | h3 | h3
  · rcases hma with hf | rfl
    · simp [hf] at hca
    · omega
  · omega
  · omega

theorem frame_stamp_own (hl : Layout h' L) (hb : b ∈ L) : Frame h (stamp b h) L := by
  have hlo := (hl.sec hb).lo
  have hbase := hl.base.listp
  exact frame_stamp hl (by omega) hb (Nat.le_refl _) (Nat.le_refl _) (hl.sec hb).pos (Or.inr rfl)

theorem FreeChain.stamp (hc : FreeChain h fl) (h8 : 8 ≤ b.addr)
    (hd : ∀ p ∈ fl, (p + 12 ≤ b.addr ∨ b.addr ≤ p) ∧
      (p + 16 ≤ b.addr + b.size ∨ b.addr + b.size ≤ p + 4)) : FreeChain (stamp b h) fl := by
  refine hc.congr (stamp_frame b h) rfl rfl fun p hp x hx hx' => ?_
  have := hd p hp
  exact stamp_mem (by omega) (by omega) h8

theorem Layout.off_block (hl : Layout h L) (hf : fl ⊆ frees L) {x : Nat} (hx : x ∈ fl)
    (hb : b ∈ L) : (x = b.addr ∧ b.alloc = false ∧ 16 ≤ b.size) ∨ x + 16 ≤ b.addr ∨
      b.addr + b.size ≤ x := by
  obtain ⟨c,hc,hcf,rfl⟩ := mem_frees.mp (hf hx)
  have h16 := hl.size_ge hc (free_ne_prologue hcf)
  rcases hl.apart hc hb with rfl | h1 | h1
  · exact Or.inl ⟨rfl,hcf,h16⟩
  · exact Or.inr (Or.inl (by omega))
  · exact Or.inr (Or.inr h1)

theorem FreeChain.stamp_span (hc : FreeChain h fl) (hl : Layout h L) (hf : fl ⊆ frees L)
    (lo hi : Blk) (hlo : lo ∈ L) (hhi : hi ∈ L) (ha : b.addr = lo.addr)
    (he : b.addr + b.size = hi.addr + hi.size) : FreeChain (Malloc.stamp b h) fl := by
  have hbase := hl.base.listp
  have h8 := (hl.sec hlo).lo
  refine hc.stamp (by omega) fun x hx => ?_
  rw [he,ha]
  constructor
  · rcases hl.off_block hf hx hlo with h1 | h1 | h1 <;> omega
  · rcases hl.off_block hf hx hhi with h1 | h1 | h1 <;> omega

theorem FreeChain.stamp_cut (hc : FreeChain h fl) (hl : Layout h L) (hf : fl ⊆ frees L)
    (lo hi : Blk) (hlo : lo ∈ L) (hhi : hi ∈ L) (ha : b.addr = lo.addr) (h16 : 16 ≤ b.size)
    (hle : b.size ≤ lo.size) (hbc : b.addr + b.size = c.addr)
    (he : c.addr + c.size = hi.addr + hi.size) : FreeChain (Malloc.stamp c (Malloc.stamp b h)) fl := by
  have hbase := hl.base.listp
  have h8 := (hl.sec hlo).lo
  have hoff : ∀ x ∈ fl, (x + 12 ≤ lo.addr ∨ lo.addr ≤ x) ∧
      (x + 16 ≤ lo.addr + b.size ∨ lo.addr + b.size ≤ x) := fun x hx => by
    rcases hl.off_block hf hx hlo with h1 | h1 | h1 <;> omega
  refine (hc.stamp (by omega) fun x hx => ?_).stamp (by omega) fun x hx => ?_
  · have := hoff x hx
    omega
  · have := (hoff x hx).2
    rw [he,← hbc,ha]
    refine ⟨by omega,?_⟩
    rcases hl.off_block hf hx hhi with h1 | h1 | h1 <;> omega

-- links of free blocks lie in payloads, away from every tag
theorem Layout.link_edit (hl : Layout h L) (he : LinkEdit h h' fl) (hp : fl.Perm (frees L)) :
    Layout h' L ∧ Frame h h' L := by
  have hw : ∀ x, h'.mem x ≠ h.mem x → ∃ b ∈ L, b.alloc = false ∧ b.InPayload x := by
    intro x hx
    obtain ⟨p,hpm,h1,h2⟩ := he.mem x hx
    obtain ⟨b,hb,hf,rfl⟩ := mem_frees.mp (hp.mem_iff.mp hpm)
    have hs := hl.size_ge hb (free_ne_prologue hf)
    exact ⟨b,hb,hf,h1,by omega⟩
  refine ⟨hl.of_writes he.frame fun x hx => ?_,fun x hx c hc hca hin => ?_⟩
  · obtain ⟨b,hb,_,hin⟩ := hw x hx
    exact ⟨b,hb,hin⟩
  · obtain ⟨b,hb,hf,hin'⟩ := hw x hx
    obtain rfl := hl.eq_of_payload hb hc hin' hin
    simp [hf] at hca

theorem Layout.free_apart (hl : Layout h L) (hp : fl.Perm (frees L)) (hb : b ∈ L) {q : Nat}
    (hq : q ∈ fl) : (q = b.addr ∧ b.alloc = false) ∨ q + 16 ≤ b.addr ∨ b.addr + b.size ≤ q := by
  exact (hl.off_block hp.subset hq hb).imp_left fun h => ⟨h.1,h.2.1⟩

end Effects

structure Effect (h h' : Heap) (k : Nat) (L : List Blk) (fl : List Nat) : Prop where
  storage : h'.storage = h.storage
  heapListp : h'.heapListp = h.heapListp
  memBrk : h'.memBrk = h.memBrk + k
  arena : Arena h' L fl
  frame : Frame h h' L

theorem Effect.after {h h' h'' : Heap} {L : List Blk} {fl : List Nat} {k : Nat}
    (e : Effect h' h'' 0 L fl) (hst : h'.storage = h.storage) (hlp : h'.heapListp = h.heapListp)
    (hbrk : h'.memBrk = h.memBrk + k) (hf : Frame h h' L) : Effect h h'' k L fl :=
  ⟨e.storage.trans hst,e.heapListp.trans hlp,e.memBrk.trans hbrk,e.arena,hf.trans e.frame⟩

section ListSteps

variable {h : Heap} {L : List Blk} {fl F xs ys : List Nat} {p q : Nat}

theorem erase_middle (hn : (xs ++ p :: ys).Nodup) : (xs ++ p :: ys).erase p = xs ++ ys := by
  have hx : p ∉ xs := fun h => (List.nodup_append.mp hn).2.2 p h p (by simp) rfl
  rw [List.erase_append_right _ hx,List.erase_cons_head]

theorem relink_middle (hn : (xs ++ p :: ys).Nodup) : relink p q (xs ++ p :: ys) = xs ++ q :: ys := by
  have hp := (List.nodup_cons.mp (List.perm_middle.nodup_iff.mp hn)).1
  have hid (zs : List Nat) (hz : p ∉ zs) : zs.map (fun x => if x = p then q else x) = zs :=
    (List.map_congr_left fun x hx => if_neg fun (e : x = p) => hz (e ▸ hx)).trans (List.map_id' zs)
  rw [relink,List.map_append,List.map_cons,if_pos rfl,hid xs fun h => hp (by simp [h]),
    hid ys fun h => hp (by simp [h])]

theorem effect_insert (hl : Layout h L) (hc : FreeChain h fl) (hp : (p :: fl).Perm (frees L))
    (hco : Coalesced L) : Effect h (insertFreeBlock p h) 0 L (fl ++ [p]) := by
  have hnd := hp.nodup_iff.mpr hl.frees_nodup
  obtain ⟨b,hb,hbf,rfl⟩ := mem_frees.mp (hp.mem_iff.mp (by simp : p ∈ p :: fl))
  have hperm : (fl ++ [b.addr]).Perm (frees L) := (List.perm_append_singleton _ _).trans hp
  obtain ⟨hc',he⟩ := hc.insert (hl.node hb (free_ne_prologue hbf)) (List.nodup_cons.mp hnd).1
  obtain ⟨hl',hf'⟩ := hl.link_edit he hperm
  exact ⟨he.frame.storage,he.frame.heapListp,he.frame.memBrk,⟨hl',hc',hperm,hco⟩,hf'⟩

theorem effect_remove (hl : Layout h L) (hc : FreeChain h fl) (hp : fl.Perm (p :: frees L))
    (hco : Coalesced L) : Effect h (removeFreeBlock p h) 0 L (fl.erase p) := by
  obtain ⟨xs,ys,rfl⟩ := List.append_of_mem (hp.mem_iff.mpr (by simp : p ∈ p :: frees L))
  rw [erase_middle hc.chain.nodup]
  have hperm : (xs ++ ys).Perm (frees L) := (List.perm_middle.symm.trans hp).cons_inv
  obtain ⟨hc',he⟩ := hc.remove
  obtain ⟨hl',hf'⟩ := hl.link_edit he hperm
  exact ⟨he.frame.storage,he.frame.heapListp,he.frame.memBrk,⟨hl',hc',hperm,hco⟩,hf'⟩

theorem effect_replace (hl : Layout h L) (hc : FreeChain h fl) (hp : fl.Perm (p :: F))
    (hF : (q :: F).Perm (frees L)) (hco : Coalesced L) :
    Effect h (replaceFreeBlock p q h) 0 L (relink p q fl) := by
  obtain ⟨xs,ys,rfl⟩ := List.append_of_mem (hp.mem_iff.mpr (by simp : p ∈ p :: F))
  rw [relink_middle hc.chain.nodup]
  have hrest : (xs ++ ys).Perm F := (List.perm_middle.symm.trans hp).cons_inv
  have hperm : (xs ++ q :: ys).Perm (frees L) :=
    (List.perm_middle.trans (hrest.cons q)).trans hF
  have hnd := (List.perm_middle.symm.trans hperm).nodup_iff.mpr hl.frees_nodup
  obtain ⟨b,hb,hbf,rfl⟩ := mem_frees.mp (hperm.mem_iff.mp (by simp : q ∈ xs ++ q :: ys))
  obtain ⟨hc',he⟩ := hc.replace (hl.node hb (free_ne_prologue hbf)) (List.nodup_cons.mp hnd).1
  obtain ⟨hl',hf'⟩ := hl.link_edit he hperm
  exact ⟨he.frame.storage,he.frame.heapListp,he.frame.memBrk,⟨hl',hc',hperm,hco⟩,hf'⟩

end ListSteps

end Malloc
