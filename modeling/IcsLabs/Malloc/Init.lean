import IcsLabs.Malloc.Realloc

namespace Malloc
open Bytes Tiling Linked

-- the heap mm_init hands to extend_heap: the prologue block and the epilogue header alone
def initial (h : Heap) : Heap :=
  mmInitTags ⟨h.storage,h.mem,h.memStartBrk + 16,h.memStartBrk,0,0⟩

section Init

theorem initial_arena (h : Heap) : Arena (initial h) [prologue (initial h)] [] := by
  have h1 := h.storage.nonnull
  have h2 := h.storage.max
  simp only [maxHeap] at h2
  have g1 : (initial h).get (h.storage.addr + 4) = 9 := by
    change (Heap.put (Heap.put (Heap.put _ (h.storage.addr + 4) 9) (h.storage.addr + 8) 9)
      (h.storage.addr + 12) 1).get (h.storage.addr + 4) = 9
    rw [get_put_apart (by omega),get_put_apart (by omega),get_put_same]
    rfl
  have g2 : (initial h).get (h.storage.addr + 8) = 9 := by
    change (Heap.put (Heap.put _ (h.storage.addr + 8) 9) (h.storage.addr + 12) 1).get
      (h.storage.addr + 8) = 9
    rw [get_put_apart (by omega),get_put_same]
    rfl
  have g3 : (initial h).get (h.storage.addr + 12) = 1 := get_put_same _ _ _
  refine ⟨⟨rfl,?_,rfl,⟨rfl,?_⟩,by simp [prologue,dsize],?_,?_⟩,⟨?_,⟨.nil,rfl,rfl,trivial⟩,by simp⟩,
    .refl _,List.isChain_singleton _⟩
  · change h.storage.addr + 16 ≤ h.storage.maxAddr
    omega
  · exact rfl
  · intro b hb
    obtain rfl : b = prologue (initial h) := by simpa using hb
    exact ⟨g1,g2⟩
  · exact g3
  · exact Nat.succ_pos _

theorem memSbrk_first {g : Heap} (hb : g.memBrk = g.memStartBrk) : memSbrk (2 * dsize : Nat) g =
    (g.memStartBrk,{ g with memBrk := g.memStartBrk + 16 }) := by
  rw [memSbrk,if_neg,hb]
  · rfl
  · have hm := g.storage.max
    simp only [hb,Heap.memMaxAddr,Heap.memStartBrk,maxHeap,dsize] at hm ⊢
    omega

theorem mmInit_plan (h : Heap) : ∃ h', mmInit h.memResetBrk = (0,h') ∧ h'.storage = h.storage ∧
    h'.heapListp = h.memStartBrk + 8 ∧
    Arena h' (Plan.fresh.up h.memStartBrk).blocks (Plan.fresh.up h.memStartBrk).free := by
  have hfits := h.storage.fits
  simp only [maxHeap] at hfits
  have hne : h.memStartBrk ≠ sbrkFailed := by
    simp only [Heap.memStartBrk,sbrkFailed]
    omega
  have hs : memSbrk (2 * dsize : Nat) ⟨h.storage,h.mem,h.memStartBrk,h.heapListp,0,0⟩ =
      (h.memStartBrk,⟨h.storage,h.mem,h.memStartBrk + 16,h.heapListp,0,0⟩) :=
    memSbrk_first (g := ⟨h.storage,h.mem,h.memStartBrk,h.heapListp,0,0⟩) rfl
  have hroom : (initial h).memBrk + 4096 ≤ (initial h).memMaxAddr := by
    change h.storage.addr + 16 + 4096 ≤ h.storage.maxAddr
    rw [h.storage.max,maxHeap]
    omega
  have hw : chunksize / wsize = 1024 := rfl
  obtain ⟨h',he,hE⟩ := extendHeap_spec (A := Plan.up h.memStartBrk ⟨[⟨8,8,true⟩],[]⟩) (initial_arena h)
    (show 1024 * 4 = chunksize from rfl) rfl (by decide) (by decide) hroom
  rw [Plan.extend_up (by simp),← Plan.fresh] at he hE
  have hbp : (Plan.fresh.up h.memStartBrk).last.addr ≠ 0 := by
    have h0 := h.storage.nonnull
    rw [Plan.last_up (by simp [Plan.fresh,Plan.extend,Plan.last])]
    exact Nat.ne_of_gt (Nat.lt_of_lt_of_le h0 (Nat.le_add_right _ _))
  refine ⟨h',?_,hE.storage,hE.heapListp,hE.arena⟩
  rw [initial] at he
  simp only [mmInit,Heap.memResetBrk,hs,if_neg hne,hw,he,if_neg hbp]

theorem mmInit_lent (h : Heap) : ∃ h', mmInit h.memResetBrk = (0,h') ∧
    h'.storage = h.storage ∧ Lent h' [prologue h'] := by
  obtain ⟨h',he,hst,hlp,ha⟩ := mmInit_plan h
  refine ⟨h',he,hst,_,_,ha,?_⟩
  rw [prologue,hlp]
  rfl

end Init

end Malloc
