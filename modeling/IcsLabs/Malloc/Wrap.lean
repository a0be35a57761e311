import IcsLabs.Malloc.Fit

namespace Malloc
open Bytes Tiling Linked
open Libc (toInt toInt_mod)

-- the payload from p to its footer holds size bytes of the heap
def Served (h : Heap) (p size : Nat) : Prop :=
  h.memStartBrk ≤ p ∧ p + size ≤ ftrp h p ∧ ftrp h p + wsize ≤ h.memBrk

instance (h : Heap) (p size : Nat) : Decidable (Served h p size) :=
  inferInstanceAs (Decidable (_ ∧ _ ∧ _))

def SizeKept (size : Nat) (h : Heap) : Prop :=
  ∃ p h', mmMalloc size h = some (p,h') ∧ (p = 0 ∨ Served h' p size)

-- what mem_sbrk is asked for after the conversion to int fits
def Grows (n : Nat) (h : Heap) : Prop := n % 2 ^ 32 < 2 ^ 31 ∧ h.memBrk + n % 2 ^ 32 ≤ h.memMaxAddr

instance (n : Nat) (h : Heap) : Decidable (Grows n h) := inferInstanceAs (Decidable (_ ∧ _))

def Unwrapped (size : Nat) (h : Heap) : Prop :=
  size ≤ 2 ^ 31 - 8 ∨
    size < 2 ^ 64 - 15 ∧ ¬ Grows (alignSize size) h ∨
    2 ^ 64 - 15 ≤ size ∧ h.hdFree = 0 ∧ ¬ Grows chunksize h

section Memory

variable (h : Heap) (bp size : Nat)

theorem insertFreeBlock_same : (insertFreeBlock bp h).memBrk = h.memBrk ∧
    (insertFreeBlock bp h).storage = h.storage := by
  rw [insertFreeBlock]
  split <;> exact ⟨rfl,rfl⟩

theorem removeFreeBlock_same : (removeFreeBlock bp h).memBrk = h.memBrk ∧
    (removeFreeBlock bp h).storage = h.storage := by
  rw [removeFreeBlock]
  split_ifs <;> exact ⟨by simp only [put_memBrk],by simp only [put_storage]⟩

theorem place_same : (place bp size h).2.memBrk = h.memBrk ∧
    (place bp size h).2.storage = h.storage := by
  rw [place]
  split
  · exact ⟨rfl,rfl⟩
  · simp only [(removeFreeBlock_same _ bp).1,(removeFreeBlock_same _ bp).2,put_memBrk,put_storage,
      and_self]

variable {bp}

theorem place_ne_zero (hb : bp ≠ 0) : (place bp size h).1 ≠ 0 := by
  rw [place]
  split
  · simp only [nextBlkp]
    omega
  · exact hb

end Memory

section Wrap

variable {h : Heap} {A : Plan} {L : List Blk} {fl : List Nat} {n size p : Nat}

theorem memSbrk_grows (hg : Grows n h) :
    memSbrk (toInt n) h = (h.memBrk,{ h with memBrk := h.memBrk + n % 2 ^ 32 }) := by
  rw [toInt_mod,memSbrk_ok hg.1 hg.2]

theorem memSbrk_stuck (hg : ¬ Grows n h) : memSbrk (toInt n) h = (sbrkFailed,h) := by
  have hm : n % 2 ^ 32 < 2 ^ 32 := Nat.mod_lt _ (by decide)
  rw [Grows] at hg
  rw [toInt_mod,memSbrk_fail hm (by omega)]

theorem extendHeap_stuck (words : Nat) (hg : ¬ Grows (sizeT (words * wsize)) h) :
    extendHeap words h = (0,h) := by
  rw [extendHeap]
  dsimp only
  rw [memSbrk_stuck hg]
  exact if_pos rfl

theorem Layout.prev_brk {pre : List Blk} {q : Blk} (hl : Layout h (pre ++ [q])) :
    prevBlkp h h.memBrk = q.addr := by
  have hq := hl.ftr_size (by simp : q ∈ pre ++ [q])
  rw [hl.last_addr] at hq
  rw [prevBlkp,dsize,hq,← hl.last_addr,Nat.add_sub_cancel]

theorem extendHeap_grows (words : Nat) (ha : Arena h L fl)
    (hg : Grows (sizeT (words * wsize)) h) :
    (extendHeap words h).1 ≠ 0 ∧
      (extendHeap words h).2.memBrk = h.memBrk + sizeT (words * wsize) % 2 ^ 32 ∧
      (extendHeap words h).2.storage = h.storage := by
  have hl := ha.layout
  obtain ⟨pre,q,rfl⟩ : ∃ pre q, L = pre ++ [q] :=
    ⟨L.dropLast,L.getLast hl.ne_nil,(List.dropLast_concat_getLast hl.ne_nil).symm⟩
  have h1 := hl.base.listp_brk
  have h2 := hl.base.fits
  have h3 := hl.base.brk
  have hbrk : h.memBrk ≠ sbrkFailed := by
    rw [sbrkFailed]
    omega
  have hprev : prevBlkp { h with memBrk := h.memBrk + sizeT (words * wsize) % 2 ^ 32 } h.memBrk =
      q.addr := hl.prev_brk
  rw [extendHeap]
  dsimp only
  rw [memSbrk_grows hg]
  simp only [if_neg hbrk,hprev]
  split
  · refine ⟨?_,(insertFreeBlock_same _ _).1,(insertFreeBlock_same _ _).2⟩
    simp only
    omega
  · exact ⟨hl.addr_ne_zero (by simp),rfl,rfl⟩

theorem alignSize_wide (hs : 2 ^ 31 - 8 < size) (hlt : size < 2 ^ 64 - 15) :
    alignSize size = 8 * ((size + 15) / 8) := by
  have hr : sizeT (size + 8 + (8 - 1)) = size + 15 := sizeT_eq (by omega)
  simp only [alignSize,dsize,hr]
  exact sizeT_eq (by omega)

theorem alignSize_wrapped (hs : 2 ^ 64 - 15 ≤ size) (hlt : size < 2 ^ 64) : alignSize size ≤ 8 := by
  have hr : sizeT (size + 8 + (8 - 1)) = size + 15 - 2 ^ 64 := by
    rw [sizeT]
    omega
  simp only [alignSize,dsize,hr]
  rw [sizeT_eq (by omega)]
  omega

theorem padded_wide (hs : 2 ^ 31 - 8 < size) : Plan.padded size = alignSize size := by
  rw [Plan.padded]
  simp only [if_neg (by omega : ¬ size = 448),if_neg (by omega : ¬ size = 112)]

theorem not_served {h' : Heap} (hst : h'.storage = h.storage)
    (hb : h'.memBrk ≤ h.memMaxAddr) (hs : 2 ^ 31 - 8 < size) : ¬ Served h' p size := by
  rintro ⟨h1,h2,h3⟩
  have hm := h.storage.max
  simp only [Heap.memStartBrk,Heap.memMaxAddr,maxHeap,hst] at *
  omega

theorem not_kept {bp a : Nat} {g : Heap} (hm : mmMalloc size h = some (place bp a g)) (hbp : bp ≠ 0)
    (hst : g.storage = h.storage) (hb : g.memBrk ≤ h.memMaxAddr) (hs : 2 ^ 31 - 8 < size) :
    ¬ SizeKept size h := by
  rintro ⟨p,h',he,hk⟩
  have hpl : place bp a g = (p,h') := Option.some.inj (hm.symm.trans he)
  have hne := place_ne_zero g a hbp
  obtain ⟨h1,h2⟩ := place_same g bp a
  rw [hpl] at hne h1 h2
  rcases hk with rfl | hk
  · exact hne rfl
  · exact not_served (h2.trans hst) (h1.symm ▸ hb) hs hk

theorem kept_of_le (ha : Arena h A.blocks A.free) (h0 : 0 < size) (hs : size ≤ 2 ^ 31 - 8) :
    SizeKept size h := by
  have hm := mmMalloc_plan ha h0 hs
  split at hm
  · exact ⟨0,h,hm,.inl rfl⟩
  · obtain ⟨h',s,he,hss,hG⟩ := hm
    have hl := hG.arena.layout
    have hb := (mem_allocs.mp (hG.lends.mem_iff.mpr (List.mem_cons_self))).1
    obtain ⟨c1,c2,_,_,_⟩ := hl.sec hb
    have h1 := hl.listp
    refine ⟨_,h',he,.inr ⟨?_,?_,?_⟩⟩
    · simp only at c1
      omega
    · rw [hl.ftrp_eq hb]
      simp only
      omega
    · rw [hl.ftrp_eq hb,wsize]
      simp only at c2 ⊢
      omega

theorem find_none (ha : Arena h A.blocks A.free) (hs : 2 ^ 31 ≤ n) :
    A.free.find? (fun p => decide (n ≤ A.sizeAt p)) = none := by
  rw [← find_sizeAt ha,List.find?_eq_none]
  intro p hp
  obtain ⟨b,hb,_,rfl⟩ := mem_frees.mp (ha.perm.mem_iff.mp hp)
  have h1 := (ha.layout.sec hb).lo
  have h2 := (ha.layout.sec hb).hi
  have h3 := ha.layout.base.span
  rw [ha.layout.hdr_size hb]
  simp only [decide_eq_true_eq]
  omega

theorem kept_wide (ha : Arena h A.blocks A.free) (hs : 2 ^ 31 - 8 < size)
    (hlt : size < 2 ^ 64 - 15) : SizeKept size h ↔ ¬ Grows (alignSize size) h := by
  have haa := alignSize_wide hs hlt
  have hf := find_none ha (n := alignSize size) (by omega)
  have hc : chunksize = 4096 := rfl
  have hmax : max (alignSize size) chunksize = alignSize size := max_eq_left (by omega)
  have hw : sizeT (alignSize size / wsize * wsize) = alignSize size := by
    rw [show wsize = 4 from rfl,sizeT_eq (by omega)]
    omega
  have hm := mmMalloc_eq ha (by omega : 0 < size)
  rw [padded_wide hs,hf,hmax] at hm
  by_cases hg : Grows (alignSize size) h
  · obtain ⟨g1,g2,g3⟩ := extendHeap_grows (alignSize size / wsize) ha (hw.symm ▸ hg)
    rw [hw] at g2
    simp only [if_neg g1] at hm
    exact iff_of_false (not_kept hm g1 g3 (g2.symm ▸ hg.2) hs) (not_not.mpr hg)
  · rw [extendHeap_stuck _ (hw.symm ▸ hg)] at hm
    exact iff_of_true ⟨0,h,hm,.inl rfl⟩ hg

theorem kept_wrapped (ha : Arena h A.blocks A.free) (hs : 2 ^ 64 - 15 ≤ size)
    (hlt : size < 2 ^ 64) : SizeKept size h ↔ h.hdFree = 0 ∧ ¬ Grows chunksize h := by
  have ha8 := alignSize_wrapped hs hlt
  have hc : chunksize = 4096 := rfl
  have hmax : max (alignSize size) chunksize = chunksize := max_eq_right (by omega)
  have hw : sizeT (chunksize / wsize * wsize) = chunksize := rfl
  have hm := mmMalloc_eq ha (by omega : 0 < size)
  rw [padded_wide (by omega),hmax] at hm
  have hhd := ha.free.hdFree_eq
  cases hfl : A.free with
  | nil =>
    rw [hfl] at hm hhd
    simp only [List.find?_nil] at hm
    by_cases hg : Grows chunksize h
    · obtain ⟨g1,g2,g3⟩ := extendHeap_grows (chunksize / wsize) ha hg
      rw [hw] at g2
      simp only [if_neg g1] at hm
      exact iff_of_false (not_kept hm g1 g3 (g2.symm ▸ hg.2) (by omega)) fun h => h.2 hg
    · rw [extendHeap_stuck (chunksize / wsize) hg] at hm
      exact iff_of_true ⟨0,h,hm,.inl rfl⟩ ⟨hhd,hg⟩
  | cons q rest =>
    obtain ⟨b,hb,hbf,rfl⟩ := mem_frees.mp (ha.perm.mem_iff.mp (hfl ▸ List.mem_cons_self))
    obtain ⟨pre,post,hL⟩ := List.append_of_mem hb
    have h16 := ha.layout.size_ge hb (free_ne_prologue hbf)
    have hq0 := ha.layout.addr_ne_zero hb
    have hfit : alignSize size ≤ A.sizeAt b.addr := by
      rw [Plan.sizeAt_eq hL ha.nodup]
      omega
    have hfind : (b.addr :: rest).find? (fun p => decide (alignSize size ≤ A.sizeAt p)) =
        some b.addr := List.find?_cons_of_pos (decide_eq_true hfit)
    rw [hfl] at hm hhd
    rw [hfind] at hm
    exact iff_of_false (not_kept hm hq0 rfl ha.layout.brk_le (by omega)) fun e => hq0 (hhd.symm.trans e.1)

end Wrap

section Runs

variable {calls : List Call} {h : Heap} {c : Client} {size : Nat}

theorem malloc_size_kept (hr : Client.run calls h = some c) (h0 : 0 < size) (hlt : size < 2 ^ 64) :
    SizeKept size c.heap ↔ Unwrapped size c.heap := by
  obtain ⟨sizes,hc⟩ := Client.run_inv hr
  obtain ⟨L,fl,ha,_⟩ := hc.lent
  rw [Unwrapped]
  rcases Nat.lt_or_ge (2 ^ 31 - 8) size with h1 | h1
  · rcases Nat.lt_or_ge size (2 ^ 64 - 15) with h2 | h2
    · rw [kept_wide (A := ⟨L,fl⟩) ha h1 h2]
      refine ⟨fun hg => .inr (.inl ⟨h2,hg⟩),?_⟩
      rintro (hs | ⟨_,hg⟩ | ⟨hs,_⟩)
      · omega
      · exact hg
      · omega
    · rw [kept_wrapped (A := ⟨L,fl⟩) ha h2 hlt]
      refine ⟨fun hg => .inr (.inr ⟨h2,hg⟩),?_⟩
      rintro (hs | ⟨hs,_⟩ | ⟨_,hg⟩)
      · omega
      · omega
      · exact hg
  · exact iff_of_true (kept_of_le (A := ⟨L,fl⟩) ha h0 h1) (.inl h1)

theorem malloc_size_kept_sample : ∃ c, Client.run sampleCalls sampleHeap = some c ∧
    (SizeKept (2 ^ 31) c.heap ↔ Unwrapped (2 ^ 31) c.heap) := by
  obtain ⟨c,hr⟩ := sample_runs
  exact ⟨c,hr,malloc_size_kept hr (by decide) (by decide)⟩

-- 4 GB asked of the fresh heap
theorem malloc_wraps : ∃ c, Client.run [] sampleHeap = some c ∧ ¬ SizeKept (2 ^ 32) c.heap := by
  have h : (Client.run [] sampleHeap).any (fun c => (mmMalloc (2 ^ 32) c.heap).any fun r =>
      decide (r.1 ≠ 0 ∧ ¬ Served r.2 r.1 (2 ^ 32))) = true := by decide +kernel
  obtain ⟨c,hr,hc⟩ := (Option.any_eq_true _ _).mp h
  obtain ⟨r,hm,hq⟩ := (Option.any_eq_true _ _).mp hc
  obtain ⟨h0,hs⟩ := of_decide_eq_true hq
  refine ⟨c,hr,?_⟩
  rintro ⟨p,h',he,hk⟩
  cases Option.some.inj (hm.symm.trans he)
  exact hk.elim h0 hs

end Runs

end Malloc
