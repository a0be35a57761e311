import IcsLabs.Malloc.Client

namespace Malloc
open Bytes Tiling Linked

-- the k-th block after the prologue
def blockPtr (h : Heap) (k : Nat) : Nat := (nextBlkp h)^[k] (nextBlkp h h.heapListp)

structure BlockStructure (h : Heap) (live : List Nat) (n : Nat) : Prop where
  ends : blockPtr h n = h.memBrk
  epilogue : h.get (hdrp h.memBrk) = pack 0 1
  below : ∀ k, k < n → blockPtr h k < h.memBrk
  size : ∀ k, k < n → getSize h (hdrp (blockPtr h k)) % 8 = 0 ∧ 16 ≤ getSize h (hdrp (blockPtr h k))
  tags : ∀ k, k < n → h.get (hdrp (blockPtr h k)) = h.get (ftrp h (blockPtr h k))
  alloc : ∀ k, k < n → (getAlloc h (hdrp (blockPtr h k)) = 1 ↔ blockPtr h k ∈ live)
  covers : ∀ p ∈ live, ∃ k, k < n ∧ blockPtr h k = p
  coalesced : ∀ k, k + 1 < n →
    ¬(getAlloc h (hdrp (blockPtr h k)) = 0 ∧ getAlloc h (hdrp (blockPtr h (k + 1))) = 0)

structure FreeListStructure (h : Heap) (n : Nat) (fl : List Nat) : Prop where
  nodup : fl.Nodup
  walk : ∀ k (hk : k < fl.length), (nextFreeBlock h)^[k] h.hdFree = fl[k]
  ends : (nextFreeBlock h)^[fl.length] h.hdFree = 0
  tail : fl.getLast?.getD 0 = h.ftFree
  visits : ∀ p, p ∈ fl ↔ ∃ k, k < n ∧ blockPtr h k = p ∧ getAlloc h (hdrp p) = 0
  inverse : ∀ p ∈ fl, ∀ q ∈ fl, nextFreeBlock h p = q ↔ prevFreeBlock h q = p
  first : h.hdFree ≠ 0 → prevFreeIndex h h.hdFree = 0
  last : h.ftFree ≠ 0 → nextFreeIndex h h.ftFree = 0
  offsets : ∀ p ∈ fl, ∀ i, i = prevFreeIndex h p ∨ i = nextFreeIndex h p → i ≠ 0 →
    i < 2 ^ 32 ∧ h.heapListp + i ∈ fl

section Walk

variable {h : Heap} {L bs : List Blk} {fl : List Nat} {c : Nat}

theorem Layout.walk (hl : Layout h L) (hs : ∀ b ∈ bs, b ∈ L)
    (ht : Tiles Blk.addr Blk.size c bs h.memBrk) :
    (∀ k (hk : k < bs.length), (nextBlkp h)^[k] c = bs[k].addr) ∧
      (nextBlkp h)^[bs.length] c = h.memBrk := by
  induction bs generalizing c with
  | nil => exact ⟨fun k hk => absurd hk (by simp),ht⟩
  | cons b bs ih =>
    obtain ⟨rfl,ht⟩ := ht
    have hn := hl.nextBlkp_eq (hs b (by simp))
    obtain ⟨h1,h2⟩ := ih (fun d hd => hs d (by simp [hd])) ht
    refine ⟨fun k hk => ?_,?_⟩
    · cases k with
      | zero => rfl
      | succ k =>
        rw [Function.iterate_succ_apply,hn]
        exact h1 k (by simpa using hk)
    · rw [List.length_cons,Function.iterate_succ_apply,hn]
      exact h2

theorem Layout.blocks (hl : Layout h L) : ∃ bs, L = prologue h :: bs ∧
    (∀ k (hk : k < bs.length), blockPtr h k = bs[k].addr) ∧ blockPtr h bs.length = h.memBrk := by
  obtain ⟨bs,rfl⟩ : ∃ bs, L = prologue h :: bs := by
    have hf := hl.first
    cases L with
    | nil => simp at hf
    | cons b bs => exact ⟨bs,by simpa using hf⟩
  have ht := hl.tiles.2
  rw [show h.heapListp = (prologue h).addr from rfl] at ht
  rw [← hl.nextBlkp_eq (by simp)] at ht
  exact ⟨bs,rfl,hl.walk (fun b hb => by simp [hb]) ht⟩

theorem toNat_eq_one {b : Bool} : b.toNat = 1 ↔ b = true := by cases b <;> simp

theorem toNat_eq_zero {b : Bool} : b.toNat = 0 ↔ b = false := by cases b <;> simp

end Walk

section Holds

variable {h : Heap} {bs : List Blk} {fl : List Nat} {live : List Request} {size : Nat → Nat}

theorem mem_ptrs_iff {p : Nat}
    (hp : (allocs (prologue h :: bs)).Perm (prologue h :: held size live)) :
    p ∈ live.map Request.ptr ↔ ∃ b ∈ bs, b.alloc = true ∧ b.addr = p := by
  have hp' : (allocs bs).Perm (held size live) := by
    rw [allocs_cons_alloc rfl] at hp
    exact hp.cons_inv
  simp only [List.mem_map]
  constructor
  · rintro ⟨r,hr,rfl⟩
    obtain ⟨hb,hba⟩ := mem_allocs.mp (hp'.mem_iff.mpr (mem_held.mpr ⟨r,hr,rfl⟩))
    exact ⟨_,hb,hba,rfl⟩
  · rintro ⟨b,hb,hba,rfl⟩
    obtain ⟨r,hr,rfl⟩ := mem_held.mp (hp'.mem_iff.mp (mem_allocs.mpr ⟨hb,hba⟩))
    exact ⟨r,hr,rfl⟩

theorem Holds.arena (hc : Holds h live size) : ∃ bs fl, Arena h (prologue h :: bs) fl ∧
    (∀ p, p ∈ live.map Request.ptr ↔ ∃ b ∈ bs, b.alloc = true ∧ b.addr = p) ∧
    (∀ r ∈ live, (⟨r.ptr,size r.ptr,true⟩ : Blk) ∈ bs) ∧
    (∀ k (hk : k < bs.length), blockPtr h k = bs[k].addr) ∧ blockPtr h bs.length = h.memBrk := by
  obtain ⟨L,fl,ha,hp⟩ := hc.lent
  obtain ⟨bs,rfl,hw,he⟩ := ha.layout.blocks
  refine ⟨bs,fl,ha,fun p => mem_ptrs_iff hp,fun r hr => ?_,hw,he⟩
  rw [allocs_cons_alloc rfl] at hp
  exact (mem_allocs.mp (hp.cons_inv.mem_iff.mpr (mem_held.mpr ⟨r,hr,rfl⟩))).1

end Holds

section Blocks

variable {h : Heap} {bs : List Blk} {fl : List Nat} {ptrs : List Nat}

theorem Arena.blockStructure (ha : Arena h (prologue h :: bs) fl)
    (hp : ∀ p, p ∈ ptrs ↔ ∃ b ∈ bs, b.alloc = true ∧ b.addr = p)
    (hw : ∀ k (hk : k < bs.length), blockPtr h k = bs[k].addr)
    (he : blockPtr h bs.length = h.memBrk) : BlockStructure h ptrs bs.length := by
  have hl := ha.layout
  have hm (k : Nat) (hk : k < bs.length) : bs[k] ∈ prologue h :: bs := by simp
  have hne (b : Blk) (hb : b ∈ bs) : b ≠ prologue h := by
    rintro rfl
    exact (List.nodup_cons.mp (List.Nodup.of_map _ hl.addrs_nodup)).1 hb
  have h16 (k : Nat) (hk : k < bs.length) : 16 ≤ bs[k].size :=
    hl.size_ge (hm k hk) (hne _ (by simp))
  have hal (k : Nat) (hk : k < bs.length) : getAlloc h (hdrp (blockPtr h k)) = bs[k].alloc.toNat := by
    rw [hw k hk,hl.hdr_alloc (hm k hk)]
  refine ⟨he,hl.epilogue,fun k hk => ?_,fun k hk => ?_,fun k hk => ?_,fun k hk => ?_,fun p hpm => ?_,
    fun k hk => ?_⟩
  · have := (hl.sec (hm k hk)).hi
    have := h16 k hk
    rw [hw k hk]
    omega
  · rw [hw k hk,hl.hdr_size (hm k hk)]
    exact ⟨(hl.sec (hm k hk)).sz,h16 k hk⟩
  · obtain ⟨t1,t2⟩ := hl.tagged _ (hm k hk)
    rw [hw k hk,hl.ftrp_eq (hm k hk),t2]
    exact t1
  · rw [hal k hk,toNat_eq_one,hp,hw k hk]
    constructor
    · exact fun hb => ⟨_,by simp,hb,rfl⟩
    · rintro ⟨b,hb,hba,hbe⟩
      rwa [← hl.eq_of_addr (by simp [hb]) (hm k hk) hbe]
  · obtain ⟨b,hb,_,rfl⟩ := (hp p).mp hpm
    obtain ⟨k,hk,rfl⟩ := List.getElem_of_mem hb
    exact ⟨k,hk,hw k hk⟩
  · rw [hal k (by omega),hal (k + 1) hk,toNat_eq_zero,toNat_eq_zero]
    rintro ⟨h1,h2⟩
    have hco := List.isChain_iff_getElem.mp ha.coalesced (k + 1) (by simpa using hk)
    simp only [List.getElem_cons_succ] at hco
    simp [h1,h2] at hco

theorem FreeChain.walk {l r : List Nat} (hc : FreeChain h (l ++ r)) :
    (∀ k (hk : k < r.length), (nextFreeBlock h)^[k] (r.head?.getD 0) = r[k]) ∧
      (nextFreeBlock h)^[r.length] (r.head?.getD 0) = 0 := by
  induction r generalizing l with
  | nil => exact ⟨fun k hk => absurd hk (by simp),rfl⟩
  | cons p r ih =>
    have hn : nextFreeBlock h p = r.head?.getD 0 := by
      rw [nextFreeBlock_eq,hc.chain.split.2]
    obtain ⟨h1,h2⟩ := ih (l := l ++ [p]) (by simpa using hc)
    refine ⟨fun k hk => ?_,?_⟩
    · cases k with
      | zero => rfl
      | succ k =>
        rw [Function.iterate_succ_apply,List.head?_cons,Option.getD_some,hn]
        exact h1 k (by simpa using hk)
    · rw [List.length_cons,Function.iterate_succ_apply,List.head?_cons,Option.getD_some,hn]
      exact h2

theorem FreeChain.ftFree_eq (hc : FreeChain h fl) : fl.getLast?.getD 0 = h.ftFree := by
  have hh : ptr h.ftFree = fl.getLast? := hc.chain.tail
  rw [← hh,ptr]
  split <;> simp_all

theorem link_eq_none {i : Nat} : link h i = none ↔ i = 0 := by simp [link]

theorem FreeChain.ne_zero (hc : FreeChain h fl) {p : Nat} (hp : p ∈ fl) : p ≠ 0 := by
  have := (hc.node p hp).above
  omega

theorem Arena.freeListStructure (ha : Arena h (prologue h :: bs) fl)
    (hw : ∀ k (hk : k < bs.length), blockPtr h k = bs[k].addr) :
    FreeListStructure h bs.length fl := by
  have hl := ha.layout
  have hc := ha.free
  have hwalk := hc.walk (l := []) (r := fl)
  rw [← hc.hdFree_eq] at hwalk
  have hptr (p q : Nat) (hq : q ≠ 0) : ptr p = some q ↔ p = q := by simp [hq]
  refine ⟨hc.chain.nodup,hwalk.1,hwalk.2,hc.ftFree_eq,fun p => ?_,fun p hp q hq => ?_,fun h0 => ?_,
    fun h0 => ?_,fun p hp i hi h0 => ?_⟩
  · rw [ha.perm.mem_iff,frees_cons_alloc rfl,mem_frees]
    constructor
    · rintro ⟨b,hb,hbf,rfl⟩
      obtain ⟨k,hk,rfl⟩ := List.getElem_of_mem hb
      refine ⟨k,hk,hw k hk,?_⟩
      rw [hl.hdr_alloc (by simp),hbf]
      rfl
    · rintro ⟨k,hk,hkp,hka⟩
      rw [hw k hk] at hkp
      rw [← hkp,hl.hdr_alloc (by simp),toNat_eq_zero] at hka
      exact ⟨_,by simp,hka,hkp⟩
  · rw [← hptr _ q (hc.ne_zero hq),← hptr _ p (hc.ne_zero hp),ptr_nextFreeBlock,ptr_prevFreeBlock]
    exact ⟨fun e => (hc.chain.next_prev hp e).2,fun e => (hc.chain.prev_next hq e).2⟩
  · cases fl with
    | nil => exact absurd hc.hdFree_eq h0
    | cons p ys =>
      have hch : Chain (links h) ([] ++ p :: ys) := hc.chain
      rw [hc.hdFree_eq]
      exact link_eq_none.mp ((links_prev h p).symm.trans hch.split.1)
  · rcases List.eq_nil_or_concat fl with rfl | ⟨xs,p,rfl⟩
    · exact absurd hc.ftFree_eq.symm h0
    · have hch : Chain (links h) (xs ++ [p]) := by simpa using hc.chain
      rw [← hc.ftFree_eq]
      simpa using link_eq_none.mp ((links_next h p).symm.trans hch.split.2)
  · have hsome : link h i = some (h.heapListp + i) := by
      rw [link,if_neg h0,selfAddr,Nat.add_comm]
    rcases hi with rfl | rfl
    · exact ⟨prevFreeIndex_lt,(hc.chain.prev_next hp ((links_prev h p).trans hsome)).1⟩
    · exact ⟨nextFreeIndex_lt,(hc.chain.next_prev hp ((links_next h p).trans hsome)).1⟩

end Blocks

-- a word of four bytes at w shares no byte with the requested payload of r
def Request.Clear (r : Request) (w : Nat) : Prop := w + 4 ≤ r.ptr ∨ r.ptr + r.size ≤ w

def Request.InHeap (r : Request) (h : Heap) : Prop :=
  r.ptr % 8 = 0 ∧ h.memStartBrk ≤ r.ptr ∧ r.ptr + r.size ≤ h.memBrk

def Request.Kept (r : Request) (h h' : Heap) : Prop :=
  ∀ i, i < r.size → h'.mem (r.ptr + i) = h.mem (r.ptr + i)

section Payloads

variable {h h' : Heap} {bs : List Blk} {live : List Request} {size : Nat → Nat} {r q : Request}

theorem Holds.inHeap (hc : Holds h live size) (hr : r ∈ live) : r.InHeap h := by
  obtain ⟨bs,fl,ha,_,hb,_,_⟩ := hc.arena
  have hm : (⟨r.ptr,size r.ptr,true⟩ : Blk) ∈ prologue h :: bs := by simp [hb r hr]
  obtain ⟨c1,c2,c3,c4,c5⟩ := ha.layout.sec hm
  have h1 := ha.layout.listp
  have h2 := hc.room r hr
  simp only at c1 c2 c3
  exact ⟨c3,by omega,by omega⟩

theorem Holds.ptrs_nodup (hc : Holds h live size) : (live.map Request.ptr).Nodup := by
  have hn := (List.nodup_cons.mp hc.lent.addrs_nodup).2
  rwa [held,List.map_map] at hn

theorem Holds.apart (hc : Holds h live size) :
    live.Pairwise fun r q => r.ptr + r.size ≤ q.ptr ∨ q.ptr + q.size ≤ r.ptr := by
  obtain ⟨bs,fl,ha,_,hb,_,_⟩ := hc.arena
  refine (List.pairwise_map.mp hc.ptrs_nodup).imp_of_mem fun {r q} hr hq hne => ?_
  have h1 := (hc.room r hr).2
  have h2 := (hc.room q hq).2
  have hm := fun r hr => List.mem_cons_of_mem (prologue h) (hb r hr)
  rcases ha.layout.apart (hm r hr) (hm q hq) with he | he | he
  · exact absurd (congrArg Blk.addr he) hne
  · simp only at he
    omega
  · simp only at he
    omega

theorem Layout.clear {L : List Blk} {b c : Blk} (hl : Layout h L) (hb : b ∈ L) (hc : c ∈ L)
    (hr : r.ptr = b.addr) (hs : r.size + 8 ≤ b.size) :
    r.Clear (hdrp c.addr) ∧ r.Clear (ftrp h c.addr) := by
  obtain ⟨b1,b2,b3,b4,b5⟩ := hl.sec hb
  obtain ⟨c1,c2,c3,c4,c5⟩ := hl.sec hc
  have hbase := hl.base.listp
  rw [hl.ftrp_eq hc]
  simp only [Request.Clear,hdrp,wsize]
  rcases hl.apart hb hc with rfl | he | he <;> omega

theorem Frame.kept (hf : Frame h h' (held size live)) (hr : r ∈ live) (hs : r.size + 8 ≤ size r.ptr) :
    r.Kept h h' := by
  intro i hi
  by_contra hx
  exact hf _ hx _ (mem_held.mpr ⟨r,hr,rfl⟩) rfl ⟨Nat.le_add_right _ _,by simp only; omega⟩

end Payloads

def sampleHeap : Heap where
  storage := ⟨16,16 + maxHeap,rfl,by decide,by decide,by decide⟩
  mem := fun _ => 0xaa
  memBrk := 16
  heapListp := 0
  hdFree := 0
  ftFree := 0

-- both place cases, a free, a moving mm_realloc and a heap extension
def sampleCalls : List Call :=
  [.malloc 24,.malloc 100,.store 4096 3 7,.free 3984,.realloc 4096 500,.malloc 5000]

theorem sample_runs : ∃ c, Client.run sampleCalls sampleHeap = some c :=
  Option.isSome_iff_exists.mp (by decide +kernel)

section Runs

variable {calls : List Call} {h : Heap} {c : Client}

theorem block_structure (hr : Client.run calls h = some c) :
    (∃ n, BlockStructure c.heap (c.live.map Request.ptr) n) ∧
      ∀ call, c.Allowed call → ¬c.Exhausted call → ∃ c', Client.exec call c = some c' := by
  have hi := Client.run_inv hr
  refine ⟨?_,fun call ha hx => Client.exec_returns hi ha hx⟩
  obtain ⟨size,hc⟩ := hi
  obtain ⟨bs,fl,ha,hp,_,hw,he⟩ := hc.arena
  exact ⟨bs.length,ha.blockStructure hp hw he⟩

theorem block_structure_sample : ∃ c, Client.run sampleCalls sampleHeap = some c ∧
    ∃ n, BlockStructure c.heap (c.live.map Request.ptr) n :=
  sample_runs.imp fun _ hr => ⟨hr,(block_structure hr).1⟩

theorem free_list_structure (hr : Client.run calls h = some c) :
    ∃ n fl, blockPtr c.heap n = c.heap.memBrk ∧ FreeListStructure c.heap n fl ∧
      (c.heap.hdFree = 0 ↔ fl = []) ∧ (c.heap.ftFree = 0 ↔ fl = []) ∧
      ∀ size, ∃ bp, findFit size c.heap = some bp := by
  obtain ⟨size,hc⟩ := Client.run_inv hr
  obtain ⟨bs,fl,ha,hp,_,hw,he⟩ := hc.arena
  exact ⟨bs.length,fl,he,ha.freeListStructure hw,ha.free.hdFree_eq_zero,ha.free.ftFree_eq_zero,
    fun n => ⟨_,findFit_eq ha n⟩⟩

theorem free_list_structure_sample : ∃ c, Client.run sampleCalls sampleHeap = some c ∧
    ∃ n fl, FreeListStructure c.heap n fl :=
  sample_runs.imp fun _ hr =>
    let ⟨n,fl,_,hf,_⟩ := free_list_structure hr
    ⟨hr,n,fl,hf⟩

theorem payloads_disjoint (hr : Client.run calls h = some c) :
    (∀ n p h', 0 < n → n ≤ maxRequest → mmMalloc n c.heap = some (p,h') → p ≠ 0 →
      Request.InHeap ⟨p,n⟩ h') ∧
    (∀ r ∈ c.live, ∀ n q h', 0 < n → n ≤ maxRequest → mmRealloc r.ptr n c.heap = some (q,h') →
      q ≠ 0 → Request.InHeap ⟨q,n⟩ h') ∧
    (∀ r ∈ c.live, r.InHeap c.heap) ∧
    c.live.Pairwise (fun r q => r.ptr + r.size ≤ q.ptr ∨ q.ptr + q.size ≤ r.ptr) ∧
    ∃ n, BlockStructure c.heap (c.live.map Request.ptr) n ∧ ∀ r ∈ c.live,
      r.Clear (hdrp c.heap.heapListp) ∧ r.Clear (ftrp c.heap c.heap.heapListp) ∧
      r.Clear (hdrp c.heap.memBrk) ∧
      ∀ k, k < n → r.Clear (hdrp (blockPtr c.heap k)) ∧ r.Clear (ftrp c.heap (blockPtr c.heap k)) := by
  obtain ⟨size,hc⟩ := Client.run_inv hr
  obtain ⟨bs,fl,ha,hp,hb,hw,he⟩ := hc.arena
  refine ⟨fun n p h' h0 hn hm hp0 => ?_,fun r hr n q h' h0 hn hm hq0 => ?_,
    fun r hr => hc.inHeap hr,hc.apart,_,ha.blockStructure hp hw he,fun r hr => ?_⟩
  · obtain ⟨p',g,hm',⟨rfl,_⟩ | ⟨_,_,size',hH⟩⟩ := hc.malloc h0 hn
    · obtain ⟨rfl,rfl⟩ := Prod.mk.inj (Option.some.inj (hm'.symm.trans hm))
      exact absurd rfl hp0
    · obtain ⟨rfl,rfl⟩ := Prod.mk.inj (Option.some.inj (hm'.symm.trans hm))
      exact hH.inHeap (by simp)
  · rcases hc.realloc hr h0 hn with ⟨hm',_⟩ | ⟨q',g,size',hm',_,_,hH⟩
    · simp [hm'] at hm
    · obtain ⟨rfl,rfl⟩ := Prod.mk.inj (Option.some.inj (hm'.symm.trans hm))
      exact hH.inHeap (by simp)
  · have hm : (⟨r.ptr,size r.ptr,true⟩ : Blk) ∈ prologue c.heap :: bs := by simp [hb r hr]
    have hroom := (hc.room r hr).2
    obtain ⟨h1,h2⟩ := ha.layout.clear (r := r) hm (c := prologue c.heap) (by simp) rfl hroom
    refine ⟨h1,h2,?_,fun k hk => ?_⟩
    · have := (ha.layout.sec hm).hi
      simp only [Request.Clear,hdrp,wsize] at this ⊢
      omega
    · rw [hw k hk]
      exact ha.layout.clear hm (by simp) rfl hroom

theorem payloads_disjoint_sample : ∃ c, Client.run sampleCalls sampleHeap = some c ∧
    c.live.Pairwise (fun r q => r.ptr + r.size ≤ q.ptr ∨ q.ptr + q.size ≤ r.ptr) :=
  sample_runs.imp fun _ hr => ⟨hr,(payloads_disjoint hr).2.2.2.1⟩

theorem contents_preserved (hr : Client.run calls h = some c) :
    (∀ n p h', 0 < n → n ≤ maxRequest → mmMalloc n c.heap = some (p,h') →
      ∀ r ∈ c.live, r.Kept c.heap h') ∧
    (∀ r ∈ c.live, ∀ q ∈ c.live, q ≠ r → q.Kept c.heap (mmFree r.ptr c.heap)) ∧
    (∀ r ∈ c.live, ∀ n p h', 0 < n → n ≤ maxRequest → mmRealloc r.ptr n c.heap = some (p,h') →
      (∀ q ∈ c.live, q ≠ r → q.Kept c.heap h') ∧
      ∀ i, i < min r.size n → h'.mem (p + i) = c.heap.mem (r.ptr + i)) := by
  obtain ⟨size,hc⟩ := Client.run_inv hr
  have hmono {h' : Heap} {live : List Request}
      (hf : Frame c.heap h' (prologue c.heap :: held size live)) :
      Frame c.heap h' (held size live) := hf.mono fun b hb _ => List.mem_cons_of_mem _ hb
  have hroom := fun q hq => (hc.room q hq).2
  refine ⟨fun n p h' h0 hn hm r hr => ?_,fun r hr q hq hne => ?_,fun r hr n p h' h0 hn hm => ?_⟩
  · obtain ⟨p',g,hm',⟨rfl,rfl⟩ | ⟨_,hf,_⟩⟩ := hc.malloc h0 hn
    · obtain ⟨rfl,rfl⟩ := Prod.mk.inj (Option.some.inj (hm'.symm.trans hm))
      exact fun i _ => rfl
    · obtain ⟨rfl,rfl⟩ := Prod.mk.inj (Option.some.inj (hm'.symm.trans hm))
      exact (hmono hf).kept hr (hroom r hr)
  · exact (hmono (hc.free hr).1.frame).kept ((List.mem_erase_of_ne hne).mpr hq) (hroom q hq)
  · rcases hc.realloc hr h0 hn with ⟨hm',_⟩ | ⟨q',g,size',hm',hf,hb,_⟩
    · simp [hm'] at hm
    · obtain ⟨rfl,rfl⟩ := Prod.mk.inj (Option.some.inj (hm'.symm.trans hm))
      refine ⟨fun q hq hne => ?_,fun i hi => hb i (by omega) (by omega)⟩
      exact (hmono hf).kept ((List.mem_erase_of_ne hne).mpr hq) (hroom q hq)

theorem contents_preserved_sample : ∃ c, Client.run sampleCalls sampleHeap = some c ∧
    ∀ r ∈ c.live, ∀ q ∈ c.live, q ≠ r → q.Kept c.heap (mmFree r.ptr c.heap) :=
  sample_runs.imp fun _ hr => ⟨hr,(contents_preserved hr).2.1⟩

end Runs

end Malloc
