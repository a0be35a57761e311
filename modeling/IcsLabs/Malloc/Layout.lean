import IcsLabs.Lib.Tiling
import IcsLabs.Malloc.FreeList

namespace Malloc
open Bytes Tiling

structure Blk where
  addr : Nat
  size : Nat
  alloc : Bool
deriving DecidableEq

namespace Blk

def tag (b : Blk) : Nat := b.size + b.alloc.toNat

def Tagged (h : Heap) (b : Blk) : Prop :=
  h.get (b.addr - 4) = b.tag ∧ h.get (b.addr + b.size - 8) = b.tag

def InPayload (b : Blk) (x : Nat) : Prop := b.addr ≤ x ∧ x + 8 < b.addr + b.size

end Blk

def prologue (h : Heap) : Blk := ⟨h.heapListp,dsize,true⟩

theorem free_ne_prologue {h : Heap} {b : Blk} (hb : b.alloc = false) : b ≠ prologue h := by
  rintro rfl
  simp [prologue] at hb

structure Layout (h : Heap) (L : List Blk) : Prop where
  listp : h.heapListp = h.memStartBrk + 8
  brk_le : h.memBrk ≤ h.memMaxAddr
  first : L.head? = some (prologue h)
  tiles : Tiles Blk.addr Blk.size h.heapListp L h.memBrk
  shape : ∀ b ∈ L, b.size % 8 = 0 ∧ (16 ≤ b.size ∨ b = prologue h)
  tagged : ∀ b ∈ L, b.Tagged h
  epilogue : h.get (h.memBrk - 4) = 1

structure Base (h : Heap) : Prop where
  listp : 24 ≤ h.heapListp
  aligned : h.heapListp % 8 = 0
  listp_brk : h.heapListp + 8 ≤ h.memBrk
  span : h.memBrk ≤ h.heapListp + 20971512
  fits : h.memBrk < 2 ^ 64
  brk : h.memBrk % 8 = 0

structure Sec (h : Heap) (b : Blk) : Prop where
  lo : h.heapListp ≤ b.addr
  hi : b.addr + b.size ≤ h.memBrk
  al : b.addr % 8 = 0
  sz : b.size % 8 = 0
  pos : 8 ≤ b.size

-- both boundary tags of b, as PUT(HDRP(bp),..); PUT(FTRP(bp),..) leave them
def stamp (b : Blk) (h : Heap) : Heap :=
  (h.put (b.addr - 4) b.tag).put (b.addr + b.size - 8) b.tag

theorem getSize_of_get {h : Heap} {p s : Nat} {a : Bool} (hg : h.get p = s + a.toNat)
    (hs : s % 8 = 0) : getSize h p = s := by
  rw [getSize_eq,hg]
  cases a <;> simp only [Bool.toNat_false,Bool.toNat_true] <;> omega

theorem getAlloc_of_get {h : Heap} {p s : Nat} {a : Bool} (hg : h.get p = s + a.toNat)
    (hs : s % 8 = 0) : getAlloc h p = a.toNat := by
  rw [getAlloc_eq,hg]
  cases a <;> simp only [Bool.toNat_false,Bool.toNat_true] <;> omega

theorem pack_toNat {size : Nat} (a : Bool) (hs : size % 8 = 0) :
    pack size a.toNat = size + a.toNat := by
  cases a
  · exact pack_zero size
  · exact pack_one hs

theorem tag_lt {b : Blk} (hs : b.size % 8 = 0) (hlt : b.size < 2 ^ 32) : b.tag < 2 ^ 32 := by
  have : b.alloc.toNat ≤ 1 := Bool.toNat_le b.alloc
  rw [Blk.tag]
  omega

section Stamp

variable {h : Heap} {b c : Blk} {x : Nat}

@[simp] theorem stamp_storage : (stamp b h).storage = h.storage := by
  simp only [stamp,put_storage]

@[simp] theorem stamp_memBrk : (stamp b h).memBrk = h.memBrk := by
  simp only [stamp,put_memBrk]

@[simp] theorem stamp_heapListp : (stamp b h).heapListp = h.heapListp := by
  simp only [stamp,put_heapListp]

@[simp] theorem stamp_hdFree : (stamp b h).hdFree = h.hdFree := by
  simp only [stamp,put_hdFree]

@[simp] theorem stamp_ftFree : (stamp b h).ftFree = h.ftFree := by
  simp only [stamp,put_ftFree]

theorem stamp_frame (b : Blk) (h : Heap) : SameFrame h (stamp b h) := ⟨rfl,rfl,rfl⟩

theorem stamp_mem (h1 : x + 4 < b.addr ∨ b.addr ≤ x)
    (h2 : x + 8 < b.addr + b.size ∨ b.addr + b.size ≤ x + 4) (ha : 8 ≤ b.addr) :
    (stamp b h).mem x = h.mem x := by
  rw [stamp,put_mem_apart (by omega),put_mem_apart (by omega)]

theorem stamp_get {p : Nat} (ha : 8 ≤ b.addr) (h1 : p + 8 ≤ b.addr ∨ b.addr ≤ p)
    (h2 : p + 12 ≤ b.addr + b.size ∨ b.addr + b.size ≤ p + 4) : (stamp b h).get p = h.get p := by
  rw [stamp,get_put_apart (by omega),get_put_apart (by omega)]

theorem stamp_tagged (ha : 8 ≤ b.addr) (hs : b.size % 8 = 0) (hp : 8 ≤ b.size)
    (hlt : b.size < 2 ^ 32) : b.Tagged (stamp b h) := by
  have ht : b.tag % 2 ^ 32 = b.tag := Nat.mod_eq_of_lt (tag_lt hs hlt)
  constructor
  · rw [stamp,get_put_apart (by omega),get_put_same,ht]
  · rw [stamp,get_put_same,ht]

theorem put_tags {bp size : Nat} (a : Bool) (hs : size % 8 = 0)
    (hlt : size < 2 ^ 32) :
    (h.put (hdrp bp) (pack size a.toNat)).put (ftrp (h.put (hdrp bp) (pack size a.toNat)) bp)
      (pack size a.toNat) = stamp ⟨bp,size,a⟩ h := by
  have ht : size + a.toNat < 2 ^ 32 := tag_lt (b := ⟨bp,size,a⟩) hs hlt
  have hg : (h.put (hdrp bp) (pack size a.toNat)).get (hdrp bp) = size + a.toNat := by
    rw [get_put_same,pack_toNat a hs,Nat.mod_eq_of_lt ht]
  rw [ftrp,getSize_of_get hg hs,pack_toNat a hs]
  rfl

theorem put_tags_free {bp size : Nat} (hs : size % 8 = 0) (hlt : size < 2 ^ 32) :
    (h.put (hdrp bp) (pack size 0)).put (ftrp (h.put (hdrp bp) (pack size 0)) bp)
      (pack size 0) = stamp ⟨bp,size,false⟩ h :=
  put_tags false hs hlt

theorem put_tags_alloc {bp size : Nat} (hs : size % 8 = 0) (hlt : size < 2 ^ 32) :
    (h.put (hdrp bp) (pack size 1)).put (ftrp (h.put (hdrp bp) (pack size 1)) bp)
      (pack size 1) = stamp ⟨bp,size,true⟩ h :=
  put_tags true hs hlt

theorem stamp_nextBlkp {p size : Nat} {a : Bool} (ha : 8 ≤ p) (hs : size % 8 = 0)
    (hp : 8 ≤ size) (hlt : size < 2 ^ 32) : nextBlkp (stamp ⟨p,size,a⟩ h) p = p + size := by
  have ht := (stamp_tagged (h := h) (b := ⟨p,size,a⟩) ha hs hp hlt).1
  rw [nextBlkp,wsize,getSize_of_get ht hs]

end Stamp

namespace Layout

variable {h h' : Heap} {L M N pre post : List Blk} {b c : Blk} {x : Nat}

theorem size_pos (hl : Layout h L) (hb : b ∈ L) : b.size % 8 = 0 ∧ 8 ≤ b.size := by
  obtain ⟨h1,h2 | h2⟩ := hl.shape b hb
  · omega
  · subst h2
    simp [prologue,dsize]

theorem prologue_mem (hl : Layout h L) : prologue h ∈ L := List.mem_of_mem_head? hl.first

theorem ne_nil (hl : Layout h L) : L ≠ [] := List.ne_nil_of_mem hl.prologue_mem

theorem base (hl : Layout h L) : Base h := by
  have h1 := hl.listp
  have h2 := hl.brk_le
  have h3 := h.storage.nonnull
  have h4 := h.storage.aligned
  have h5 := h.storage.fits
  have h6 := (tiles_mem hl.tiles hl.prologue_mem).2
  have h8 := h.storage.max
  simp only [Heap.memStartBrk,Heap.memMaxAddr,maxHeap,prologue,dsize] at h1 h2 h5 h6 h8
  have h7 := (tiles_aligned hl.tiles (by omega : h.heapListp % 8 = 0)
    fun b hb => (hl.size_pos hb).1).2
  exact ⟨by omega,by omega,by omega,by omega,by omega,h7⟩

theorem sec (hl : Layout h L) (hb : b ∈ L) : Sec h b := by
  have hs := hl.size_pos hb
  have hm := tiles_mem hl.tiles hb
  exact ⟨hm.1,hm.2,(tiles_aligned hl.tiles hl.base.aligned fun b hb => (hl.size_pos hb).1).1 b hb,
    hs.1,hs.2⟩

theorem apart (hl : Layout h L) (hb : b ∈ L) (hc : c ∈ L) :
    b = c ∨ b.addr + b.size ≤ c.addr ∨ c.addr + c.size ≤ b.addr :=
  tiles_apart hl.tiles hb hc

theorem eq_of_addr (hl : Layout h L) (hb : b ∈ L) (hc : c ∈ L) (he : b.addr = c.addr) : b = c :=
  tiles_lo_inj hl.tiles (fun b hb => Nat.lt_of_lt_of_le (by omega) (hl.size_pos hb).2) hb hc he

theorem eq_of_payload (hl : Layout h L) (hb : b ∈ L) (hc : c ∈ L) (hx : b.InPayload x)
    (hx' : c.InPayload x) : b = c := by
  rcases hl.apart hb hc with he | h1 | h1
  · exact he
  · have := hx.2
    have := hx'.1
    omega
  · have := hx.1
    have := hx'.2
    omega

theorem size_lt (hl : Layout h L) (hb : b ∈ L) : b.size < 2 ^ 32 := by
  have h1 := (hl.sec hb).lo
  have h2 := (hl.sec hb).hi
  have h3 := hl.base.span
  omega

theorem hdr_size (hl : Layout h L) (hb : b ∈ L) : getSize h (hdrp b.addr) = b.size :=
  getSize_of_get (hl.tagged b hb).1 (hl.sec hb).sz

theorem hdr_alloc (hl : Layout h L) (hb : b ∈ L) : getAlloc h (hdrp b.addr) = b.alloc.toNat :=
  getAlloc_of_get (hl.tagged b hb).1 (hl.sec hb).sz

theorem ftr_size (hl : Layout h L) (hb : b ∈ L) :
    getSize h (b.addr + b.size - 8) = b.size :=
  getSize_of_get (hl.tagged b hb).2 (hl.sec hb).sz

theorem ftr_alloc (hl : Layout h L) (hb : b ∈ L) :
    getAlloc h (b.addr + b.size - 8) = b.alloc.toNat :=
  getAlloc_of_get (hl.tagged b hb).2 (hl.sec hb).sz

theorem ftrp_eq (hl : Layout h L) (hb : b ∈ L) : ftrp h b.addr = b.addr + b.size - 8 := by
  rw [ftrp,hl.hdr_size hb,dsize]

theorem nextBlkp_eq (hl : Layout h L) (hb : b ∈ L) : nextBlkp h b.addr = b.addr + b.size := by
  have := hl.hdr_size hb
  rw [hdrp] at this
  rw [nextBlkp,this]

theorem next_addr (hl : Layout h (pre ++ b :: c :: post)) : c.addr = b.addr + b.size :=
  (tiles_around hl.tiles).2.1

theorem last_addr (hl : Layout h (pre ++ [b])) : b.addr + b.size = h.memBrk :=
  (tiles_around hl.tiles).2

theorem prevBlkp_eq (hl : Layout h (pre ++ b :: c :: post)) : prevBlkp h c.addr = b.addr := by
  have hb : b ∈ pre ++ b :: c :: post := by simp
  have hn := hl.next_addr
  have h8 : getSize h (c.addr - dsize) = b.size := by
    rw [hn]
    exact hl.ftr_size hb
  rw [prevBlkp,h8,hn]
  omega

theorem pre_ne_nil (hl : Layout h (pre ++ b :: post)) (hb : b ≠ prologue h) : pre ≠ [] := by
  rintro rfl
  have := hl.first
  simp only [List.nil_append,List.head?_cons,Option.some.injEq] at this
  exact hb this

theorem size_ge (hl : Layout h L) (hb : b ∈ L) (hp : b ≠ prologue h) : 16 ≤ b.size :=
  (hl.shape b hb).2.resolve_right hp

theorem of_writes (hl : Layout h L) (hf : SameFrame h h')
    (hw : ∀ x, h'.mem x ≠ h.mem x → ∃ b ∈ L, b.InPayload x) : Layout h' L := by
  obtain ⟨f1,f2,f3⟩ := hf
  have hp : prologue h' = prologue h := by rw [prologue,f3,prologue]
  have hkeep (p : Nat) (hk : ∀ b ∈ L, b.addr + b.size ≤ p + 8 ∨ p + 4 ≤ b.addr) :
      h'.get p = h.get p := by
    refine get_congr fun x hx hx' => ?_
    by_contra hne
    obtain ⟨b,hb,h1,h2⟩ := hw x hne
    have := hk b hb
    omega
  have b8 := hl.base.listp
  refine ⟨?_,?_,?_,?_,?_,?_,?_⟩
  · rw [f3,hl.listp,Heap.memStartBrk,Heap.memStartBrk,f1]
  · rw [f2,Heap.memMaxAddr,f1]
    exact hl.brk_le
  · rw [hp]
    exact hl.first
  · rw [f2,f3]
    exact hl.tiles
  · rw [hp]
    exact hl.shape
  · intro c hc
    obtain ⟨t1,t2⟩ := hl.tagged c hc
    obtain ⟨c1,c2,c3,c4,c5⟩ := hl.sec hc
    constructor
    · rw [hkeep,t1]
      intro b hb
      rcases hl.apart hb hc with rfl | h1 | h1 <;> omega
    · rw [hkeep,t2]
      intro b hb
      rcases hl.apart hb hc with rfl | h1 | h1 <;> omega
  · rw [f2,hkeep,hl.epilogue]
    intro b hb
    have := (hl.sec hb).hi
    omega

theorem splice (hl : Layout h (pre ++ M ++ post)) (hpre : pre ≠ []) (hne : M ≠ []) {c d : Nat}
    (hm : Tiles Blk.addr Blk.size c M d) (hm' : Tiles Blk.addr Blk.size c N d)
    (hf : SameFrame h h') (hw : ∀ x, h'.mem x ≠ h.mem x → c ≤ x + 4 ∧ x + 4 < d)
    (hshape : ∀ b ∈ N, b.size % 8 = 0 ∧ 16 ≤ b.size) (htag : ∀ b ∈ N, b.Tagged h') :
    Layout h' (pre ++ N ++ post) := by
  obtain ⟨f1,f2,f3⟩ := hf
  obtain ⟨hp,ht,hall⟩ := tiles_splice hl.tiles hm hne hm'
  have hpro : prologue h' = prologue h := by rw [prologue,f3,prologue]
  have hsub : ∀ b ∈ pre ++ post, b ∈ pre ++ M ++ post := by
    intro b hb
    rcases List.mem_append.mp hb with hb | hb <;> simp [hb]
  have hout : ∀ b ∈ pre ++ post, b.addr + b.size ≤ c ∨ d ≤ b.addr := by
    intro b hb
    rcases List.mem_append.mp hb with hb | hb
    · exact Or.inl (tiles_mem hp hb).2
    · exact Or.inr (tiles_mem ht hb).1
  have hkeep (p : Nat) (hk : p + 8 ≤ c ∨ d ≤ p + 4) : h'.get p = h.get p := by
    refine get_congr fun x hx hx' => ?_
    by_contra hne
    have := hw x hne
    omega
  have hsplit : ∀ b ∈ pre ++ N ++ post, b ∈ N ∨ b ∈ pre ++ post := by
    intro b hb
    simp only [List.mem_append] at hb ⊢
    tauto
  have hcd := tiles_le hm
  have hde := tiles_le ht
  have b8 := hl.base.listp
  refine ⟨?_,?_,?_,?_,?_,?_,?_⟩
  · rw [f3,hl.listp,Heap.memStartBrk,Heap.memStartBrk,f1]
  · rw [f2,Heap.memMaxAddr,f1]
    exact hl.brk_le
  · have hfirst := hl.first
    rw [hpro]
    cases pre with
    | nil => exact absurd rfl hpre
    | cons b pre => simpa using hfirst
  · rw [f2,f3]
    exact hall
  · intro b hb
    rcases hsplit b hb with hb | hb
    · exact ⟨(hshape b hb).1,Or.inl (hshape b hb).2⟩
    · rw [hpro]
      exact hl.shape b (hsub b hb)
  · intro b hb
    rcases hsplit b hb with hb | hb
    · exact htag b hb
    · obtain ⟨t1,t2⟩ := hl.tagged b (hsub b hb)
      obtain ⟨c1,c2,c3,c4,c5⟩ := hl.sec (hsub b hb)
      have ho := hout b hb
      exact ⟨by rw [hkeep _ (by omega),t1],by rw [hkeep _ (by omega),t2]⟩
  · rw [f2,hkeep _ (by omega),hl.epilogue]

theorem grow (hl : Layout h (pre ++ M)) (hpre : pre ≠ []) {c k : Nat}
    (hp : Tiles Blk.addr Blk.size h.heapListp pre c)
    (hm' : Tiles Blk.addr Blk.size c N (h.memBrk + k)) (hst : h'.storage = h.storage)
    (hlp : h'.heapListp = h.heapListp) (hbrk : h'.memBrk = h.memBrk + k)
    (hmax : h.memBrk + k ≤ h.memMaxAddr) (hw : ∀ x, h'.mem x ≠ h.mem x → c ≤ x + 4)
    (hshape : ∀ b ∈ N, b.size % 8 = 0 ∧ 16 ≤ b.size) (htag : ∀ b ∈ N, b.Tagged h')
    (hep : h'.get (h'.memBrk - 4) = 1) : Layout h' (pre ++ N) := by
  have hpro : prologue h' = prologue h := by rw [prologue,hlp,prologue]
  have hkeep (p : Nat) (hk : p + 8 ≤ c) : h'.get p = h.get p := by
    refine get_congr fun x hx hx' => ?_
    by_contra hne
    have := hw x hne
    omega
  have hsub : ∀ b ∈ pre, b ∈ pre ++ M := fun b hb => by simp [hb]
  have b8 := hl.base.listp
  refine ⟨?_,?_,?_,?_,?_,?_,hep⟩
  · rw [hlp,hl.listp,Heap.memStartBrk,Heap.memStartBrk,hst]
  · rw [hbrk,Heap.memMaxAddr,hst]
    exact hmax
  · have hfirst := hl.first
    rw [hpro]
    cases pre with
    | nil => exact absurd rfl hpre
    | cons b pre => simpa using hfirst
  · rw [hbrk,hlp]
    exact tiles_append.mpr ⟨c,hp,hm'⟩
  · intro b hb
    rcases List.mem_append.mp hb with hb | hb
    · rw [hpro]
      exact hl.shape b (hsub b hb)
    · exact ⟨(hshape b hb).1,Or.inl (hshape b hb).2⟩
  · intro b hb
    rcases List.mem_append.mp hb with hb | hb
    · obtain ⟨t1,t2⟩ := hl.tagged b (hsub b hb)
      obtain ⟨c1,c2,c3,c4,c5⟩ := hl.sec (hsub b hb)
      have := (tiles_mem hp hb).2
      exact ⟨by rw [hkeep _ (by omega),t1],by rw [hkeep _ (by omega),t2]⟩
    · exact htag b hb

theorem next_alloc_cons (hl : Layout h (pre ++ b :: c :: post)) :
    getAlloc h (hdrp (nextBlkp h b.addr)) = c.alloc.toNat := by
  rw [hl.nextBlkp_eq (by simp),← hl.next_addr]
  exact hl.hdr_alloc (by simp)

theorem next_alloc_nil (hl : Layout h (pre ++ [b])) :
    getAlloc h (hdrp (nextBlkp h b.addr)) = 1 := by
  rw [hl.nextBlkp_eq (by simp),hl.last_addr,hdrp,getAlloc_eq,wsize,hl.epilogue]

theorem prev_alloc (hl : Layout h (pre ++ b :: c :: post)) :
    getAlloc h (ftrp h (prevBlkp h c.addr)) = b.alloc.toNat := by
  rw [hl.prevBlkp_eq,hl.ftrp_eq (by simp)]
  exact hl.ftr_alloc (by simp)

theorem stamp_one (hl : Layout h (pre ++ M ++ post)) (hpre : pre ≠ []) (hne : M ≠ [])
    (hm : Tiles Blk.addr Blk.size b.addr M (b.addr + b.size)) (hs : b.size % 8 = 0)
    (hp : 16 ≤ b.size) : Layout (stamp b h) (pre ++ b :: post) := by
  obtain ⟨_,ht,_⟩ := tiles_splice hl.tiles hm hne hm
  have hlt := tiles_le ht
  have hb := hl.base
  have h1 := hb.listp
  have h2 := hb.span
  have hlo : h.heapListp ≤ b.addr := by
    cases M with
    | nil => exact absurd rfl hne
    | cons m M => exact hm.1 ▸ (hl.sec (by simp : m ∈ pre ++ (m :: M) ++ post)).lo
  simpa using hl.splice hpre hne hm (N := [b]) ⟨rfl,rfl⟩ (stamp_frame b h)
    (fun x hx => by
      by_contra hc
      exact hx (stamp_mem (by omega) (by omega) (by omega)))
    (fun c hc => by
      obtain rfl : c = b := by simpa using hc
      exact ⟨hs,hp⟩)
    (fun c hc => by
      obtain rfl : c = b := by simpa using hc
      exact stamp_tagged (by omega) hs (by omega) (by omega))

theorem stamp_two (hl : Layout h (pre ++ M ++ post)) (hpre : pre ≠ []) (hne : M ≠ [])
    (hm : Tiles Blk.addr Blk.size b.addr M (c.addr + c.size)) (hbc : b.addr + b.size = c.addr)
    (hs : b.size % 8 = 0) (hp : 16 ≤ b.size) (hs' : c.size % 8 = 0) (hp' : 16 ≤ c.size) :
    Layout (stamp c (stamp b h)) (pre ++ b :: c :: post) := by
  obtain ⟨_,ht,_⟩ := tiles_splice hl.tiles hm hne hm
  have hlt := tiles_le ht
  have hb := hl.base
  have h1 := hb.listp
  have h2 := hb.span
  have hlo : h.heapListp ≤ b.addr := by
    cases M with
    | nil => exact absurd rfl hne
    | cons m M => exact hm.1 ▸ (hl.sec (by simp : m ∈ pre ++ (m :: M) ++ post)).lo
  have htb : b.Tagged (stamp b h) := stamp_tagged (by omega) hs (by omega) (by omega)
  simpa using hl.splice hpre hne hm (N := [b,c]) ⟨rfl,hbc.symm,by rw [hbc]; rfl⟩
    ((stamp_frame b h).trans (stamp_frame c _))
    (fun x hx => by
      by_contra hc
      exact hx (by rw [stamp_mem (by omega) (by omega) (by omega),
        stamp_mem (by omega) (by omega) (by omega)]))
    (fun d hd => by
      rcases List.mem_pair.mp hd with rfl | rfl
      · exact ⟨hs,hp⟩
      · exact ⟨hs',hp'⟩)
    (fun d hd => by
      rcases List.mem_pair.mp hd with rfl | rfl
      · exact ⟨by rw [stamp_get (by omega) (by omega) (by omega),htb.1],
          by rw [stamp_get (by omega) (by omega) (by omega),htb.2]⟩
      · exact stamp_tagged (by omega) hs' (by omega) (by omega))

end Layout

end Malloc
