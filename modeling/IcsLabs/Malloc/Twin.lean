import IcsLabs.Malloc.Contract

namespace Malloc
open Bytes Tiling

def Request.up (d : Nat) (r : Request) : Request := ⟨d + r.ptr,r.size⟩

-- a request as it looks from the start of the heap
inductive Ask where
  | malloc (size : Nat)
  | free (offset : Int)
  | realloc (offset : Int) (size : Nat)
deriving DecidableEq

structure Reply where
  offset : Option Int
  heapsize : Nat
deriving DecidableEq

def offset (h : Heap) (p : Nat) : Option Int := if p = 0 then none else some ((p : Int) - h.memStartBrk)

namespace Client

def ask (start : Nat) : Call → Option Ask
  | .malloc size => some (.malloc size)
  | .free ptr => some (.free ((ptr : Int) - start))
  | .realloc ptr size => some (.realloc ((ptr : Int) - start) size)
  | .store .. => none

def asks (start : Nat) (calls : List Call) : List Ask := calls.filterMap (ask start)

-- the pointer the call returns; mm_free returns none
def returned : Call → Client → Option Nat
  | .malloc size, c => (mmMalloc size c.heap).map Prod.fst
  | .realloc ptr size, c => (mmRealloc ptr size c.heap).map Prod.fst
  | .free _, _ | .store .., _ => none

def reply (call : Call) (c c' : Client) : Reply :=
  ⟨(returned call c).bind (offset c.heap),c'.heap.memHeapsize⟩

def isStore : Call → Bool
  | .store .. => true
  | _ => false

-- what the requests among the calls return, up to the first that does not return
def replies : List Call → Client → List Reply
  | [], _ => []
  | call :: calls, c =>
    match exec call c with
    | none => []
    | some c' => if isStore call then replies calls c' else reply call c c' :: replies calls c'

-- every call is the client's to make in the state it is made in
def Disciplined (calls : List Call) (c : Client) : Prop :=
  Runs.Meets exec (fun call c => c.Allowed call) calls c

end Client

-- the replies to a list of requests, read off the plan alone
def Plan.serve : List Ask → Plan → List Request → List Reply
  | [], _, _ => []
  | .malloc n :: as, A, live =>
    match A.malloc maxHeap n with
    | none => ⟨none,A.brk⟩ :: Plan.serve as A live
    | some (p,B) => ⟨some (p : Int),B.brk⟩ :: Plan.serve as B (⟨p,n⟩ :: live)
  | .free o :: as, A, live =>
    match live.find? fun r => (r.ptr : Int) = o with
    | none => []
    | some r =>
      ⟨none,(A.release r.ptr).brk⟩ :: Plan.serve as (A.release r.ptr) (live.erase r)
  | .realloc o n :: as, A, live =>
    match live.find? fun r => (r.ptr : Int) = o with
    | none => []
    | some r =>
      match A.realloc maxHeap r.ptr n with
      | none => []
      | some (q,B) => ⟨some (q : Int),B.brk⟩ :: Plan.serve as B (⟨q,n⟩ :: live.erase r)

section Up

variable {d : Nat} {L : List Blk} {live : List Request} {r : Request} {p : Nat}

theorem Request.up_injective (d : Nat) : Function.Injective (Request.up d) := by
  rintro ⟨p,n⟩ ⟨q,m⟩ h
  simpa [Request.up] using h

theorem find_up : (live.map (Request.up d)).find? (fun r => decide (r.ptr = d + p)) =
    (live.find? fun r => decide (r.ptr = p)).map (Request.up d) := by
  simp only [List.find?_map,Function.comp_def,Request.up,Nat.add_left_cancel_iff]

theorem erase_up_live : (live.map (Request.up d)).erase (r.up d) = (live.erase r).map (Request.up d) :=
  (List.map_erase (Request.up_injective d) live).symm

end Up

-- the client's heap holds the plan A and its requests are live, both counted from the heap start
structure Follows (c : Client) (A : Plan) (live : List Request) : Prop where
  arena : Arena c.heap (A.up c.heap.memStartBrk).blocks (A.up c.heap.memStartBrk).free
  live : c.live = live.map (Request.up c.heap.memStartBrk)
  sizes : ∃ size, (allocs (A.up c.heap.memStartBrk).blocks).Perm
      (prologue c.heap :: held size c.live) ∧
    ∀ r ∈ c.live, 0 < r.size ∧ r.size + 8 ≤ size r.ptr

namespace Follows

variable {c c' : Client} {A B : Plan} {live : List Request} {r : Request} {h' : Heap} {n p : Nat}

theorem ne_nil (hf : Follows c A live) : A.blocks ≠ [] := by
  have := hf.arena.layout.ne_nil
  simpa [Plan.up] using this

theorem heapsize (hf : Follows c A live) : c.heap.memHeapsize = A.brk := by
  have h := hf.arena.brk_eq
  rw [Plan.brk_up hf.ne_nil] at h
  rw [Heap.memHeapsize,← h,Nat.add_sub_cancel_left]

theorem memMaxAddr (h : Heap) : h.memMaxAddr = h.memStartBrk + maxHeap := h.storage.max

theorem find (hf : Follows c A live) (p : Nat) : c.find (c.heap.memStartBrk + p) =
    (live.find? fun r => decide (r.ptr = p)).map (Request.up c.heap.memStartBrk) := by
  rw [Client.find,hf.live]
  exact find_up

theorem malloc (hf : Follows c A live) (h0 : 0 < n) (hn : n ≤ maxRequest) :
    match A.malloc maxHeap n with
    | none => mmMalloc n c.heap = some (0,c.heap)
    | some (p,B) => ∃ h', mmMalloc n c.heap = some (c.heap.memStartBrk + p,h') ∧
        c.heap.memStartBrk + p ≠ 0 ∧ h'.memStartBrk = c.heap.memStartBrk ∧
        Follows ⟨h',⟨c.heap.memStartBrk + p,n⟩ :: c.live⟩ B (⟨p,n⟩ :: live) := by
  have hmax : maxRequest = 2 ^ 31 - 16 := rfl
  have hm := mmMalloc_plan hf.arena h0 (by omega : n ≤ 2 ^ 31 - 8)
  rw [memMaxAddr,Plan.malloc_up hf.ne_nil] at hm
  cases hA : A.malloc maxHeap n with
  | none =>
    rw [hA] at hm
    exact hm
  | some pB =>
    obtain ⟨p,B⟩ := pB
    rw [hA] at hm
    obtain ⟨h',s,he,hs,hG⟩ := hm
    have hst : h'.memStartBrk = c.heap.memStartBrk := by
      rw [Heap.memStartBrk,hG.storage,Heap.memStartBrk]
    obtain ⟨size,hl,hroom⟩ := hf.sizes
    have hlent := (hG.outcome hl).lent
    rw [← prologue_eq hG.heapListp] at hlent
    refine ⟨h',he,hG.ne_zero,hst,⟨hst.symm ▸ hG.arena,?_,_,?_,room_gain hlent hroom h0 hs⟩⟩
    · rw [hst,hf.live]
      rfl
    · rw [hst]
      refine (hG.lends.trans (hl.cons _)).trans ?_
      rw [← prologue_eq hG.heapListp]
      exact held_gain hlent

theorem split (hf : Follows c A live) (hr : r ∈ live) : ∃ size,
    (allocs (A.up c.heap.memStartBrk).blocks).Perm
      (⟨c.heap.memStartBrk + r.ptr,size (c.heap.memStartBrk + r.ptr),true⟩ :: prologue c.heap ::
        held size (c.live.erase (r.up c.heap.memStartBrk))) ∧
    (∀ q ∈ c.live.erase (r.up c.heap.memStartBrk), 0 < q.size ∧ q.size + 8 ≤ size q.ptr) ∧
    c.heap.memStartBrk + r.ptr ≠ c.heap.heapListp := by
  obtain ⟨size,hl,hroom⟩ := hf.sizes
  have hmem : r.up c.heap.memStartBrk ∈ c.live := hf.live ▸ List.mem_map_of_mem hr
  have hp := hl.trans (((held_erase hmem).cons _).trans (.swap _ _ _))
  exact ⟨size,hp,fun q hq => hroom q (List.mem_of_mem_erase hq),
    Lent.ne_heapListp ⟨_,_,hf.arena,hp⟩ (by simp)⟩

theorem free (hf : Follows c A live) (hr : r ∈ live) :
    (mmFree (c.heap.memStartBrk + r.ptr) c.heap).memStartBrk = c.heap.memStartBrk ∧
      Follows ⟨mmFree (c.heap.memStartBrk + r.ptr) c.heap,c.live.erase (r.up c.heap.memStartBrk)⟩
        (A.release r.ptr) (live.erase r) := by
  obtain ⟨size,hp,hroom,hne⟩ := hf.split hr
  have hb := (mem_allocs.mp (hp.mem_iff.mpr (List.mem_cons_self))).1
  have hE := release_effect hf.arena hb hne
  have ha := release_allocs hf.arena hp
  rw [Plan.release_up] at hE ha
  have hst : (mmFree (c.heap.memStartBrk + r.ptr) c.heap).memStartBrk = c.heap.memStartBrk := by
    rw [Heap.memStartBrk,hE.storage,Heap.memStartBrk]
  refine ⟨hst,⟨hst.symm ▸ hE.arena,?_,size,?_,hroom⟩⟩
  · rw [hst,hf.live]
    exact erase_up_live
  · rw [hst,prologue_eq hE.heapListp]
    exact ha

theorem realloc (hf : Follows c A live) (hr : r ∈ live) (h0 : 0 < n) (hn : n ≤ maxRequest) :
    match A.realloc maxHeap r.ptr n with
    | none => mmRealloc (c.heap.memStartBrk + r.ptr) n c.heap = none
    | some (q,B) => ∃ h', mmRealloc (c.heap.memStartBrk + r.ptr) n c.heap =
          some (c.heap.memStartBrk + q,h') ∧
        c.heap.memStartBrk + q ≠ 0 ∧ h'.memStartBrk = c.heap.memStartBrk ∧
        Follows ⟨h',⟨c.heap.memStartBrk + q,n⟩ :: c.live.erase (r.up c.heap.memStartBrk)⟩ B
          (⟨q,n⟩ :: live.erase r) := by
  obtain ⟨size,hp,hroom,hne⟩ := hf.split hr
  have hm := mmRealloc_plan hf.arena hp hne h0 hn
  rw [memMaxAddr,Plan.realloc_up hf.ne_nil] at hm
  cases hA : A.realloc maxHeap r.ptr n with
  | none =>
    rw [hA] at hm
    exact hm.1
  | some qB =>
    obtain ⟨q,B⟩ := qB
    rw [hA] at hm
    obtain ⟨h',s,he,ha,hl,hM⟩ := hm
    have hst : h'.memStartBrk = c.heap.memStartBrk := by
      rw [Heap.memStartBrk,hM.outcome.storage,Heap.memStartBrk]
    have hlent := hM.outcome.lent
    rw [← prologue_eq hM.outcome.heapListp] at hlent
    refine ⟨h',he,hlent.addr_ne_zero,hst,⟨hst.symm ▸ ha,?_,_,?_,room_gain hlent hroom h0 hM.room⟩⟩
    · rw [hst,hf.live,erase_up_live]
      rfl
    · rw [hst]
      refine hl.trans ?_
      rw [← prologue_eq hM.outcome.heapListp]
      exact held_gain hlent

theorem store (hf : Follows c A live) (hr : r ∈ c.live) (hi : n < r.size) (v : Byte) :
    Follows ⟨Client.writeByte c.heap (r.ptr + n) v,c.live⟩ A live := by
  obtain ⟨size,hl,hroom⟩ := hf.sizes
  have hr8 := (hroom r hr).2
  refine ⟨hf.arena.of_writes ⟨rfl,rfl,rfl⟩ rfl rfl fun x hx => ?_,hf.live,size,hl,hroom⟩
  obtain rfl : x = r.ptr + n := by
    by_contra hne
    exact hx (Function.update_of_ne hne _ _)
  exact ⟨⟨r.ptr,size r.ptr,true⟩,hl.mem_iff.mpr (List.mem_cons_of_mem _ (mem_held.mpr ⟨r,hr,rfl⟩)),
    Nat.le_add_right _ _,by simp only; omega⟩

theorem find_of_mem {p : Nat} (hf : Follows c A live) (hr : r ∈ c.live) (hp : r.ptr = p) :
    ∃ q ∈ live, live.find? (fun r => decide ((r.ptr : Int) = p - c.heap.memStartBrk)) = some q ∧
      c.find p = some (q.up c.heap.memStartBrk) ∧ p = c.heap.memStartBrk + q.ptr := by
  rw [hf.live] at hr
  obtain ⟨r0,hr0,rfl⟩ := List.mem_map.mp hr
  have hpk : p = c.heap.memStartBrk + r0.ptr := hp.symm
  subst hpk
  have hsame : (fun r : Request => decide ((r.ptr : Int) =
      (c.heap.memStartBrk + r0.ptr : Nat) - c.heap.memStartBrk)) = fun r => decide (r.ptr = r0.ptr) := by
    funext r
    rw [decide_eq_decide]
    omega
  obtain ⟨q,hq⟩ : ∃ q, live.find? (fun r => decide (r.ptr = r0.ptr)) = some q := by
    rw [← Option.isSome_iff_exists,List.find?_isSome]
    exact ⟨r0,hr0,by simp⟩
  have hqp : q.ptr = r0.ptr := by simpa using List.find?_some hq
  exact ⟨q,List.mem_of_find?_eq_some hq,by rw [hsame,hq],by rw [hf.find,hq]; rfl,by rw [hqp]⟩

theorem offset_eq {h : Heap} (hp : h.memStartBrk + p ≠ 0) : offset h (h.memStartBrk + p) = some (p : Int) := by
  rw [offset,if_neg hp]
  congr 1
  omega

end Follows

section Replies

variable {calls : List Call} {c : Client} {A : Plan} {live : List Request}

theorem replies_ask {call : Call} {c' : Client} (hx : Client.exec call c = some c')
    (hs : Client.isStore call = false) :
    Client.replies (call :: calls) c = Client.reply call c c' :: Client.replies calls c' := by
  simp only [Client.replies,hx,hs,Bool.false_eq_true,if_false]

theorem replies_serve (hf : Follows c A live) (hd : Client.Disciplined calls c) :
    Client.replies calls c = A.serve (Client.asks c.heap.memStartBrk calls) live := by
  induction calls generalizing c A live with
  | nil => rfl
  | cons call calls ih =>
    have ha := hd.1
    have hd (c' : Client) (hx : Client.exec call c = some c') : Client.Disciplined calls c' :=
      (Runs.meets_cons hd hx).2
    cases call with
    | malloc n =>
      obtain ⟨h0,hn⟩ := ha
      have hm := hf.malloc h0 hn
      change _ = Plan.serve (.malloc n :: Client.asks c.heap.memStartBrk calls) A live
      rw [Plan.serve]
      cases hA : A.malloc maxHeap n with
      | none =>
        rw [hA] at hm
        have hx : Client.exec (.malloc n) c = some c := by
          rw [Client.exec,if_pos ⟨h0,hn⟩,hm]
          rfl
        rw [replies_ask hx rfl,ih hf (hd c hx),Client.reply,hf.heapsize,Client.returned,hm]
        rfl
      | some pB =>
        obtain ⟨p,B⟩ := pB
        rw [hA] at hm
        obtain ⟨h',hm,hp0,hst,hF⟩ := hm
        have hx : Client.exec (.malloc n) c = some ⟨h',⟨c.heap.memStartBrk + p,n⟩ :: c.live⟩ := by
          rw [Client.exec,if_pos ⟨h0,hn⟩,hm]
          exact congrArg some (if_neg hp0)
        rw [replies_ask hx rfl,ih hF (hd _ hx),Client.reply,hF.heapsize,Client.returned,hm,
          Option.map_some,Option.bind_some,Follows.offset_eq hp0,hst]
    | free p =>
      obtain ⟨r,hr,hrp⟩ := ha
      obtain ⟨q,hq,hfind,hcf,rfl⟩ := hf.find_of_mem hr hrp
      obtain ⟨hst,hF⟩ := hf.free hq
      have hx := congrArg (Option.map fun r => (⟨mmFree (c.heap.memStartBrk + q.ptr) c.heap,
        c.live.erase r⟩ : Client)) hcf
      change Client.exec (.free (c.heap.memStartBrk + q.ptr)) c = _ at hx
      change _ = Plan.serve (.free ((c.heap.memStartBrk + q.ptr : Nat) - c.heap.memStartBrk) ::
        Client.asks c.heap.memStartBrk calls) A live
      rw [Plan.serve,hfind,replies_ask hx rfl,ih hF (hd _ hx),Client.reply,hF.heapsize,hst]
      rfl
    | realloc p n =>
      obtain ⟨hn,r,hr,hrp⟩ := ha
      obtain ⟨q,hq,hfind,hcf,rfl⟩ := hf.find_of_mem hr hrp
      have hm := hf.realloc hq hn.1 hn.2
      change _ = Plan.serve (.realloc ((c.heap.memStartBrk + q.ptr : Nat) - c.heap.memStartBrk) n ::
        Client.asks c.heap.memStartBrk calls) A live
      rw [Plan.serve,hfind]
      cases hA : A.realloc maxHeap q.ptr n with
      | none =>
        rw [hA] at hm
        have hx : Client.exec (.realloc (c.heap.memStartBrk + q.ptr) n) c = none := by
          rw [Client.exec,if_pos hn,hcf,Option.bind_some,hm]
          rfl
        simp only [Client.replies,hx,hA]
      | some pB =>
        obtain ⟨q',B⟩ := pB
        rw [hA] at hm
        obtain ⟨h',hm,hp0,hst,hF⟩ := hm
        have hx : Client.exec (.realloc (c.heap.memStartBrk + q.ptr) n) c =
            some ⟨h',⟨c.heap.memStartBrk + q',n⟩ :: c.live.erase (q.up c.heap.memStartBrk)⟩ := by
          rw [Client.exec,if_pos hn,hcf,Option.bind_some,hm]
          rfl
        simp only [hA]
        rw [replies_ask hx rfl,ih hF (hd _ hx),Client.reply,hF.heapsize,Client.returned,hm,
          Option.map_some,Option.bind_some,Follows.offset_eq hp0,hst]
    | store p i v =>
      obtain ⟨r,hr,hi⟩ := ha
      obtain ⟨hmem,rfl⟩ := Client.find_eq_some hr
      have hx : Client.exec (.store r.ptr i v) c =
          some ⟨Client.writeByte c.heap (r.ptr + i) v,c.live⟩ := by
        rw [Client.exec,hr,Option.bind_some,if_pos hi]
      have hih := ih (hf.store hmem hi v) (hd _ hx)
      simp only [Client.replies,hx,Client.isStore,if_true]
      exact hih

theorem allowed_of_exec {call : Call} {c' : Client} (he : Client.exec call c = some c') :
    c.Allowed call := by
  cases call with
  | malloc n =>
    simp only [Client.exec,Option.ite_none_right_eq_some] at he
    exact he.1
  | free p =>
    simp only [Client.exec,Option.map_eq_some_iff] at he
    obtain ⟨r,hr,_⟩ := he
    exact ⟨r,Client.find_eq_some hr⟩
  | realloc p n =>
    simp only [Client.exec,Option.ite_none_right_eq_some,Option.bind_eq_some_iff] at he
    obtain ⟨hn,r,hr,_⟩ := he
    exact ⟨hn,r,Client.find_eq_some hr⟩
  | store p i v =>
    simp only [Client.exec,Option.bind_eq_some_iff,Option.ite_none_right_eq_some] at he
    obtain ⟨r,hr,hi,_⟩ := he
    exact ⟨r,hr,hi⟩

theorem disciplined_of_run {c' : Client} (hr : Runs.run Client.exec calls c = some c') :
    Client.Disciplined calls c :=
  Runs.meets_of_run (fun _ _ _ => allowed_of_exec) hr

theorem start_follows (h : Heap) : ∃ c, Client.start h = some c ∧
    c.heap.memStartBrk = h.memStartBrk ∧ Follows c Plan.fresh [] := by
  obtain ⟨h',he,hst,hlp,ha⟩ := mmInit_plan h
  have hs : h'.memStartBrk = h.memStartBrk := by rw [Heap.memStartBrk,hst,Heap.memStartBrk]
  refine ⟨⟨h',[]⟩,by rw [Client.start,he,if_pos rfl],hs,⟨hs.symm ▸ ha,rfl,fun _ => 0,?_,by simp⟩⟩
  rw [prologue,hlp,hs]
  rfl

end Replies

theorem contents_independent {g1 g2 : Heap} {c1 c2 : Client} {calls1 calls2 : List Call}
    (h1 : Client.start g1 = some c1) (h2 : Client.start g2 = some c2)
    (hd1 : Client.Disciplined calls1 c1) (hd2 : Client.Disciplined calls2 c2)
    (hsame : Client.asks g1.memStartBrk calls1 = Client.asks g2.memStartBrk calls2) :
    c1.heap.memHeapsize = c2.heap.memHeapsize ∧
      Client.replies calls1 c1 = Client.replies calls2 c2 := by
  obtain ⟨c,hc,hs1,hf1⟩ := start_follows g1
  obtain rfl := Option.some.inj (hc.symm.trans h1)
  obtain ⟨c',hc',hs2,hf2⟩ := start_follows g2
  obtain rfl := Option.some.inj (hc'.symm.trans h2)
  refine ⟨hf1.heapsize.trans hf2.heapsize.symm,?_⟩
  rw [replies_serve hf1 hd1,replies_serve hf2 hd2,hs1,hs2,hsame]

-- the same requests on a heap that starts elsewhere, with other bytes left over and other stores
def otherHeap : Heap where
  storage := ⟨32,32 + maxHeap,rfl,by decide,by decide,by decide⟩
  mem := fun x => BitVec.ofNat 8 x
  memBrk := 32
  heapListp := 9
  hdFree := 1
  ftFree := 2

def otherCalls : List Call :=
  [.malloc 24,.store 4112 0 1,.malloc 100,.free 4000,.store 4112 23 9,.realloc 4112 500,.malloc 5000]

theorem contents_independent_two : ∃ c1 c2, Client.start sampleHeap = some c1 ∧
    Client.start otherHeap = some c2 ∧
    Client.replies sampleCalls c1 = Client.replies otherCalls c2 := by
  obtain ⟨c1,h1,_⟩ := start_follows sampleHeap
  obtain ⟨c2,h2,_⟩ := start_follows otherHeap
  have hr1 : ((Client.start sampleHeap).bind (Runs.run Client.exec sampleCalls)).isSome := by
    decide +kernel
  have hr2 : ((Client.start otherHeap).bind (Runs.run Client.exec otherCalls)).isSome := by
    decide +kernel
  rw [h1,Option.bind_some,Option.isSome_iff_exists] at hr1
  rw [h2,Option.bind_some,Option.isSome_iff_exists] at hr2
  obtain ⟨_,hr1⟩ := hr1
  obtain ⟨_,hr2⟩ := hr2
  exact ⟨c1,c2,h1,h2,(contents_independent h1 h2 (disciplined_of_run hr1) (disciplined_of_run hr2)
    (by decide +kernel)).2⟩

end Malloc
