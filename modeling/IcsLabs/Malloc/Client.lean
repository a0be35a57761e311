import IcsLabs.Lib.Runs
import IcsLabs.Malloc.Init
import Mathlib.Data.List.Perm.Basic

namespace Malloc
open Bytes Tiling Linked

structure Request where
  ptr : Nat
  size : Nat
deriving DecidableEq

structure Client where
  heap : Heap
  live : List Request

inductive Call where
  | malloc (size : Nat)
  | free (ptr : Nat)
  | realloc (ptr size : Nat)
  | store (ptr offset : Nat) (byte : Byte)

def maxRequest : Nat := 2 ^ 31 - 16

namespace Client

def find (c : Client) (ptr : Nat) : Option Request := c.live.find? (·.ptr = ptr)

def writeByte (h : Heap) (p : Nat) (v : Byte) : Heap := { h with mem := Function.update h.mem p v }

-- none: the call is not the client's to make, or mm_realloc meets an exhausted heap
def exec : Call → Client → Option Client
  | .malloc size, c =>
    if 0 < size ∧ size ≤ maxRequest then
      (mmMalloc size c.heap).map fun (p,h) =>
        if p = 0 then ⟨h,c.live⟩ else ⟨h,⟨p,size⟩ :: c.live⟩
    else none
  | .free ptr, c => (c.find ptr).map fun r => ⟨mmFree ptr c.heap,c.live.erase r⟩
  | .realloc ptr size, c =>
    if 0 < size ∧ size ≤ maxRequest then
      (c.find ptr).bind fun r =>
        (mmRealloc ptr size c.heap).map fun (q,h) => ⟨h,⟨q,size⟩ :: c.live.erase r⟩
    else none
  | .store ptr offset v, c =>
    (c.find ptr).bind fun r =>
      if offset < r.size then some ⟨writeByte c.heap (ptr + offset) v,c.live⟩ else none

-- mdriver resets the break before each trace; mm_init must return 0
def start (h : Heap) : Option Client :=
  if (mmInit h.memResetBrk).1 = 0 then some ⟨(mmInit h.memResetBrk).2,[]⟩ else none

def run (calls : List Call) (h : Heap) : Option Client :=
  (start h).bind (Runs.run exec calls)

end Client

-- the blocks the client holds, each with the size the allocator gave it
def held (size : Nat → Nat) (live : List Request) : List Blk :=
  live.map fun r => ⟨r.ptr,size r.ptr,true⟩

structure Holds (h : Heap) (live : List Request) (size : Nat → Nat) : Prop where
  lent : Lent h (prologue h :: held size live)
  room : ∀ r ∈ live, 0 < r.size ∧ r.size + 8 ≤ size r.ptr

def Client.Inv (c : Client) : Prop := ∃ size, Holds c.heap c.live size

section Held

variable {size size' : Nat → Nat} {live live' : List Request} {r : Request} {h : Heap}
  {bs : List Blk}

theorem held_cons : held size (r :: live) = ⟨r.ptr,size r.ptr,true⟩ :: held size live := rfl

theorem mem_held {b : Blk} : b ∈ held size live ↔ ∃ r ∈ live, (⟨r.ptr,size r.ptr,true⟩ : Blk) = b :=
  List.mem_map

theorem held_congr (hs : ∀ r ∈ live, size' r.ptr = size r.ptr) : held size' live = held size live :=
  List.map_congr_left fun r hr => by rw [hs r hr]

theorem held_erase (hr : r ∈ live) :
    (held size live).Perm (⟨r.ptr,size r.ptr,true⟩ :: held size (live.erase r)) :=
  (List.perm_cons_erase hr).map _

theorem Lent.addrs_nodup (hl : Lent h bs) : (bs.map Blk.addr).Nodup := by
  obtain ⟨L,fl,ha,hp⟩ := hl
  exact (hp.map _).nodup_iff.mp (ha.layout.addrs_nodup.sublist (List.filter_sublist.map _))

theorem ne_of_lent {p s : Nat} {b : Blk} (hl : Lent h (⟨p,s,true⟩ :: b :: held size live))
    (hr : r ∈ live) : r.ptr ≠ p := by
  rintro rfl
  refine (List.nodup_cons.mp hl.addrs_nodup).1 (List.mem_map.mpr ⟨⟨r.ptr,size r.ptr,true⟩,?_,rfl⟩)
  exact List.mem_cons_of_mem _ (mem_held.mpr ⟨r,hr,rfl⟩)

theorem held_gain {p s n : Nat} {b : Blk} (hl : Lent h (⟨p,s,true⟩ :: b :: held size live)) :
    (⟨p,s,true⟩ :: b :: held size live).Perm
      (b :: held (Function.update size p s) (⟨p,n⟩ :: live)) := by
  have hkeep (r : Request) (hr : r ∈ live) : Function.update size p s r.ptr = size r.ptr :=
    Function.update_of_ne (ne_of_lent hl hr) _ _
  rw [held_cons,Function.update_self,held_congr hkeep]
  exact .swap _ _ _

theorem room_gain {p s n : Nat} {b : Blk} (hl : Lent h (⟨p,s,true⟩ :: b :: held size live))
    (hroom : ∀ r ∈ live, 0 < r.size ∧ r.size + 8 ≤ size r.ptr) (hn : 0 < n) (hs : n + 8 ≤ s) :
    ∀ r ∈ (⟨p,n⟩ :: live : List Request),
      0 < r.size ∧ r.size + 8 ≤ Function.update size p s r.ptr := by
  intro r hr
  rcases List.mem_cons.mp hr with rfl | hr
  · simpa using ⟨hn,hs⟩
  · rw [Function.update_of_ne (ne_of_lent hl hr)]
    exact hroom r hr

theorem Client.find_eq_some {c : Client} {p : Nat} (hf : c.find p = some r) :
    r ∈ c.live ∧ r.ptr = p :=
  ⟨List.mem_of_find?_eq_some hf,by simpa using List.find?_some hf⟩

end Held

theorem prologue_eq {g h : Heap} (hlp : h.heapListp = g.heapListp) : prologue h = prologue g := by
  rw [prologue,prologue,hlp]

namespace Holds

variable {h h' : Heap} {live : List Request} {size : Nat → Nat} {r : Request} {p n s : Nat}

theorem split (hc : Holds h live size) (hr : r ∈ live) :
    Lent h (⟨r.ptr,size r.ptr,true⟩ :: prologue h :: held size (live.erase r)) :=
  hc.lent.perm (((held_erase hr).cons _).trans (.swap _ _ _))

theorem gain (hl : Lent h' (⟨p,s,true⟩ :: prologue h' :: held size live))
    (hroom : ∀ r ∈ live, 0 < r.size ∧ r.size + 8 ≤ size r.ptr) (hn : 0 < n) (hs : n + 8 ≤ s) :
    Holds h' (⟨p,n⟩ :: live) (Function.update size p s) :=
  ⟨hl.perm (held_gain hl),room_gain hl hroom hn hs⟩

theorem room_erase (hc : Holds h live size) (r : Request) :
    ∀ q ∈ live.erase r, 0 < q.size ∧ q.size + 8 ≤ size q.ptr :=
  fun q hq => hc.room q (List.mem_of_mem_erase hq)

theorem free (hc : Holds h live size) (hr : r ∈ live) :
    Outcome h (mmFree r.ptr h) (prologue h :: held size (live.erase r))
        (prologue h :: held size (live.erase r)) ∧
      Holds (mmFree r.ptr h) (live.erase r) size := by
  have hs := hc.split hr
  have ho := mmFree_outcome hs (hs.ne_heapListp (by simp))
  exact ⟨ho,prologue_eq ho.heapListp ▸ ho.lent,hc.room_erase r⟩

theorem malloc (hc : Holds h live size) (h0 : 0 < n) (hn : n ≤ maxRequest) :
    ∃ p h', mmMalloc n h = some (p,h') ∧ ((p = 0 ∧ h' = h) ∨
      p ≠ 0 ∧ Frame h h' (prologue h :: held size live) ∧ ∃ size', Holds h' (⟨p,n⟩ :: live) size') := by
  have hmax : maxRequest = 2 ^ 31 - 16 := rfl
  obtain ⟨p,h',he,hr⟩ := mmMalloc_spec hc.lent h0 (by omega)
  refine ⟨p,h',he,hr.imp id ?_⟩
  rintro ⟨s,hs,hp,ho⟩
  have hl := ho.lent
  rw [← prologue_eq ho.heapListp] at hl
  exact ⟨hp,ho.frame,_,gain hl hc.room h0 hs⟩

theorem realloc (hc : Holds h live size) (hr : r ∈ live) (h0 : 0 < n) (hn : n ≤ maxRequest) :
    (mmRealloc r.ptr n h = none ∧ mmMalloc (alignSize n) h = some (0,h)) ∨
      ∃ q h' size', mmRealloc r.ptr n h = some (q,h') ∧
        Frame h h' (prologue h :: held size (live.erase r)) ∧
        (∀ i, i < r.size → i < n → h'.mem (q + i) = h.mem (r.ptr + i)) ∧
        Holds h' (⟨q,n⟩ :: live.erase r) size' := by
  have hroom := (hc.room r hr).2
  refine (mmRealloc_spec (hc.split hr) (by simp) h0 hn).imp id ?_
  rintro ⟨q,h',s,he,hs,ho,hb⟩
  have hl := ho.lent
  rw [← prologue_eq ho.heapListp] at hl
  exact ⟨q,h',_,he,ho.frame,fun i hi hi' => hb i (by omega) hi',gain hl (hc.room_erase r) h0 hs⟩

theorem store (hc : Holds h live size) (hr : r ∈ live) (hi : n < r.size) (v : Byte) :
    Holds (Client.writeByte h (r.ptr + n) v) live size := by
  have hroom := (hc.room r hr).2
  refine ⟨hc.lent.of_writes ⟨rfl,rfl,rfl⟩ rfl rfl fun x hx => ?_,hc.room⟩
  refine ⟨⟨r.ptr,size r.ptr,true⟩,List.mem_cons_of_mem _ (mem_held.mpr ⟨r,hr,rfl⟩),?_⟩
  obtain rfl : x = r.ptr + n := by
    by_contra hne
    exact hx (Function.update_of_ne hne _ _)
  exact ⟨Nat.le_add_right _ _,by simp only; omega⟩

end Holds

namespace Client

variable {c c' : Client} {h : Heap} {call : Call} {calls : List Call}

theorem start_inv (h : Heap) : ∃ c, start h = some c ∧ c.Inv := by
  obtain ⟨h',he,_,hl⟩ := mmInit_lent h
  exact ⟨⟨h',[]⟩,by rw [start,he,if_pos rfl],fun _ => 0,hl,by simp⟩

theorem exec_inv (hc : c.Inv) (he : exec call c = some c') : c'.Inv := by
  obtain ⟨size,hc⟩ := hc
  cases call with
  | malloc n =>
    simp only [exec,Option.ite_none_right_eq_some,Option.map_eq_some_iff] at he
    obtain ⟨⟨h0,hn⟩,⟨p,h⟩,hm,rfl⟩ := he
    obtain ⟨q,h',hm',⟨rfl,rfl⟩ | ⟨hq,_,size',hH⟩⟩ := hc.malloc h0 hn
    · obtain ⟨rfl,rfl⟩ := Prod.mk.inj (Option.some.inj (hm'.symm.trans hm))
      exact ⟨size,hc⟩
    · obtain ⟨rfl,rfl⟩ := Prod.mk.inj (Option.some.inj (hm'.symm.trans hm))
      simp only [if_neg hq]
      exact ⟨size',hH⟩
  | free p =>
    simp only [exec,Option.map_eq_some_iff] at he
    obtain ⟨r,hr,rfl⟩ := he
    obtain ⟨hm,rfl⟩ := find_eq_some hr
    exact ⟨size,(hc.free hm).2⟩
  | realloc p n =>
    simp only [exec,Option.ite_none_right_eq_some,Option.bind_eq_some_iff,Option.map_eq_some_iff] at he
    obtain ⟨⟨h0,hn⟩,r,hr,⟨q,h⟩,hm,rfl⟩ := he
    obtain ⟨hmem,rfl⟩ := find_eq_some hr
    rcases hc.realloc hmem h0 hn with ⟨hm',_⟩ | ⟨q',h',size',hm',_,_,hH⟩
    · simp [hm'] at hm
    · obtain ⟨rfl,rfl⟩ := Prod.mk.inj (Option.some.inj (hm'.symm.trans hm))
      exact ⟨size',hH⟩
  | store p i v =>
    simp only [exec,Option.bind_eq_some_iff,Option.ite_none_right_eq_some] at he
    obtain ⟨r,hr,hi,he⟩ := he
    obtain ⟨hmem,rfl⟩ := find_eq_some hr
    obtain rfl := Option.some.inj he
    exact ⟨size,hc.store hmem hi v⟩

-- the calls the client may make in its state
def Allowed (c : Client) : Call → Prop
  | .malloc size => 0 < size ∧ size ≤ maxRequest
  | .free ptr => ∃ r ∈ c.live, r.ptr = ptr
  | .realloc ptr size => (0 < size ∧ size ≤ maxRequest) ∧ ∃ r ∈ c.live, r.ptr = ptr
  | .store ptr offset _ => ∃ r, c.find ptr = some r ∧ offset < r.size

-- the heap has no room for the copy an mm_realloc would have to make
def Exhausted (c : Client) : Call → Prop
  | .realloc _ size => mmMalloc (alignSize size) c.heap = some (0,c.heap)
  | _ => False

theorem find_of_mem {r : Request} (hr : r ∈ c.live) : ∃ q, c.find r.ptr = some q := by
  rw [← Option.isSome_iff_exists,find,List.find?_isSome]
  exact ⟨r,hr,by simp⟩

theorem exec_returns (hc : c.Inv) (ha : c.Allowed call) (hx : ¬c.Exhausted call) :
    ∃ c', exec call c = some c' := by
  obtain ⟨size,hc⟩ := hc
  cases call with
  | malloc n =>
    obtain ⟨h0,hn⟩ := ha
    obtain ⟨p,h',hm,_⟩ := hc.malloc h0 hn
    exact ⟨_,by rw [exec,if_pos ⟨h0,hn⟩,hm]; rfl⟩
  | free p =>
    obtain ⟨r,hr,rfl⟩ := ha
    obtain ⟨q,hq⟩ := find_of_mem hr
    exact ⟨_,by rw [exec,hq]; rfl⟩
  | realloc p n =>
    obtain ⟨hn,r,hr,rfl⟩ := ha
    obtain ⟨q,hq⟩ := find_of_mem hr
    obtain ⟨hqm,hqp⟩ := find_eq_some hq
    rcases hc.realloc hqm hn.1 hn.2 with ⟨_,hm⟩ | ⟨p,h',size',hm,_⟩
    · exact absurd hm hx
    · exact ⟨_,by rw [exec,if_pos hn,hq,Option.bind_some,← hqp,hm]; rfl⟩
  | store p i v =>
    obtain ⟨r,hr,hi⟩ := ha
    exact ⟨_,by rw [exec,hr,Option.bind_some,if_pos hi]⟩

theorem run_inv (hr : run calls h = some c) : c.Inv := by
  obtain ⟨c0,h0,hi⟩ := start_inv h
  rw [run,h0,Option.bind_some] at hr
  exact Runs.run_invariant (fun _ _ _ hI hs => exec_inv hI hs) hi hr

end Client

end Malloc
