import IcsLabs.Malloc.Accepted
import IcsLabs.Malloc.Twin

namespace Malloc
open Bytes
open Libc (toInt toSizeT toSizeT_eq intSub)

-- mm.c over memlib.c
def mmPackage : Package Heap where
  memResetBrk := Heap.memResetBrk
  memHeapLo := Heap.memStartBrk
  memHeapHi h := h.memBrk - 1
  memHeapsize := Heap.memHeapsize
  mmInit := mmInit
  mmMalloc := mmMalloc
  mmFree p h := some (mmFree p h)
  mmRealloc := mmRealloc
  byte := Heap.mem
  memset p v n h := { h with mem := fun x => if p ≤ x ∧ x < p + n then v else h.mem x }

-- a plan with the offset of each id's block from the start of the heap
structure Ledger where
  plan : Plan
  off : Nat → Nat

namespace Ledger

def answer (op : TraceOp) (L : Ledger) : Option Ledger :=
  match op.type with
  | .alloc =>
    (L.plan.malloc maxHeap op.size.toNat).map fun (p,B) => ⟨B,Function.update L.off op.index p⟩
  | .realloc =>
    (L.plan.realloc maxHeap (L.off op.index) op.size.toNat).map fun (q,B) =>
      ⟨B,Function.update L.off op.index q⟩
  | .free => some ⟨L.plan.release (L.off op.index),L.off⟩

-- a request that the plan cannot grant: mm_malloc returns NULL, and mm_realloc writes through it
def serve (i : Nat) (op : TraceOp) (L : Ledger) : Except Stop Ledger :=
  match L.answer op with
  | none => .error (if op.type = .alloc then .error i .mallocFailed else .crash)
  | some L => .ok L

end Ledger

def requests (blocks : Nat → Nat) (ids : Ids) : List Request := ids.map fun x => ⟨blocks x.1,x.2⟩

section Requests

variable {f g : Nat → Nat} {ids : Ids} {i n p : Nat} {x : Nat × Nat}

theorem requests_update (hi : ¬ Ids.InUse i ids) :
    requests (Function.update f i p) ids = requests f ids :=
  List.map_congr_left fun x hx => by rw [Function.update_of_ne (Ids.ne_of_not_inUse hi hx)]

theorem requests_cons (hi : ¬ Ids.InUse i ids) :
    requests (Function.update f i p) ((i,n) :: ids) = ⟨p,n⟩ :: requests f ids := by
  rw [requests,List.map_cons,Function.update_self,← requests,requests_update hi]

theorem requests_erase (hn : ((requests f ids).map Request.ptr).Nodup)
    (hk : (ids.map Prod.fst).Nodup) (hx : (i,n) ∈ ids) :
    (requests f ids).erase ⟨f i,n⟩ = requests f (Ids.drop i ids) := by
  rw [List.erase_eq_eraseP]
  refine Ids.map_drop _ _ fun x hm => ?_
  rw [Bool.eq_iff_iff,beq_iff_eq,decide_eq_true_iff]
  rw [requests,List.map_map] at hn
  refine ⟨fun h => ?_,fun h => ?_⟩
  · exact congrArg Prod.fst (List.inj_on_of_nodup_map hn hm hx (congrArg Request.ptr h).symm)
  · obtain rfl := List.inj_on_of_nodup_map hk hm hx h
    rfl

theorem mem_requests (hx : x ∈ ids) : (⟨f x.1,x.2⟩ : Request) ∈ requests f ids :=
  List.mem_map_of_mem hx

end Requests

theorem Follows.holds {c : Client} {A : Plan} {live : List Request} (hf : Follows c A live) :
    ∃ size, Holds c.heap c.live size := by
  obtain ⟨size,hl,hr⟩ := hf.sizes
  exact ⟨size,⟨_,_,hf.arena,hl⟩,hr⟩

-- the heap follows the plan, and the arrays of the trace hold the pointers it gave out
structure Serves (L : Ledger) (ids : Ids) (h : Heap) (blocks : Nat → Nat) : Prop where
  follows : Follows ⟨h,requests blocks ids⟩ L.plan (requests L.off ids)
  keys : (ids.map Prod.fst).Nodup

namespace Serves

variable {L L' : Ledger} {ids ids' : Ids} {h : Heap} {blocks : Nat → Nat} {op : TraceOp} {i n : Nat}
  {x : Nat × Nat}

theorem block (hs : Serves L ids h blocks) (hx : x ∈ ids) :
    blocks x.1 = h.memStartBrk + L.off x.1 := by
  have hl := hs.follows.live
  simp only [requests,List.map_map] at hl
  exact congrArg Request.ptr (List.map_inj_left.mp hl x hx)

theorem ptrs_nodup (hs : Serves L ids h blocks) : ((requests blocks ids).map Request.ptr).Nodup := by
  obtain ⟨size,hH⟩ := hs.follows.holds
  exact hH.ptrs_nodup

theorem offs_nodup (hs : Serves L ids h blocks) : ((requests L.off ids).map Request.ptr).Nodup := by
  have hn := hs.ptrs_nodup
  have hl := hs.follows.live
  simp only at hl
  rw [hl,List.map_map] at hn
  exact (List.Nodup.of_map (h.memStartBrk + ·) (by rwa [List.map_map]))

theorem erase_blocks (hs : Serves L ids h blocks) (hx : (i,n) ∈ ids) :
    (requests blocks ids).erase ((⟨L.off i,n⟩ : Request).up h.memStartBrk) =
      requests blocks (Ids.drop i ids) := by
  rw [Request.up,← hs.block hx]
  exact requests_erase hs.ptrs_nodup hs.keys hx

theorem erase_offs (hs : Serves L ids h blocks) (hx : (i,n) ∈ ids) :
    (requests L.off ids).erase ⟨L.off i,n⟩ = requests L.off (Ids.drop i ids) :=
  requests_erase hs.offs_nodup hs.keys hx

theorem request {e : Eval Heap} (hs : Serves L ids e.pkg e.blocks) (hf : op.type ≠ .free)
    (hi : Ids.serve maxRequest op ids = some ids') :
    match L.answer op with
    | none => mmPackage.request op e = if op.type = .alloc then some (0,e.pkg) else none
    | some L' => ∃ p h', mmPackage.request op e = some (p,h') ∧ p ≠ 0 ∧
        h'.memStartBrk = e.pkg.memStartBrk ∧
        Serves L' ids' h' (Function.update e.blocks op.index p) := by
  have hsize := serve_pos hf hi
  have hn : toSizeT op.size = op.size.toNat :=
    toSizeT_eq (Int.le_of_lt hsize.1) (by have := hsize.2; rw [maxRequest] at this; omega)
  have h0 : 0 < op.size.toNat := by omega
  have hmax : op.size.toNat ≤ maxRequest := by omega
  have hkeys := Ids.serve_nodup hs.keys hi
  cases ht : op.type with
  | free => exact absurd ht hf
  | alloc =>
    simp only [Ids.serve,ht,Option.ite_none_right_eq_some,Option.some.injEq] at hi
    obtain ⟨⟨_,hi⟩,rfl⟩ := hi
    have hm := hs.follows.malloc h0 hmax
    simp only [Ledger.answer,Package.request,ht,hn,mmPackage]
    cases hA : L.plan.malloc maxHeap op.size.toNat with
    | none =>
      rw [hA] at hm
      exact hm
    | some pB =>
      obtain ⟨p,B⟩ := pB
      rw [hA] at hm
      obtain ⟨h',hm,hp,hst,hF⟩ := hm
      refine ⟨_,h',hm,hp,hst,⟨?_,hkeys⟩⟩
      rw [requests_cons hi,requests_cons hi]
      exact hF
  | realloc =>
    simp only [Ids.serve,ht,Option.ite_none_right_eq_some,Option.some.injEq] at hi
    obtain ⟨⟨_,hi⟩,rfl⟩ := hi
    obtain ⟨n,hx⟩ := Ids.inUse_iff.mp hi
    have hm := hs.follows.realloc (mem_requests hx) h0 hmax
    have hdrop := Ids.not_inUse_drop (i := op.index) hs.keys
    simp only [Ledger.answer,Package.request,ht,hn,mmPackage,hs.block hx]
    rw [hs.erase_blocks hx,hs.erase_offs hx] at hm
    cases hA : L.plan.realloc maxHeap (L.off op.index) op.size.toNat with
    | none =>
      rw [hA] at hm
      exact hm
    | some qB =>
      obtain ⟨q,B⟩ := qB
      rw [hA] at hm
      obtain ⟨h',hm,hq,hst,hF⟩ := hm
      refine ⟨_,h',hm,hq,hst,⟨?_,hkeys⟩⟩
      rw [requests_cons hdrop,requests_cons hdrop]
      exact hF

theorem free (hs : Serves L ids h blocks) (hf : op.type = .free)
    (hi : Ids.serve maxRequest op ids = some ids') : ∃ L', L.answer op = some L' ∧
    (mmFree (blocks op.index) h).memStartBrk = h.memStartBrk ∧
    Serves L' ids' (mmFree (blocks op.index) h) blocks := by
  have hkeys := Ids.serve_nodup hs.keys hi
  simp only [Ids.serve,hf,Option.ite_none_right_eq_some,Option.some.injEq] at hi
  obtain ⟨hi,rfl⟩ := hi
  obtain ⟨n,hx⟩ := Ids.inUse_iff.mp hi
  obtain ⟨hst,hF⟩ := hs.follows.free (mem_requests hx)
  rw [hs.erase_blocks hx,hs.erase_offs hx] at hF
  simp only [← hs.block hx] at hst hF
  exact ⟨_,by rw [Ledger.answer,hf],hst,hF,hkeys⟩

theorem kept {e : Eval Heap} {p : Nat} {h' : Heap} (hs : Serves L ids e.pkg e.blocks)
    (hf : op.type ≠ .free) (hi : Ids.serve maxRequest op ids = some ids')
    (hr : mmPackage.request op e = some (p,h')) (hp : p ≠ 0) : e.pkg.memBrk ≤ h'.memBrk ∧
      (∀ x ∈ ids, x.1 ≠ op.index → Request.Kept ⟨e.blocks x.1,x.2⟩ e.pkg h') ∧
      (op.type = .realloc → ∀ n, (op.index,n) ∈ ids → ∀ j, j < n → j < op.size.toNat →
        h'.mem (p + j) = e.pkg.mem (e.blocks op.index + j)) := by
  have hsize := serve_pos hf hi
  have hlt := hsize.2
  have hmax : maxRequest = 2 ^ 31 - 16 := rfl
  have hn : toSizeT op.size = op.size.toNat := toSizeT_eq (Int.le_of_lt hsize.1) (by omega)
  have h0 : 0 < op.size.toNat := by omega
  have hle : op.size.toNat ≤ 2 ^ 31 - 16 := by omega
  obtain ⟨size,hH⟩ := hs.follows.holds
  cases ht : op.type with
  | free => exact absurd ht hf
  | alloc =>
    simp only [Package.request,ht,hn,mmPackage] at hr
    obtain ⟨q,g,hm,⟨rfl,_⟩ | ⟨s,_,_,ho⟩⟩ := mmMalloc_spec hH.lent h0 (by omega)
    · obtain ⟨rfl,rfl⟩ := Prod.mk.inj (Option.some.inj (hm.symm.trans hr))
      exact absurd rfl hp
    · obtain ⟨rfl,rfl⟩ := Prod.mk.inj (Option.some.inj (hm.symm.trans hr))
      have hfr := ho.frame.mono fun b hb _ => List.mem_cons_of_mem _ hb
      exact ⟨ho.memBrk,fun x hx _ => hfr.kept (mem_requests hx) (hH.room _ (mem_requests hx)).2,
        fun h => by simp at h⟩
  | realloc =>
    simp only [Ids.serve,ht,Option.ite_none_right_eq_some] at hi
    obtain ⟨n,hx⟩ := Ids.inUse_iff.mp hi.1.2
    have hmem := mem_requests (f := e.blocks) hx
    have hroom : 0 < n ∧ n + 8 ≤ size (e.blocks op.index) := hH.room _ hmem
    simp only [Package.request,ht,hn,mmPackage] at hr
    rcases mmRealloc_spec (hH.split hmem) (by simp) h0 hle with ⟨hm,_⟩ | ⟨q,g,s,hm,_,ho,hb⟩
    · rw [hm] at hr
      cases hr
    · obtain ⟨rfl,rfl⟩ := Prod.mk.inj (Option.some.inj (hm.symm.trans hr))
      have hfr := ho.frame.mono fun b hb _ => List.mem_cons_of_mem _ hb
      rw [requests_erase hs.ptrs_nodup hs.keys hx] at hfr
      refine ⟨ho.memBrk,fun x hx hne => ?_,fun _ k hk j hj hj' => hb j ?_ hj'⟩
      · have hd : x ∈ Ids.drop op.index ids := (List.mem_eraseP_of_neg (by simpa using hne)).mpr hx
        exact hfr.kept (mem_requests hd) (hH.room _ (mem_requests hx)).2
      · obtain rfl := congrArg Prod.snd (List.inj_on_of_nodup_map hs.keys hk hx rfl)
        simp only at hroom ⊢
        omega

theorem kept_free (hs : Serves L ids h blocks) (hf : op.type = .free)
    (hi : Ids.serve maxRequest op ids = some ids') : h.memBrk ≤ (mmFree (blocks op.index) h).memBrk ∧
      ∀ x ∈ ids', Request.Kept ⟨blocks x.1,x.2⟩ h (mmFree (blocks op.index) h) := by
  simp only [Ids.serve,hf,Option.ite_none_right_eq_some,Option.some.injEq] at hi
  obtain ⟨hi,rfl⟩ := hi
  obtain ⟨n,hx⟩ := Ids.inUse_iff.mp hi
  obtain ⟨size,hH⟩ := hs.follows.holds
  obtain ⟨ho,_⟩ := hH.free (mem_requests (f := blocks) hx)
  have hfr := ho.frame.mono fun b hb _ => List.mem_cons_of_mem _ hb
  rw [requests_erase hs.ptrs_nodup hs.keys hx] at hfr
  exact ⟨ho.memBrk,fun x hx => hfr.kept (mem_requests hx)
    (hH.room _ (mem_requests (Ids.mem_of_mem_drop hx))).2⟩

theorem fill {p v : Nat} {b : Byte} (hs : Serves L ids h blocks) (hx : (i,n) ∈ ids) (hp : blocks i = p)
    (hv : v ≤ n) : Serves L ids (mmPackage.memset p b v h) blocks := by
  obtain ⟨size,hl,hroom⟩ := hs.follows.sizes
  have hmem := mem_requests (f := blocks) hx
  have hr := (hroom _ hmem).2
  subst hp
  refine ⟨⟨hs.follows.arena.of_writes ⟨rfl,rfl,rfl⟩ rfl rfl fun x hx => ?_,hs.follows.live,size,hl,
    hroom⟩,hs.keys⟩
  have hin : blocks i ≤ x ∧ x < blocks i + v := by
    by_contra hne
    exact hx (if_neg hne)
  refine ⟨⟨blocks i,size (blocks i),true⟩,hl.mem_iff.mpr (List.mem_cons_of_mem _
    (mem_held.mpr ⟨_,hmem,rfl⟩)),?_⟩
  simp only [Blk.InPayload] at hr ⊢
  omega

theorem start (h : Heap) (f g : Nat → Nat) : (mmInit h.memResetBrk).1 = 0 ∧
    (mmInit h.memResetBrk).2.memStartBrk = h.memStartBrk ∧
    Serves ⟨Plan.fresh,f⟩ [] (mmInit h.memResetBrk).2 g := by
  obtain ⟨c,hc,hst,hf⟩ := start_follows h
  simp only [Client.start,Option.ite_none_right_eq_some,Option.some.injEq] at hc
  obtain ⟨h0,rfl⟩ := hc
  exact ⟨h0,hst,hf,List.nodup_nil⟩

end Serves

section Speed

variable {σ : Type} {P : Package σ} {i : Nat} {op : TraceOp} {e e' : Eval σ} {u : Usage σ}

theorem speedOp_eq (hf : op.type ≠ .free) : ∃ msg, speedOp P i op e =
    match P.request op e with
    | none => .error .crash
    | some (p,s) =>
      if p = 0 then .error (.appError msg)
      else .ok { e with pkg := s, blocks := Function.update e.blocks op.index p } := by
  cases ht : op.type with
  | free => exact absurd ht hf
  | alloc =>
    simp only [speedOp,Package.request,ht]
    exact ⟨_,rfl⟩
  | realloc =>
    simp only [speedOp,Package.request,ht]
    exact ⟨_,rfl⟩

def growth (op : TraceOp) (e : Eval σ) : Int :=
  if op.type = .realloc then intSub op.size (toInt (e.blockSizes op.index)) else op.size

theorem utilOp_eq (hf : op.type ≠ .free) : ∃ msg, utilOp P i op u =
    match P.request op u.eval with
    | none => .error .crash
    | some (p,s) =>
      if p = 0 then .error (.appError msg)
      else
        .ok (u.grow (growth op u.eval) ({ u.eval with pkg := s }.remember op.index p op.size)) := by
  cases ht : op.type with
  | free => exact absurd ht hf
  | alloc =>
    simp only [utilOp,utilAlloc,growth,Package.request,ht,reduceCtorEq,if_false]
    exact ⟨_,rfl⟩
  | realloc =>
    simp only [utilOp,utilRealloc,growth,Package.request,ht,if_true]
    exact ⟨_,rfl⟩

end Speed

end Malloc
