import IcsLabs.Malloc.Judge
import Mathlib.Algebra.Order.BigOperators.Group.List

namespace Malloc
open Bytes
open Libc (toInt toInt_eq toSizeT toSizeT_eq intAdd intSub toInt_bmod)

def Ids.total (ids : Ids) : Nat := (ids.map Prod.snd).sum

def Ledger.fresh : Ledger := ⟨Plan.fresh,fun _ => 0⟩

section Speed

variable {start i : Nat} {L : Ledger} {ids ids' : Ids} {e e' : Eval Heap} {op : TraceOp}
  {ops : List TraceOp}

structure Timed (start : Nat) (L : Ledger) (ids : Ids) (e : Eval Heap) : Prop where
  serves : Serves L ids e.pkg e.blocks
  base : e.pkg.memStartBrk = start

theorem speed_answers (ht : Timed start L ids e) (hi : Ids.serve maxRequest op ids = some ids') :
    Trials.Mirrors (fun _ _ => True) (Timed start · ids' ·) (L.serve i op)
      (speedOp mmPackage i op e) := by
  rw [Ledger.serve]
  by_cases hf : op.type = .free
  · obtain ⟨L',hL,hst,hs⟩ := ht.serves.free hf hi
    rw [hL]
    refine ⟨{ e with pkg := mmFree (e.blocks op.index) e.pkg },?_,hs,hst.trans ht.base⟩
    simp only [speedOp,hf,mmPackage]
  · obtain ⟨msg,heq⟩ := speedOp_eq (P := mmPackage) (i := i) (e := e) hf
    have hr := ht.serves.request hf hi
    rw [heq]
    cases hL : L.answer op with
    | none =>
      rw [hL] at hr
      rw [hr]
      by_cases ha : op.type = .alloc
      · exact ⟨.appError msg,by rw [if_pos ha]; rfl,trivial⟩
      · exact ⟨.crash,by rw [if_neg ha],trivial⟩
    | some L' =>
      rw [hL] at hr
      obtain ⟨p,h',hr,hp,hst,hs⟩ := hr
      rw [hr]
      exact ⟨_,if_neg hp,hs,hst.trans ht.base⟩

theorem speed_run (hw : Runs.run (Ids.serve maxRequest) ops [] = some ids) (e : Eval Heap) :
    Trials.Mirrors (fun _ _ => True) (Timed e.pkg.memStartBrk · ids ·)
      (Trials.run Ledger.serve 0 ops .fresh) (evalMmSpeed mmPackage ops e) := by
  obtain ⟨h0,hst,hs⟩ := Serves.start e.pkg (fun _ => 0) e.blocks
  have hrun : evalMmSpeed mmPackage ops e = Trials.run (speedOp mmPackage) 0 ops
      { e with pkg := (mmInit e.pkg.memResetBrk).2 } := if_neg (by simp [mmPackage,h0])
  have hR : Timed e.pkg.memStartBrk .fresh [] { e with pkg := (mmInit e.pkg.memResetBrk).2 } :=
    ⟨hs,hst⟩
  rw [hrun]
  exact Trials.run_mirrors (fun i _ _ _ _ _ ht hi => speed_answers (i := i) ht hi) hR hw

end Speed

section Total

variable {h : Heap} {live : List Request} {size : Nat → Nat} {limit i n : Nat} {ids ids' : Ids}
  {op : TraceOp} {L : Ledger} {blocks : Nat → Nat}

theorem Holds.total_le (hc : Holds h live size) : (live.map Request.size).sum ≤ h.memHeapsize := by
  obtain ⟨L,fl,ha,hp⟩ := hc.lent
  have h1 := Tiling.tiles_sum ha.layout.tiles
  have h2 : ((allocs L).map Blk.size).sum ≤ (L.map Blk.size).sum :=
    (List.filter_sublist.map _).sum_le_sum fun _ _ => Nat.zero_le _
  have h3 := (hp.map Blk.size).sum_eq
  have h4 : (live.map Request.size).sum ≤ ((held size live).map Blk.size).sum := by
    rw [held,List.map_map]
    exact List.sum_le_sum fun r hr => by
      have := (hc.room r hr).2
      simp only [Function.comp]
      omega
  have h5 := ha.layout.listp
  rw [List.map_cons,List.sum_cons] at h3
  rw [Heap.memHeapsize]
  omega

theorem Serves.total_le (hs : Serves L ids h blocks) : ids.total ≤ h.memHeapsize := by
  obtain ⟨size,hH⟩ := hs.follows.holds
  have ht := hH.total_le
  simp only [requests,List.map_map] at ht
  exact ht

theorem heapsize_le (h : Heap) (hb : h.memBrk ≤ h.memMaxAddr) : h.memHeapsize ≤ maxHeap := by
  have := h.storage.max
  rw [Heap.memHeapsize]
  rw [Heap.memMaxAddr] at hb
  rw [Heap.memStartBrk]
  omega

theorem Ids.total_drop (hk : (ids.map Prod.fst).Nodup) (hx : (i,n) ∈ ids) :
    (Ids.drop i ids).total + n = ids.total := by
  induction ids with
  | nil => simp at hx
  | cons y ids ih =>
    obtain ⟨hy,hk⟩ := List.nodup_cons.mp hk
    rcases List.mem_cons.mp hx with rfl | hx
    · rw [Ids.drop,List.eraseP_cons_of_pos (by simp),Ids.total,Ids.total,List.map_cons,List.sum_cons,
        Nat.add_comm]
    · have hne : y.1 ≠ i := by
        rintro rfl
        exact hy (List.mem_map.mpr ⟨_,hx,rfl⟩)
      have := ih hk hx
      rw [Ids.drop,List.eraseP_cons_of_neg (by simpa using hne),← Ids.drop]
      simp only [Ids.total,List.map_cons,List.sum_cons] at this ⊢
      omega

end Total

section Util

variable {start i : Nat} {L L' : Ledger} {b b' : Ids × Nat} {ids ids' : Ids} {u : Usage Heap}
  {op : TraceOp} {ops pre : List TraceOp} {m : Nat}

-- the ids in use with the most that they have held at a time
def tally (op : TraceOp) (b : Ids × Nat) : Option (Ids × Nat) :=
  (Ids.serve maxRequest op b.1).map fun ids => (ids,max b.2 ids.total)

structure Tallied (start : Nat) (L : Ledger) (b : Ids × Nat) (u : Usage Heap) : Prop where
  serves : Serves L b.1 u.eval.pkg u.eval.blocks
  base : u.eval.pkg.memStartBrk = start
  sizes : ∀ x ∈ b.1, 0 < x.2 ∧ x.2 ≤ maxRequest ∧ u.eval.blockSizes x.1 = x.2
  total : u.totalSize = b.1.total
  most : u.maxTotalSize = b.2
  peak : b.1.total ≤ b.2 ∧ b.2 ≤ u.eval.pkg.memHeapsize
  fits : u.eval.pkg.memBrk ≤ u.eval.pkg.memMaxAddr

theorem intAdd_eq {a b : Int} {n : Nat} (h : a + b = n) (hn : n ≤ maxHeap) : intAdd a b = n := by
  have : maxHeap = 20 * 2 ^ 20 := rfl
  rw [intAdd,toInt_bmod,h,Int.bmod_eq_of_le (by omega) (by omega)]

theorem intSub_eq {a b : Nat} (ha : a < 2 ^ 31) (hb : b < 2 ^ 31) : intSub a b = (a : Int) - b := by
  rw [intSub,toInt_bmod,Int.bmod_eq_of_le (by omega) (by omega)]

theorem Follows.brk_le {c : Client} {A : Plan} {live : List Request} (hf : Follows c A live) :
    c.heap.memBrk ≤ c.heap.memMaxAddr := hf.arena.layout.brk_le

theorem Ids.serve_total (hk : (ids.map Prod.fst).Nodup) (hf : op.type ≠ .free)
    (hs : Ids.serve maxRequest op ids = some ids') : ∃ rest : Ids,
      ids' = (op.index,op.size.toNat) :: rest ∧ (∀ x ∈ rest, x ∈ ids ∧ x.1 ≠ op.index) ∧
      (op.type = .alloc ∧ rest.total = ids.total ∨
        op.type = .realloc ∧ ∃ n, (op.index,n) ∈ ids ∧ rest.total + n = ids.total) := by
  unfold Ids.serve at hs
  split at hs
  case h_1 h =>
    obtain ⟨⟨_,hi⟩,rfl⟩ := by simpa only [Option.ite_none_right_eq_some,Option.some.injEq] using hs
    exact ⟨ids,rfl,fun x hx => ⟨hx,Ids.ne_of_not_inUse hi hx⟩,.inl ⟨h,rfl⟩⟩
  case h_2 h =>
    obtain ⟨⟨_,hi⟩,rfl⟩ := by simpa only [Option.ite_none_right_eq_some,Option.some.injEq] using hs
    obtain ⟨n,hx⟩ := Ids.inUse_iff.mp hi
    exact ⟨_,rfl,fun x hx => ⟨Ids.mem_of_mem_drop hx,Ids.ne_of_mem_drop hk hx⟩,
      .inr ⟨h,n,hx,Ids.total_drop hk hx⟩⟩
  case h_3 h => exact absurd h hf

theorem Tallied.growth {rest : Ids} (ht : Tallied start L b u) (h0 : 0 < op.size ∧ op.size ≤ maxRequest)
    (hr : op.type = .alloc ∧ rest.total = b.1.total ∨
      op.type = .realloc ∧ ∃ n, (op.index,n) ∈ b.1 ∧ rest.total + n = b.1.total) :
    u.totalSize + Malloc.growth op u.eval = (Ids.total ((op.index,op.size.toNat) :: rest) : Nat) := by
  have hmax : maxRequest = 2 ^ 31 - 16 := rfl
  have hcons : Ids.total ((op.index,op.size.toNat) :: rest) = op.size.toNat + rest.total := rfl
  rw [ht.total,hcons,Malloc.growth]
  rcases hr with ⟨ha,hr⟩ | ⟨ha,n,hx,hr⟩
  · rw [if_neg (by simp [ha])]
    omega
  · obtain ⟨h1,h2,h3⟩ := ht.sizes _ hx
    simp only at h1 h2 h3
    rw [if_pos ha,h3,toInt_eq (by omega)]
    have hs := intSub_eq (a := op.size.toNat) (b := n) (by omega) (by omega)
    rw [show ((op.size.toNat : Nat) : Int) = op.size by omega] at hs
    omega

theorem util_mirrors (ht : Tallied start L b u) (hb : tally op b = some b') :
    Trials.Mirrors (fun _ _ => True) (Tallied start · b' ·) (L.serve i op)
      (utilOp mmPackage i op u) := by
  rw [Ledger.serve]
  obtain ⟨ids',hi,rfl⟩ := Option.map_eq_some_iff.mp hb
  by_cases hf : op.type = .free
  · obtain ⟨L',hL,hst,hs⟩ := ht.serves.free hf hi
    obtain ⟨hbrk,_⟩ := ht.serves.kept_free hf hi
    rw [hL]
    refine ⟨⟨{ u.eval with pkg := mmFree (u.eval.blocks op.index) u.eval.pkg },
      intSub u.totalSize (toInt (u.eval.blockSizes op.index)),u.maxTotalSize⟩,?_,hs,
      hst.trans ht.base,?_,?_,?_,?_,hs.follows.brk_le⟩
    · simp only [utilOp,utilFree,hf,mmPackage]
    all_goals
      simp only [Ids.serve,hf,Option.ite_none_right_eq_some,Option.some.injEq] at hi
      obtain ⟨hi,rfl⟩ := hi
      obtain ⟨n,hx⟩ := Ids.inUse_iff.mp hi
      have hdrop := Ids.total_drop ht.serves.keys hx
      have hpeak := ht.peak
    · exact fun x hx => ht.sizes x (Ids.mem_of_mem_drop hx)
    · obtain ⟨_,h2,h3⟩ := ht.sizes _ hx
      have hfit := ht.serves.total_le.trans (heapsize_le _ ht.fits)
      have h20 : maxHeap = 20 * 2 ^ 20 := rfl
      have hmax : maxRequest = 2 ^ 31 - 16 := rfl
      simp only at h2 h3
      rw [h3,toInt_eq (by omega),ht.total,intSub_eq (by omega) (by omega)]
      dsimp only
      omega
    · exact ht.most.trans (congrArg Nat.cast (max_eq_left (by omega)).symm)
    · rw [max_eq_left (by omega)]
      refine ⟨by dsimp only; omega,hpeak.2.trans ?_⟩
      rw [Heap.memHeapsize,Heap.memHeapsize,hst]
      dsimp only
      omega
  · obtain ⟨msg,heq⟩ := utilOp_eq (P := mmPackage) (i := i) (u := u) hf
    have hr := ht.serves.request hf hi
    rw [heq]
    cases hL : L.answer op with
    | none =>
      rw [hL] at hr
      rw [hr]
      by_cases ha : op.type = .alloc
      · exact ⟨.appError msg,by rw [if_pos ha]; rfl,trivial⟩
      · exact ⟨.crash,by rw [if_neg ha],trivial⟩
    | some L' =>
      rw [hL] at hr
      obtain ⟨p,h',hr,hp,hst,hs⟩ := hr
      obtain ⟨hbrk,_,_⟩ := ht.serves.kept hf hi hr hp
      have h0 := serve_pos hf hi
      obtain ⟨rest,rfl,hrest,htot⟩ := Ids.serve_total ht.serves.keys hf hi
      have hfit := hs.total_le.trans (heapsize_le h' hs.follows.brk_le)
      have htotal := intAdd_eq (ht.growth h0 htot) hfit
      have hheap : u.eval.pkg.memHeapsize ≤ h'.memHeapsize := by
        rw [Heap.memHeapsize,Heap.memHeapsize,hst]
        omega
      rw [hr]
      refine ⟨_,if_neg hp,hs,hst.trans ht.base,?_,htotal,?_,?_,hs.follows.brk_le⟩
      · refine List.forall_mem_cons.mpr ⟨⟨by simp only; omega,by simp only; omega,?_⟩,fun x hx => ?_⟩
        · have hmax : maxRequest = 2 ^ 31 - 16 := rfl
          exact (Function.update_self ..).trans (toSizeT_eq (Int.le_of_lt h0.1) (by omega))
        · obtain ⟨hx,hne⟩ := hrest x hx
          obtain ⟨h1,h2,h3⟩ := ht.sizes x hx
          exact ⟨h1,h2,(Function.update_of_ne hne ..).trans h3⟩
      · change (if _ > u.maxTotalSize then _ else u.maxTotalSize) = _
        rw [htotal,ht.most]
        split <;> omega
      · exact ⟨le_max_right _ _,max_le (ht.peak.2.trans hheap) hs.total_le⟩

end Util

section Valid

variable {start i : Nat} {L L' : Ledger} {ids ids' : Ids} {e e' : Eval Heap} {op : TraceOp}
  {ops : List TraceOp} {p : Nat} {h' : Heap} {x : Nat × Nat}

-- every block still holds what the driver wrote to it
def Filled (ids : Ids) (h : Heap) (blocks : Nat → Nat) : Prop :=
  ∀ x ∈ ids, ∀ j, j < x.2 → h.mem (blocks x.1 + j) = BitVec.ofNat 8 (lowByte x.1)

structure Passing (start : Nat) (L : Ledger) (ids : Ids) (e : Eval Heap) : Prop where
  serves : Serves L ids e.pkg e.blocks
  base : e.pkg.memStartBrk = start
  tracked : Tracked maxRequest ids e
  filled : Filled ids e.pkg e.blocks

def HighId (op : TraceOp) : Prop := op.type = .realloc ∧ 128 ≤ lowByte op.index

instance : DecidablePred HighId := fun op =>
  inferInstanceAs (Decidable (op.type = .realloc ∧ 128 ≤ lowByte op.index))

theorem lowByte_lt (index : Nat) : lowByte index < 256 := by
  rw [lowByte_eq]
  omega

theorem signed_lowByte (index : Nat) :
    (BitVec.ofNat 8 (lowByte index)).toInt = lowByte index ↔ lowByte index < 128 := by
  have := lowByte_lt index
  refine ⟨fun h => (signed_byte h).1,fun h => ?_⟩
  rw [BitVec.toInt_ofNat',Int.bmod_eq_of_le (by omega) (by omega)]

theorem Passing.addRange (hp : Passing start L ids e) (hf : op.type ≠ .free)
    (hi : Ids.serve maxRequest op ids = some ids')
    (hs : Serves L' ids' h' (Function.update e.blocks op.index p)) :
    addRange mmPackage i p op.size { e with pkg := h', ranges := others op e } =
      .ok { e with pkg := h', ranges := ⟨p,p + op.size.toNat - 1⟩ :: others op e } := by
  obtain ⟨rest,⟨h0,_⟩,rfl,hrest,_,hsub,hoth,_⟩ := hp.tracked.others hf hi
  obtain ⟨size,hH⟩ := hs.follows.holds
  have hreq := requests_cons (f := e.blocks) (n := op.size.toNat) (p := p) hrest
  simp only [hreq] at hH
  obtain ⟨h1,h2,h3⟩ := hH.inHeap (List.mem_cons_self)
  have hap := (List.pairwise_cons.mp hH.apart).1
  simp only at h1 h2 h3
  refine addRange_of h0 h1 h2 ?_ fun r hr => ?_
  · change _ ≤ h'.memBrk - 1
    omega
  · rw [hoth] at hr
    obtain ⟨x,hx,rfl⟩ := List.mem_map.mp hr
    have ha := hap _ (mem_requests hx)
    have hx0 := (hp.tracked.sizes x (hsub x hx)).1
    refine (Range.not_hit (by omega) (by simp only [extent]; omega)).mpr ?_
    simp only [Range.Passes,extent] at ha ⊢
    omega

theorem Passing.preserved (hp : Passing start L ids e) (hf : op.type = .realloc)
    (hi : Ids.serve maxRequest op ids = some ids') (hr : mmPackage.request op e = some (p,h'))
    (h0 : p ≠ 0) (e1 : Eval Heap) (h1 : e1.pkg = h') :
    e1.preserved mmPackage p op.index (keptSize op e) = true ↔ lowByte op.index < 128 := by
  obtain ⟨hsize,hpos⟩ := hp.tracked.keptSize_eq (by decide) hf hi
  obtain ⟨_,_,hcopy⟩ := hp.serves.kept (by simp [hf]) hi hr h0
  have hin : Ids.InUse op.index ids := by
    simp only [Ids.serve,hf,Option.ite_none_right_eq_some] at hi
    exact hi.1.2
  obtain ⟨n,hx⟩ := Ids.inUse_iff.mp hin
  have hn := (hp.tracked.sizes _ hx).2.2
  simp only at hn
  have hbyte (j : Nat) (hj : j < (keptSize op e).toNat) :
      mmPackage.byte e1.pkg (p + j) = BitVec.ofNat 8 (lowByte op.index) := by
    change e1.pkg.mem (p + j) = _
    rw [h1,hcopy hf n hx j (by omega) (by omega)]
    exact hp.filled _ hx j (by simp only; omega)
  rw [preserved_iff,hsize]
  refine ⟨fun h => ?_,fun h j hj => ?_⟩
  · have := h 0 hpos
    rwa [hbyte 0 (by omega),signed_lowByte] at this
  · rw [hbyte j (by omega),signed_lowByte]
    exact h

theorem mem_memset {q n x : Nat} {b : Byte} {h : Heap} : (mmPackage.memset q b n h).mem x =
    if q ≤ x ∧ x < q + n then b else h.mem x := rfl

theorem Passing.granted {s : Heap} (hp : Passing start L ids e) (hf : op.type ≠ .free)
    (hi : Ids.serve maxRequest op ids = some ids') (hs : Serves L' ids' s
      (Function.update e.blocks op.index p)) (hst : s.memStartBrk = start)
    (hg : Granted mmPackage op e e' p s) : Passing start L' ids' e' := by
  obtain ⟨_,hkept,_⟩ := hp.serves.kept hf hi hg.request hg.ne_zero
  have ht := hp.tracked.granted (by decide) hf hi hg
  obtain ⟨rest,⟨h0,hmax⟩,rfl,hrest,_,hsub,_⟩ := hp.tracked.others hf hi
  have hsize : toSizeT op.size = op.size.toNat := toSizeT_eq (Int.le_of_lt h0) (by
    have : maxRequest = 2 ^ 31 - 16 := rfl
    omega)
  have hfill := hs.fill (b := BitVec.ofNat 8 (lowByte op.index)) List.mem_cons_self
    (Function.update_self ..) (Nat.le_refl op.size.toNat)
  obtain ⟨size,hH⟩ := hs.follows.holds
  have hreq := requests_cons (f := e.blocks) (n := op.size.toNat) (p := p) hrest
  simp only [hreq] at hH
  have hap := (List.pairwise_cons.mp hH.apart).1
  refine ⟨?_,?_,ht,?_⟩
  · rw [hg.pkg,hg.blocks,hsize]
    exact hfill
  · rw [hg.pkg]
    exact hst
  · rw [Filled,hg.pkg,hg.blocks,hsize]
    refine List.forall_mem_cons.mpr ⟨fun j hj => ?_,fun x hx j hj => ?_⟩
    · rw [mem_memset,Function.update_self,if_pos ⟨Nat.le_add_right _ _,by simp only at hj; omega⟩]
    · have hne := Ids.ne_of_not_inUse hrest hx
      have ha := hap _ (mem_requests hx)
      have hk := hkept x (hsub x hx) hne j hj
      simp only at ha hk
      rw [mem_memset,Function.update_of_ne hne,if_neg (by omega),hk]
      exact hp.filled x (hsub x hx) j hj

theorem Passing.freed (hp : Passing start L ids e) (hf : op.type = .free)
    (hi : Ids.serve maxRequest op ids = some ids') : ∃ L' e', L.answer op = some L' ∧
      validOp mmPackage i op e = .ok e' ∧ Passing start L' ids' e' := by
  obtain ⟨L',hL,hst,hs⟩ := hp.serves.free hf hi
  obtain ⟨_,hkept⟩ := hp.serves.kept_free hf hi
  have ht := hp.tracked.freed (s := mmFree (e.blocks op.index) e.pkg) hf hi
  refine ⟨L',_,hL,by simp only [validOp,validFree,hf,mmPackage],hs,hst.trans hp.base,ht,
    fun x hx j hj => (hkept x hx j hj).trans (hp.filled x ?_ j hj)⟩
  simp only [Ids.serve,hf,Option.ite_none_right_eq_some,Option.some.injEq] at hi
  obtain ⟨_,rfl⟩ := hi
  exact Ids.mem_of_mem_drop hx

-- the verdict on a request, read off the ledger alone
def Ledger.judge (i : Nat) (op : TraceOp) (L : Ledger) : Except Stop Ledger :=
  (L.serve i op).bind fun L => if HighId op then .error (.error i .notPreserved) else .ok L

theorem valid_mirrors (hp : Passing start L ids e)
    (hi : Ids.serve maxRequest op ids = some ids') :
    Trials.Mirrors (fun st x => st = x.1) (Passing start · ids' ·) (L.judge i op)
      (validOp mmPackage i op e) := by
  rw [Ledger.judge,Ledger.serve]
  by_cases hf : op.type = .free
  · obtain ⟨L',e',hL,hv,hp⟩ := hp.freed (i := i) hf hi
    have hh : ¬ HighId op := by simp [HighId,hf]
    rw [hL]
    dsimp only [Except.bind]
    rw [if_neg hh]
    exact ⟨e',hv,hp⟩
  have hr := hp.serves.request hf hi
  have hv := validOp_eq (P := mmPackage) (i := i) (e := e) hf
  cases hL : L.answer op with
  | none =>
    rw [hL] at hr
    dsimp only at hr ⊢
    rw [hr] at hv
    rw [hv]
    by_cases ht : op.type = .alloc
    · simp only [if_pos ht]
      exact ⟨_,if_pos trivial,congrArg (Stop.error i) (if_pos ht).symm⟩
    · simp only [if_neg ht]
      exact ⟨_,rfl,rfl⟩
  | some L' =>
    rw [hL] at hr
    obtain ⟨p,h',hr,h0,hst,hs⟩ := hr
    rw [hr] at hv
    dsimp only at hv
    rw [if_neg h0,hp.addRange hf hi hs] at hv
    dsimp only [Except.bind] at hv ⊢
    by_cases hh : HighId op
    · rw [if_pos hh]
      have hpres := hp.preserved hh.1 hi hr h0
        { e with pkg := h', ranges := ⟨p,p + op.size.toNat - 1⟩ :: others op e } rfl
      refine ⟨_,hv.trans (if_pos ⟨hh.1,?_⟩),rfl⟩
      rw [← Bool.not_eq_true]
      exact fun h => absurd (hpres.mp h) (by have := hh.2; omega)
    · rw [if_neg] at hv
      · obtain ⟨q,s,hg⟩ := validOp_ok hf hv
        obtain ⟨rfl,rfl⟩ := Prod.mk.inj (Option.some.inj (hg.request.symm.trans hr))
        rw [if_neg hh]
        exact ⟨_,hv,hp.granted hf hi hs (hst.trans hp.base) hg⟩
      · rintro ⟨ht,hfalse⟩
        have hpres := (hp.preserved ht hi hr h0
          { e with pkg := h', ranges := ⟨p,p + op.size.toNat - 1⟩ :: others op e } rfl).mpr
            (by rw [HighId,not_and] at hh; have := hh ht; omega)
        exact absurd (hfalse.symm.trans hpres) Bool.false_ne_true

end Valid

end Malloc
