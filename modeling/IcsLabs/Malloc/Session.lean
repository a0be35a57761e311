import IcsLabs.Malloc.Verdict

namespace Malloc
open Bytes
open Libc (toSizeT toSizeT_eq)

-- ids are asked for while not in use and resized and let go of while in use; sizes are in range
def WellFormed (ops : List TraceOp) : Prop :=
  ∃ ids, Runs.run (Ids.serve maxRequest) ops [] = some ids

section Runs

variable {ops pre post : List TraceOp} {ids : Ids} {e e' : Eval Heap} {L : Ledger}

theorem serve_prefix (hw : WellFormed (pre ++ post)) : ∃ ids,
    Runs.run (Ids.serve maxRequest) pre [] = some ids ∧
      ∃ ids', Runs.run (Ids.serve maxRequest) post ids = some ids' := by
  obtain ⟨ids',hw⟩ := hw
  rw [Runs.run_append] at hw
  obtain ⟨ids,h1,h2⟩ := Option.bind_eq_some_iff.mp hw
  exact ⟨ids,h1,ids',h2⟩

theorem valid_run (hw : Runs.run (Ids.serve maxRequest) ops [] = some ids) (e : Eval Heap) :
    Trials.Mirrors (fun st x => st = x.1) (Passing e.pkg.memStartBrk · ids ·)
      (Trials.run Ledger.judge 0 ops .fresh) (evalMmValid mmPackage ops e) := by
  obtain ⟨h0,hst,hs⟩ := Serves.start e.pkg (fun _ => 0) e.blocks
  have hrun : evalMmValid mmPackage ops e =
      Trials.run (validOp mmPackage) 0 ops (e.opened mmPackage) :=
    (evalMmValid_eq ..).trans (if_neg (by simp [mmPackage,h0]))
  have hp : Passing e.pkg.memStartBrk .fresh [] (e.opened mmPackage) :=
    ⟨hs,hst,.initial rfl,fun x hx => absurd hx List.not_mem_nil⟩
  rw [hrun]
  exact Trials.run_mirrors (fun i _ _ _ _ _ hp hi => valid_mirrors (i := i) hp hi) hp hw

theorem util_run {m : Nat} (hw : Runs.run tally ops ([],0) = some (ids,m)) (e : Eval Heap) :
    Trials.Mirrors (fun _ _ => True) (Tallied e.pkg.memStartBrk · (ids,m) ·)
      (Trials.run Ledger.serve 0 ops .fresh) (evalMmUtil mmPackage ops e) := by
  obtain ⟨h0,hst,hs⟩ := Serves.start e.pkg (fun _ => 0) e.blocks
  have hrun : evalMmUtil mmPackage ops e = Trials.run (utilOp mmPackage) 0 ops
      ⟨{ e with pkg := (mmInit e.pkg.memResetBrk).2 },0,0⟩ := if_neg (by simp [mmPackage,h0])
  have ht : Tallied e.pkg.memStartBrk .fresh ([],0)
      ⟨{ e with pkg := (mmInit e.pkg.memResetBrk).2 },0,0⟩ :=
    ⟨hs,hst,fun x hx => absurd hx List.not_mem_nil,rfl,rfl,⟨Nat.le_refl _,Nat.zero_le _⟩,
      hs.follows.brk_le⟩
  rw [hrun]
  exact Trials.run_mirrors (fun i _ _ _ _ _ ht hb => util_mirrors (i := i) ht hb) ht hw

theorem judge_ok {i : Nat} {L L' : Ledger} : Trials.run Ledger.judge i ops L = .ok L' ↔
    Trials.run Ledger.serve i ops L = .ok L' ∧ ∀ op ∈ ops, ¬ HighId op := by
  induction ops generalizing i L with
  | nil => simp [Trials.run]
  | cons op ops ih =>
    rw [Trials.run_cons,Trials.run_cons,List.forall_mem_cons]
    constructor
    · rintro ⟨L1,h1,h2⟩
      obtain ⟨L2,h3,h4⟩ := Trials.bind_eq_ok.mp h1
      split at h4
      · cases h4
      · rename_i hh
        obtain rfl := Except.ok.inj h4
        exact ⟨⟨L2,h3,(ih.mp h2).1⟩,hh,(ih.mp h2).2⟩
    · rintro ⟨⟨L1,h1,h2⟩,hh,hs⟩
      exact ⟨L1,Trials.bind_eq_ok.mpr ⟨L1,h1,if_neg hh⟩,ih.mpr ⟨h2,hs⟩⟩

-- the bytes asked for and not let go of when the requests are served
def payload (ops : List TraceOp) : Nat :=
  Ids.total ((Runs.run (Ids.serve maxRequest) ops []).getD [])

def Peak (ops : List TraceOp) (m : Nat) : Prop :=
  (∀ pre, pre <+: ops → payload pre ≤ m) ∧ ∃ pre, pre <+: ops ∧ payload pre = m

theorem tally_peak (hw : Runs.run (Ids.serve maxRequest) ops [] = some ids) : ∃ m,
    Runs.run tally ops ([],0) = some (ids,m) ∧ Peak ops m := by
  induction ops using List.reverseRecOn generalizing ids with
  | nil =>
    obtain rfl := Option.some.inj hw
    exact ⟨0,rfl,fun pre hp => by rw [List.prefix_nil.mp hp]; rfl,[],List.prefix_rfl,rfl⟩
  | append_singleton ops op ih =>
    have hpay : payload (ops ++ [op]) = ids.total := by rw [payload,hw]; rfl
    rw [Runs.run_append] at hw
    obtain ⟨ids1,h1,h2⟩ := Option.bind_eq_some_iff.mp hw
    obtain ⟨ids2,hop,h3⟩ := Runs.run_cons.mp h2
    obtain rfl := Option.some.inj h3
    obtain ⟨m,hm,hle,pre,hpre,hmax⟩ := ih h1
    refine ⟨max m ids2.total,?_,fun pre hp => ?_,?_⟩
    · rw [Runs.run_append,hm]
      exact Runs.run_cons.mpr ⟨_,by rw [tally,hop]; rfl,rfl⟩
    · rcases List.prefix_concat_iff.mp hp with rfl | hp
      · exact hpay ▸ le_max_right _ _
      · exact (hle pre hp).trans (le_max_left _ _)
    · rcases le_total m ids2.total with h | h
      · exact ⟨_,List.prefix_rfl,by rw [hpay,max_eq_right h]⟩
      · exact ⟨pre,hpre.trans (List.prefix_append _ _),by rw [hmax,max_eq_left h]⟩

end Runs

section Driver

variable {ops pre post : List TraceOp} {op : TraceOp} {ids : Ids} {e e1 e2 e' : Eval Heap}

-- a trace with a moving mm_realloc and one with an id above 127
def sampleOps : List TraceOp :=
  [⟨.alloc,0,24⟩,⟨.alloc,1,100⟩,⟨.realloc,0,500⟩,⟨.free,1,0⟩,⟨.alloc,1,5000⟩]

def highOps : List TraceOp := [⟨.alloc,128,24⟩,⟨.realloc,128,100⟩]

def sampleEval : Eval Heap := ⟨sampleHeap,[],fun _ => 0,fun _ => 0⟩

theorem sampleOps_wellFormed : WellFormed sampleOps := Option.isSome_iff_exists.mp (by decide)

theorem highOps_wellFormed : WellFormed highOps := Option.isSome_iff_exists.mp (by decide)

theorem sampleOps_valid : ∃ e', evalMmValid mmPackage sampleOps sampleEval = .ok e' :=
  Trials.exists_ok (by decide +kernel)

theorem sampleOps_served : ∃ e', evalMmSpeed mmPackage sampleOps sampleEval = .ok e' :=
  Trials.exists_ok (by decide +kernel)

theorem valid_iff_served (hw : WellFormed ops) : (∃ e', evalMmValid mmPackage ops e = .ok e') ↔
    (∃ e', evalMmSpeed mmPackage ops e1 = .ok e') ∧
      ∀ op ∈ ops, op.type = .realloc → lowByte op.index < 128 := by
  obtain ⟨ids,hw⟩ := hw
  rw [(valid_run hw e).ok_iff,(speed_run hw e1).ok_iff]
  have hhigh : (∀ op ∈ ops, ¬ HighId op) ↔
      ∀ op ∈ ops, op.type = .realloc → lowByte op.index < 128 := by
    simp only [HighId,not_and,not_le]
  rw [← hhigh]
  constructor
  · rintro ⟨L,h⟩
    exact ⟨⟨L,(judge_ok.mp h).1⟩,(judge_ok.mp h).2⟩
  · rintro ⟨⟨L,h⟩,hh⟩
    exact ⟨L,judge_ok.mpr ⟨h,hh⟩⟩

theorem valid_iff_served_sample : ¬ ∃ e', evalMmValid mmPackage highOps sampleEval = .ok e' :=
  fun h => absurd (((@valid_iff_served _ _ sampleEval highOps_wellFormed).mp h).2
    ⟨.realloc,128,100⟩ (by simp [highOps]) rfl) (by decide)

theorem request_eq {ids' : Ids} (hi : Ids.serve maxRequest op ids = some ids') :
    (op.type = .alloc → mmPackage.request op e = mmMalloc op.size.toNat e.pkg) ∧
      (op.type = .realloc → mmPackage.request op e =
        mmRealloc (e.blocks op.index) op.size.toNat e.pkg) := by
  have hsize (hf : op.type ≠ .free) : toSizeT op.size = op.size.toNat := by
    obtain ⟨h0,hn⟩ := serve_pos hf hi
    have : maxRequest = 2 ^ 31 - 16 := rfl
    exact toSizeT_eq (by omega) (by omega)
  constructor
  · intro ht
    rw [← hsize (by simp [ht])]
    simp only [Package.request,ht,mmPackage]
  · intro ht
    rw [← hsize (by simp [ht])]
    simp only [Package.request,ht,mmPackage]

theorem faults_of_mm (hw : WellFormed ops) {st : Stop}
    (hv : evalMmValid mmPackage ops e = .error (st,e')) : ∃ pre op post e1,
    ops = pre ++ op :: post ∧ evalMmValid mmPackage pre e = .ok e1 ∧
      ((op.type = .alloc ∧ st = .error pre.length .mallocFailed ∧
          mmMalloc op.size.toNat e1.pkg = some (0,e1.pkg)) ∨
        (op.type = .realloc ∧ st = .crash ∧
          mmRealloc (e1.blocks op.index) op.size.toNat e1.pkg = none) ∨
        op.type = .realloc ∧ st = .error pre.length .notPreserved ∧ 128 ≤ lowByte op.index ∧
          ∃ p h', mmRealloc (e1.blocks op.index) op.size.toNat e1.pkg = some (p,h') ∧
            ∀ j, j < e1.blockSizes op.index → j < op.size.toNat →
              h'.mem (p + j) = e1.pkg.mem (e1.blocks op.index + j)) := by
  have hinit : evalMmValid mmPackage [] e = .ok (e.opened mmPackage) :=
    (evalMmValid_eq ..).trans (if_neg (by simp [mmPackage,(Serves.start e.pkg e.blocks e.blocks).1]))
  rw [run_of_valid hinit] at hv
  obtain ⟨pre,op,post,e1,rfl,hpre,hstep⟩ := Trials.run_stops hv
  rw [Nat.zero_add] at hstep
  rw [← run_of_valid hinit] at hpre
  obtain ⟨ids1,hw1,ids2,hw2⟩ := serve_prefix hw
  obtain ⟨ids',hi,_⟩ := Runs.run_cons.mp hw2
  obtain ⟨L,_,hp⟩ := (valid_run hw1 e).of_ok hpre
  refine ⟨pre,op,post,e1,rfl,hpre,?_⟩
  have hm := valid_mirrors (i := pre.length) hp hi
  obtain ⟨hma,hmr⟩ := request_eq (e := e1) hi
  have hf : op.type ≠ .free := by
    intro hf
    obtain ⟨_,_,_,hok,_⟩ := hp.freed (i := pre.length) hf hi
    cases hok.symm.trans hstep
  have hr := hp.serves.request hf hi
  rw [Ledger.judge,Ledger.serve] at hm
  cases hL : L.answer op with
  | none =>
    rw [hL] at hr hm
    obtain ⟨x,hx,hst⟩ := hm
    obtain rfl := Except.error.inj (hstep.symm.trans hx)
    dsimp only at hr hst
    cases ht : op.type with
    | free => exact absurd ht hf
    | alloc =>
      rw [if_pos ht] at hr hst
      exact .inl ⟨rfl,hst.symm,(hma ht).symm.trans hr⟩
    | realloc =>
      rw [if_neg (by simp [ht])] at hr hst
      exact .inr (.inl ⟨rfl,hst.symm,(hmr ht).symm.trans hr⟩)
  | some L' =>
    rw [hL] at hr hm
    obtain ⟨p,h',hr,hp0,_,_⟩ := hr
    by_cases hh : HighId op
    · dsimp only [Except.bind] at hm
      rw [if_pos hh] at hm
      obtain ⟨x,hx,hst⟩ := hm
      obtain rfl := Except.error.inj (hstep.symm.trans hx)
      have hin : Ids.InUse op.index ids1 := by
        simp only [Ids.serve,hh.1,Option.ite_none_right_eq_some] at hi
        exact hi.1.2
      obtain ⟨n,hn⟩ := Ids.inUse_iff.mp hin
      have hsize := (hp.tracked.sizes _ hn).2.2
      refine .inr (.inr ⟨hh.1,hst.symm,hh.2,p,h',(hmr hh.1).symm.trans hr,fun j hj hj' => ?_⟩)
      exact (hp.serves.kept hf hi hr hp0).2.2 hh.1 n hn j (by simp only at hsize; omega) hj'
    · dsimp only [Except.bind] at hm
      rw [if_neg hh] at hm
      obtain ⟨x,hx,_⟩ := hm
      cases hstep.symm.trans hx

theorem faults_of_mm_sample : ∃ st e' pre op post e1,
    evalMmValid mmPackage highOps sampleEval = .error (st,e') ∧ highOps = pre ++ op :: post ∧
      evalMmValid mmPackage pre sampleEval = .ok e1 := by
  obtain ⟨⟨st,e'⟩,hv⟩ : ∃ x, evalMmValid mmPackage highOps sampleEval = .error x :=
    Trials.exists_error (by decide +kernel)
  obtain ⟨pre,op,post,e1,h1,h2,_⟩ := faults_of_mm highOps_wellFormed hv
  exact ⟨st,e',pre,op,post,e1,hv,h1,h2⟩

theorem util_high_water (hw : WellFormed ops) (hs : evalMmSpeed mmPackage ops e1 = .ok e') : ∃ u m,
    evalMmUtil mmPackage ops e = .ok u ∧ u.maxTotalSize = (m : Nat) ∧ Peak ops m ∧
      m ≤ u.eval.pkg.memHeapsize ∧ u.eval.pkg.memHeapsize ≤ maxHeap := by
  obtain ⟨ids,hw⟩ := hw
  obtain ⟨m,ht,hpeak⟩ := tally_peak hw
  obtain ⟨L,hL,_⟩ := (speed_run hw e1).of_ok hs
  obtain ⟨u,hu⟩ := (util_run ht e).ok_iff.mpr ⟨L,hL⟩
  obtain ⟨_,_,hT⟩ := (util_run ht e).of_ok hu
  exact ⟨u,m,hu,hT.most,hpeak,hT.peak.2,heapsize_le _ hT.fits⟩

theorem util_high_water_sample : ∃ u m, evalMmUtil mmPackage sampleOps sampleEval = .ok u ∧
    u.maxTotalSize = (m : Nat) ∧ Peak sampleOps m := by
  obtain ⟨e',hs⟩ := sampleOps_served
  obtain ⟨u,m,hu,hm,hp,_⟩ := util_high_water (e := sampleEval) sampleOps_wellFormed hs
  exact ⟨u,m,hu,hm,hp⟩

theorem runs_agree (hw : Runs.run (Ids.serve maxRequest) ops [] = some ids)
    (hv : evalMmValid mmPackage ops e = .ok e') : ∃ u s,
      evalMmUtil mmPackage ops e1 = .ok u ∧ evalMmSpeed mmPackage ops e2 = .ok s ∧
      e'.pkg.memHeapsize = u.eval.pkg.memHeapsize ∧ e'.pkg.memHeapsize = s.pkg.memHeapsize ∧
      ∀ x ∈ ids, ∃ o, e'.blocks x.1 = e.pkg.memStartBrk + o ∧
        u.eval.blocks x.1 = e1.pkg.memStartBrk + o ∧ s.blocks x.1 = e2.pkg.memStartBrk + o := by
  obtain ⟨m,ht,_⟩ := tally_peak hw
  obtain ⟨L,hj,hp⟩ := (valid_run hw e).of_ok hv
  have hL := (judge_ok.mp hj).1
  obtain ⟨u,hu⟩ := (util_run ht e1).ok_iff.mpr ⟨L,hL⟩
  obtain ⟨s,hs⟩ := (speed_run hw e2).ok_iff.mpr ⟨L,hL⟩
  obtain ⟨L1,hL1,hT⟩ := (util_run ht e1).of_ok hu
  obtain ⟨L2,hL2,hS⟩ := (speed_run hw e2).of_ok hs
  obtain rfl := Except.ok.inj (hL1.symm.trans hL)
  obtain rfl := Except.ok.inj (hL2.symm.trans hL)
  refine ⟨u,s,hu,hs,?_,?_,fun x hx => ⟨L2.off x.1,?_,?_,?_⟩⟩
  · exact hp.serves.follows.heapsize.trans hT.serves.follows.heapsize.symm
  · exact hp.serves.follows.heapsize.trans hS.serves.follows.heapsize.symm
  · rw [hp.serves.block hx,hp.base]
  · rw [hT.serves.block hx,hT.base]
  · rw [hS.serves.block hx,hS.base]

theorem runs_agree_sample : ∃ e' u s, evalMmValid mmPackage sampleOps sampleEval = .ok e' ∧
    evalMmUtil mmPackage sampleOps e' = .ok u ∧ evalMmSpeed mmPackage sampleOps u.eval = .ok s := by
  obtain ⟨ids,hw⟩ := sampleOps_wellFormed
  obtain ⟨e',hv⟩ := sampleOps_valid
  obtain ⟨u,_,hu,_⟩ := @runs_agree _ _ _ e' e' _ hw hv
  obtain ⟨_,s,_,hs,_⟩ := @runs_agree _ _ _ e' u.eval _ hw hv
  exact ⟨e',u,s,hv,hu,hs⟩

end Driver

section Session

variable {times times' i j : Nat} {t : Trace} {traces : List Trace} {s s' : Session Heap}
  {e e' : Eval Heap}

-- the stats of a trace, read off the ledger alone
def Ledger.stats (ops : List TraceOp) : Except Stop Stats :=
  match Trials.run Ledger.judge 0 ops .fresh with
  | .error (.error _ _) => .ok ⟨ops.length,false,none⟩
  | .error st => .error st
  | .ok L => .ok ⟨ops.length,true,(Runs.run tally ops ([],0)).map fun b => ((b.2 : Int),L.plan.brk)⟩

structure Recorded (s s' : Session Heap) (st : Stats) : Prop where
  stats : s'.stats = s.stats ++ [st]
  errors : s'.errors = s.errors + if st.valid then 0 else 1

theorem repeatSpeed_ok {ops : List TraceOp} (hs : ∀ e, ∃ e', evalMmSpeed mmPackage ops e = .ok e')
    (n : Nat) (e : Eval Heap) : ∃ e', repeatSpeed mmPackage ops n e = .ok e' := by
  induction n generalizing e with
  | zero => exact ⟨e,rfl⟩
  | succ n ih =>
    obtain ⟨e1,h1⟩ := hs e
    obtain ⟨e2,h2⟩ := ih e1
    exact ⟨e2,Trials.bind_eq_ok.mpr ⟨e1,h1,h2⟩⟩

theorem evalTrace_stats (hw : WellFormed t.ops) (s : Session Heap) :
    Trials.Mirrors (fun st st' => st = st') (fun st s' => Recorded s s' st) (Ledger.stats t.ops)
      (evalTrace mmPackage times i t s) := by
  obtain ⟨ids,hw⟩ := hw
  obtain ⟨m,htally,_⟩ := tally_peak hw
  have hv := valid_run hw { s.eval with blocks := t.blocks, blockSizes := t.blockSizes }
  rw [Ledger.stats,evalTrace]
  cases hj : Trials.run Ledger.judge 0 t.ops .fresh with
  | error st =>
    rw [hj] at hv
    obtain ⟨⟨st',e'⟩,hv,rfl⟩ := hv
    rw [hv]
    cases st with
    | error opnum fault => exact ⟨_,rfl,rfl,rfl⟩
    | appError msg => exact ⟨_,rfl,rfl⟩
    | assertion => exact ⟨_,rfl,rfl⟩
    | crash => exact ⟨_,rfl,rfl⟩
  | ok L =>
    rw [hj] at hv
    obtain ⟨e1,hv,_⟩ := hv
    have hL := (judge_ok.mp hj).1
    obtain ⟨u,hu⟩ := (util_run htally e1).ok_iff.mpr ⟨L,hL⟩
    obtain ⟨L1,hL1,hT⟩ := (util_run htally e1).of_ok hu
    obtain rfl := Except.ok.inj (hL1.symm.trans hL)
    obtain ⟨e2,hs⟩ := repeatSpeed_ok (fun e => (speed_run hw e).ok_iff.mpr ⟨_,hL⟩) times u.eval
    rw [hv]
    dsimp only
    rw [hu]
    dsimp only
    rw [hs,htally]
    refine ⟨_,rfl,?_,rfl⟩
    have hheap := hT.serves.follows.heapsize
    simp only at hheap
    rw [hT.most]
    exact congrArg (fun n => s.stats ++ [⟨t.ops.length,true,some ((m : Int),n)⟩]) hheap

theorem evalTraces_stats (hw : ∀ t ∈ traces, WellFormed t.ops)
    (hr : Trials.run (evalTrace mmPackage times) i traces s = .ok s') : ∃ sts : List Stats,
      s'.stats = s.stats ++ sts ∧ s'.errors = s.errors + sts.countP (fun st => !st.valid) ∧
      traces.map (fun t => Ledger.stats t.ops) = sts.map .ok := by
  induction traces generalizing i s with
  | nil =>
    obtain rfl := Except.ok.inj hr
    exact ⟨[],(List.append_nil _).symm,rfl,rfl⟩
  | cons t traces ih =>
    obtain ⟨ht,hw⟩ := List.forall_mem_cons.mp hw
    obtain ⟨s1,h1,hr⟩ := Trials.run_cons.mp hr
    obtain ⟨st,hst,hrec⟩ := (evalTrace_stats ht s).of_ok h1
    obtain ⟨sts,h2,h3,h4⟩ := ih hw hr
    refine ⟨st :: sts,?_,?_,?_⟩
    · rw [h2,hrec.stats,List.append_assoc]
      rfl
    · rw [h3,hrec.errors,List.countP_cons]
      cases st.valid <;> simp only [Bool.not_true,Bool.not_false,Bool.false_eq_true,if_true,if_false] <;> omega
    · rw [List.map_cons,List.map_cons,hst,h4]

theorem session_stats (hw : ∀ t ∈ traces, WellFormed t.ops)
    (hs : evalTraces mmPackage times traces e = .ok s) : s.stats.length = traces.length ∧
      s.errors = s.stats.countP (fun st => !st.valid) ∧
      ∀ (k : Nat) t st, traces[k]? = some t → s.stats[k]? = some st →
        ∀ (times' : Nat) (e' : Eval Heap), ∃ s',
          evalTraces mmPackage times' [t] e' = .ok s' ∧ s'.stats = [st] := by
  obtain ⟨sts,h1,h2,h3⟩ := evalTraces_stats hw hs
  rw [List.nil_append] at h1
  rw [Nat.zero_add] at h2
  rw [h1]
  refine ⟨by simpa using (congrArg List.length h3).symm,h2,fun k t st hk hst times' e' => ?_⟩
  have hj : Ledger.stats t.ops = .ok st := by
    have := congrArg (·[k]?) h3
    simpa [hk,hst] using this
  have ht := hw t (List.mem_of_getElem? hk)
  obtain ⟨s',hs'⟩ := (@evalTrace_stats times' 0 _ ht ⟨e',0,[],[]⟩).ok_iff.mpr ⟨st,hj⟩
  obtain ⟨st',hst',hrec⟩ := (evalTrace_stats ht ⟨e',0,[],[]⟩).of_ok hs'
  obtain rfl := Except.ok.inj (hst'.symm.trans hj)
  exact ⟨s',Trials.run_cons.mpr ⟨s',hs',rfl⟩,hrec.stats⟩

def sampleTrace : Trace := ⟨sampleOps,fun _ => 0,fun _ => 0⟩

def highTrace : Trace := ⟨highOps,fun _ => 7,fun _ => 7⟩

theorem session_stats_sample : ∃ s,
    evalTraces mmPackage 2 [highTrace,sampleTrace] sampleEval = .ok s ∧ s.stats.length = 2 ∧
      s.errors = s.stats.countP (fun st => !st.valid) ∧
      ∀ (times' : Nat) (e' : Eval Heap), ∃ s',
        evalTraces mmPackage times' [sampleTrace] e' = .ok s' ∧ s'.stats = s.stats.drop 1 := by
  have hw : ∀ t ∈ [highTrace,sampleTrace], WellFormed t.ops := by
    simp only [List.forall_mem_cons,List.not_mem_nil,false_implies,implies_true,and_true]
    exact ⟨highOps_wellFormed,sampleOps_wellFormed⟩
  obtain ⟨s,hs⟩ : ∃ s, evalTraces mmPackage 2 [highTrace,sampleTrace] sampleEval = .ok s :=
    Trials.exists_ok (by decide +kernel)
  obtain ⟨hlen,herr,halone⟩ := session_stats hw hs
  obtain ⟨st1,st2,hst⟩ := List.length_eq_two.mp hlen
  refine ⟨s,hs,hlen,herr,fun times' e' => ?_⟩
  rw [hst] at halone ⊢
  exact halone 1 sampleTrace st2 rfl rfl times' e'

end Session

end Malloc
