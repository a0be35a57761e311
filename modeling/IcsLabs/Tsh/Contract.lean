import IcsLabs.Tsh.Invariant

namespace Tsh

variable {s t u : Shell} {a : Act} {acts rest : List Act} {es : List Event} {pid : Int}
  {i : Fin maxJobs}

-- a command line that is not builtin, up to the return of sigprocmask
def launch (bg : Bool) (pid : Int) : List Act :=
  [.read [] [['x']] bg,.main,.fork pid,.main,.main]

-- bg %1 or fg %1, up to the kill
def resumeJob (cmd : List Char) : List Act :=
  [.read [] [cmd,['%','1']] false,.main,.kill true]

-- a job is stopped, and the stop is noticed
def suspend (pid : Int) : List Act :=
  [.child pid .join,.child pid .stop,.sigchld [.notice pid]]

theorem one_foreground (hr : run acts start = some s) :
    (∀ i j, (s.jobs.slot i).state = .fg → (s.jobs.slot j).state = .fg → i = j) ∧
      (s.pc = .prompt → ∀ i, (s.jobs.slot i).state ≠ .fg) := by
  have h := inv_run hr
  refine ⟨h.fgUnique,fun hpc i hi => ?_⟩
  have hfg := h.fg i hi
  rw [hpc] at hfg
  exact hfg

-- two jobs, the first suspended and brought back by fg %1
def fgActs : List Act :=
  launch true 101 ++ launch true 102 ++ suspend 101 ++ resumeJob ['f','g'] ++
    [.main,.main,.main,.keyboard true]

theorem one_foreground_fg : ∃ s, run fgActs start = some s ∧
    (s.jobs.slot 0).state = .fg ∧ (s.jobs.slot 1).state = .bg ∧
      ∀ i j, (s.jobs.slot i).state = .fg → (s.jobs.slot j).state = .fg → i = j := by
  obtain ⟨s,hr,hs⟩ := exists_run fgActs
    (fun s => (s.jobs.slot 0).state = .fg ∧ (s.jobs.slot 1).state = .bg) (by decide +kernel)
  have hs := of_decide_eq_true hs
  exact ⟨s,hr,hs.1,hs.2,(one_foreground hr).1⟩

-- the handler run es, entered in s, collects the termination of pid
def Reaps (pid : Int) (es : List Event) (s : Shell) : Prop :=
  ∃ before after v ch, es = before ++ .notice pid :: after ∧
    Runs.run Event.exec before s = some v ∧ v.children.lookup pid = some ch ∧
      (ch.status = .exited ∨ ch.status = .signaled)

theorem gone_of_notices {e : Event} (hn : pid ∉ s.children) (he : Notices e s t) :
    pid ∉ t.children := by
  cases he with
  | reap hl hd => exact fun h => hn (AList.mem_erase.mp h).2
  | stop hl => exact fun h => hn ((mem_insert_same hl).mp h)
  | change hl hc => exact fun h => hn ((mem_insert_same hl).mp h)

theorem gone_of_handler (hn : pid ∉ s.children) (hr : Runs.run Event.exec es s = some t) :
    pid ∉ t.children :=
  Runs.run_invariant (I := fun s => pid ∉ s.children)
    (fun _ _ _ h he => gone_of_notices h (notices_of_exec he)) hn hr

-- a child is back in the process table only by its own fork
theorem gone_of_steps (hn : pid ∉ s.children) (ha : a ≠ .fork pid) (hs : Steps a s t) :
    pid ∉ t.children := by
  cases hs with
  | @fork _ bg cmdline q hpc hp hq =>
    intro h
    rcases (AList.mem_insert _).mp h with rfl | h
    · exact ha rfl
    · exact hn h
  | kill hpc hk => exact fun h => hn (mem_continueGroup.mp h)
  | sigchld hb hr hw => exact gone_of_handler hn hr
  | child hc => exact gone_of_notices hn (notices_of_exec hc)
  | _ => exact hn

theorem gone_of_run (hn : pid ∉ s.children) (hf : ∀ a ∈ acts, a ≠ .fork pid)
    (hr : run acts s = some t) : pid ∉ t.children := by
  induction acts generalizing s with
  | nil => exact Option.some.inj hr ▸ hn
  | cons a acts ih =>
    obtain ⟨u,hu,hr⟩ := Runs.run_cons.mp hr
    exact ih (gone_of_steps hn (hf a (by simp)) (steps_of_step hu))
      (fun a ha => hf a (by simp [ha])) hr

theorem gone_of_reaps (hr : Reaps pid es s) (hs : step (.sigchld es) s = some t) :
    pid ∉ t.children := by
  obtain ⟨before,after,v,ch,rfl,hv,hl,hd⟩ := hr
  cases steps_of_step hs with
  | sigchld hb hrun hw =>
    rw [Runs.run_append,hv] at hrun
    obtain ⟨w,hw,hrun⟩ := Runs.run_cons.mp hrun
    refine gone_of_handler ?_ hrun
    cases notices_of_exec hw with
    | reap hl' hd' => exact fun h => (AList.mem_erase.mp h).1 rfl
    | stop hl' =>
      obtain rfl := Option.some.inj (hl.symm.trans hl')
      simp at hd

theorem pos_of_reaps (h : Inv s) (hr : Reaps pid es s) (hs : step (.sigchld es) s = some t) :
    0 < pid := by
  obtain ⟨before,after,v,ch,rfl,hv,hl,-⟩ := hr
  cases steps_of_step hs with
  | sigchld hb hrun hw => exact (inv_handler h hb hv).tabled.born pid (mem_of_lookup hl)

theorem no_stale_job (hr : run acts start = some s) (hs : step (.sigchld es) s = some t)
    (hreap : Reaps pid es s) (hrest : run rest t = some u) (hf : ∀ a ∈ rest, a ≠ .fork pid) :
    ∀ i, (u.jobs.slot i).pid ≠ pid := by
  have hpos := pos_of_reaps (inv_run hr) hreap hs
  have hgone := gone_of_run (gone_of_reaps hreap hs) hf hrest
  have hu : Inv u := by
    have hall : run (acts ++ .sigchld es :: rest) start = some u := by
      rw [run,Runs.run_append,show Runs.run step acts start = some s from hr]
      exact Runs.run_cons.mpr ⟨t,hs,hrest⟩
    exact inv_run hall
  intro i hi
  exact hgone (hi ▸ hu.tabled.live i (by omega))

-- the child is dead before eval reaches addjob
def deadEarly : List Act :=
  [.read [] [['x']] true,.main,.fork 101,.child 101 .exit,.main,.main]

theorem no_stale_job_dead_early : ∃ s t u, run deadEarly start = some s ∧
    step (.sigchld [.notice 101]) s = some t ∧ run (launch true 102) t = some u ∧
      (s.jobs.slot 0).pid = 101 ∧ (u.jobs.slot 0).pid = 102 ∧ ∀ i, (u.jobs.slot i).pid ≠ 101 := by
  obtain ⟨u,hu,hp⟩ := exists_run
    (deadEarly ++ .sigchld [.notice 101] :: launch true 102)
    (fun u => (u.jobs.slot 0).pid = 102) (by decide +kernel)
  obtain ⟨s,hs,hq⟩ := exists_run deadEarly
    (fun s => (s.jobs.slot 0).pid = 101 ∧
      s.children.lookup 101 = some ⟨false,.exited⟩) (by decide +kernel)
  rw [run,Runs.run_append,show Runs.run step deadEarly start = some s from hs] at hu
  obtain ⟨t,ht,hu⟩ := Runs.run_cons.mp hu
  have hq := of_decide_eq_true hq
  refine ⟨s,t,u,hs,ht,hu,hq.1,of_decide_eq_true hp,no_stale_job hs ht ?_ hu (by decide)⟩
  exact ⟨[],[],s,_,rfl,rfl,hq.2,.inl rfl⟩

-- the handler has consumed the stop of pid, and pid has not changed since
def Noticed (pid : Int) (s : Shell) : Prop :=
  (s.children.lookup pid).map Child.status = some (.stopped true)

-- bg and fg assign the state of no job that the handler has just seen stop
def KeepsStop (a : Act) (s : Shell) : Prop :=
  match a,s.pc with
  | .main,.assign _ i => ¬ Noticed (s.jobs.slot i).pid s
  | _,_ => True

instance (a : Act) (s : Shell) : Decidable (KeepsStop a s) := by
  unfold KeepsStop Noticed
  split <;> infer_instance

def StopsKept (s : Shell) : Prop :=
  ∀ pid, Noticed pid s → ∀ i, (s.jobs.slot i).pid = pid → (s.jobs.slot i).state = .st

theorem noticed_iff : Noticed pid s ↔
    ∃ ch, s.children.lookup pid = some ch ∧ ch.status = .stopped true :=
  Option.map_eq_some_iff

theorem noticed_mem (h : Noticed pid s) : pid ∈ s.children := by
  obtain ⟨ch,hl,-⟩ := noticed_iff.mp h
  exact mem_of_lookup hl

theorem noticed_insert {ch : Child} {jobs : Jobs} {blocked : Bool} {pc : Pc} {q : Int}
    (hst : ch.status ≠ .stopped true)
    (h : Noticed q ⟨jobs,s.children.insert pid ch,blocked,pc⟩) : Noticed q s := by
  obtain ⟨ch',hl,hst'⟩ := noticed_iff.mp h
  rcases eq_or_ne q pid with rfl | hq
  · obtain rfl := Option.some.inj ((AList.lookup_insert _).symm.trans hl)
    exact absurd hst' hst
  · exact noticed_iff.mpr ⟨ch',(AList.lookup_insert_ne hq).symm.trans hl,hst'⟩

theorem stopsKept_notices {e : Event} (h : Inv s) (hk : StopsKept s) (he : Notices e s t) :
    StopsKept t := by
  intro q hq i hi
  have hpos := (tabled_notices h.tabled he).born q (noticed_mem hq)
  have hold (hqs : Noticed q s) : (t.jobs.slot i).state = .st := by
    obtain hs | ⟨hs,-⟩ | hs := notices_slot he i
    · rw [hs] at hi ⊢
      exact hk q hqs i hi
    · rw [hs]
    · rw [hs] at hi
      simp only [clearjob] at hi
      omega
  cases he with
  | @reap _ pid ch hl hd =>
    obtain ⟨ch',hl',hst⟩ := noticed_iff.mp hq
    refine hold (noticed_iff.mpr ⟨ch',?_,hst⟩)
    rcases eq_or_ne q pid with rfl | hqp
    · rw [AList.lookup_erase] at hl'
      cases hl'
    · rwa [AList.lookup_erase_ne hqp] at hl'
  | @stop _ pid g hl =>
    rcases eq_or_ne q pid with rfl | hqp
    · obtain ⟨he,hn⟩ | ⟨k,hkq,he⟩ := markStopped_cases q s.jobs
      · simp only [he] at hi
        exact absurd hi ((hn.resolve_left (by omega)) i)
      · simp only [he] at hi ⊢
        rcases eq_or_ne i k with rfl | hik
        · simp
        · rw [setSlot_ne hik] at hi
          exact absurd (h.tabled.distinct i k (hi.trans hkq.symm) (by omega)) hik
    · obtain ⟨ch',hl',hst⟩ := noticed_iff.mp hq
      exact hold (noticed_iff.mpr ⟨ch',(AList.lookup_insert_ne hqp).symm.trans hl',hst⟩)
  | change hl hc => exact hold (noticed_insert (apply_status hc) hq)

theorem stopsKept_steps (h : Inv s) (hk : StopsKept s) (hc : KeepsStop a s) (hs : Steps a s t) :
    StopsKept t := by
  cases hs with
  | fork hpc hp hn => exact fun q hq i hi => hk q (noticed_insert (by simp) hq) i hi
  | @add _ bg cmdline pid hpc =>
    intro q hq i hi
    have hpos := h.tabled.born q (noticed_mem hq)
    obtain ⟨he,-⟩ | ⟨-,k,-,he⟩ := addjob_spec pid (if bg then .bg else .fg) cmdline s.jobs
    · simp only [he] at hi ⊢
      exact hk q hq i hi
    · simp only [he] at hi ⊢
      rcases eq_or_ne i k with rfl | hik
      · obtain ⟨ch,hl,hst⟩ := noticed_iff.mp hq
        simp only [setSlot_self] at hi
        subst hi
        exact absurd hst ((h.adding bg cmdline pid hpc).2.2 ch hl)
      · rw [setSlot_ne hik] at hi ⊢
        exact hk q hq i hi
  | @kill _ fg i hpc hkr =>
    intro q hq j hj
    rw [continueGroup_jobs] at hj ⊢
    obtain ⟨ch,hl,hst⟩ := noticed_iff.mp hq
    exact hk q (noticed_iff.mpr ⟨ch,(lookup_continueGroup hl hst).1,hst⟩) j hj
  | @assign _ fg i hpc =>
    intro q hq j hj
    simp only [KeepsStop,hpc] at hc
    rcases eq_or_ne j i with rfl | hji
    · simp only [setSlot_self] at hj
      subst hj
      exact absurd hq hc
    · rw [setSlot_ne hji] at hj ⊢
      exact hk q hq j hj
  | sigchld hb hr hw => exact (handler_invariant (fun _ _ _ => stopsKept_notices) h hb hk hr).2
  | child hc => exact stopsKept_notices h hk (notices_of_exec hc)
  | _ => exact hk

theorem stop_notice_kept (hm : Runs.Meets step KeepsStop acts start)
    (hr : run acts start = some s) : StopsKept s := by
  refine (Runs.run_invariant_of_meets (I := fun s => Inv s ∧ StopsKept s) ?_
    ⟨inv_start,fun q hq => absurd (noticed_mem hq) (AList.notMem_empty q)⟩ hm hr).2
  intro a s t hs hc ha
  have hst := steps_of_step ha
  exact ⟨inv_steps hs.1 hst,stopsKept_steps hs.1 hs.2 hc hst⟩

-- stopped, resumed by bg %1, stopped again after bg has returned
def bgThenStop : List Act :=
  launch true 101 ++ suspend 101 ++ resumeJob ['b','g'] ++
    [.main,.child 101 .stop,.sigchld [.notice 101]]

theorem stop_notice_kept_bg : ∃ s, run bgThenStop start = some s ∧ Noticed 101 s ∧
    (s.jobs.slot 0).pid = 101 ∧ (s.jobs.slot 0).state = .st := by
  obtain ⟨s,hr,hs⟩ := exists_run bgThenStop
    (fun s => (s.children.lookup 101).map Child.status = some (.stopped true) ∧
      (s.jobs.slot 0).pid = 101) (by decide +kernel)
  have hs := of_decide_eq_true hs
  exact ⟨s,hr,hs.1,hs.2,stop_notice_kept (by decide +kernel) hr 101 hs.1 0 hs.2⟩

-- the second stop comes between the SIGCONT and the assignment
def bgAroundStop : List Act :=
  launch true 101 ++ suspend 101 ++ resumeJob ['b','g'] ++
    [.child 101 .stop,.sigchld [.notice 101],.main]

theorem stop_notice_lost : ∃ s, run bgAroundStop start = some s ∧ Noticed 101 s ∧
    (s.jobs.slot 0).pid = 101 ∧ (s.jobs.slot 0).state = .bg ∧ s.pc = .prompt ∧ ¬ StopsKept s := by
  obtain ⟨s,hr,hs⟩ := exists_run bgAroundStop
    (fun s => (s.children.lookup 101).map Child.status = some (.stopped true) ∧
      (s.jobs.slot 0).pid = 101 ∧ (s.jobs.slot 0).state = .bg ∧ s.pc = .prompt) (by decide +kernel)
  obtain ⟨hn,hp,hst,hpc⟩ := of_decide_eq_true hs
  refine ⟨s,hr,hn,hp,hst,hpc,fun hk => ?_⟩
  rw [hk 101 hn 0 hp] at hst
  cases hst

def Consistent (t : Jobs) : Prop :=
  ∀ i, ((t.slot i).pid = 0 ↔ (t.slot i).jid = 0) ∧ ((t.slot i).jid = 0 ↔ (t.slot i).state = .undef)

-- the slot that bg or fg has looked up is still there at its assignment and at its last use
def HoldsSlot (a : Act) (s : Shell) : Prop :=
  match a,s.pc with
  | .main,.assign _ i | .main,.arg i => (s.jobs.slot i).pid ≠ 0
  | _,_ => True

instance (a : Act) (s : Shell) : Decidable (HoldsSlot a s) := by
  unfold HoldsSlot
  split <;> infer_instance

def Clear (s : Shell) : Prop :=
  (∀ i, (s.jobs.slot i).pid = 0 → (s.jobs.slot i).state = .undef) ∧ s.pc ≠ .wait 0

theorem clear_notices {e : Event} (h : Inv s) (hc : Clear s) (he : Notices e s t) : Clear t := by
  refine ⟨fun i hi => ?_,(notices_pc he).1 ▸ hc.2⟩
  obtain hs | ⟨hs,hk⟩ | hs := notices_slot he i
  · rw [hs] at hi ⊢
    exact hc.1 i hi
  · rw [hs] at hi
    have hpos := h.tabled.born _ hk
    simp only at hi
    omega
  · rw [hs,clearjob]

theorem clear_steps (h : Inv s) (hc : Clear s) (hh : HoldsSlot a s) (hs : Steps a s t) :
    Clear t := by
  cases hs with
  | @read _ cmdline argv bg hpc =>
    refine ⟨hc.1,?_⟩
    obtain he | he | ⟨fg,arg,he⟩ | he := eval_cases cmdline argv bg <;> simp [he]
  | eof hpc => exact ⟨hc.1,by simp⟩
  | block hpc => exact ⟨hc.1,by simp⟩
  | noFork hpc => exact ⟨hc.1,by simp⟩
  | fork hpc hp hn => exact ⟨hc.1,by simp⟩
  | @add _ bg cmdline pid hpc =>
    refine ⟨fun i hi => ?_,by simp⟩
    obtain ⟨he,-⟩ | ⟨hp,k,-,he⟩ := addjob_spec pid (if bg then .bg else .fg) cmdline s.jobs
    · simp only [he] at hi ⊢
      exact hc.1 i hi
    · simp only [he] at hi ⊢
      rcases eq_or_ne i k with rfl | hik
      · simp only [setSlot_self] at hi
        omega
      · rw [setSlot_ne hik] at hi ⊢
        exact hc.1 i hi
  | @unblock _ bg pid hpc =>
    have hok := h.pidOk
    rw [hpc] at hok
    cases bg with
    | true => exact ⟨hc.1,by simp⟩
    | false => exact ⟨hc.1,fun he => hok (Pc.wait.inj he)⟩
  | @bgfg _ fg arg hpc =>
    refine ⟨hc.1,?_⟩
    obtain he | ⟨i,he,-⟩ := lookupJob_cases fg arg s.jobs <;> simp [he]
  | @kill _ fg i hpc hk =>
    refine ⟨fun j hj => ?_,by simp⟩
    rw [continueGroup_jobs] at hj ⊢
    exact hc.1 j hj
  | noKill hpc => exact ⟨hc.1,by simp⟩
  | @assign _ fg i hpc =>
    simp only [HoldsSlot,hpc] at hh
    refine ⟨fun j hj => ?_,by cases fg <;> simp⟩
    rcases eq_or_ne j i with rfl | hji
    · simp only [setSlot_self] at hj
      exact absurd hj hh
    · rw [setSlot_ne hji] at hj ⊢
      exact hc.1 j hj
  | @arg _ i hpc =>
    simp only [HoldsSlot,hpc] at hh
    exact ⟨hc.1,fun he => hh (Pc.wait.inj he)⟩
  | waiting hpc hf => exact hc
  | waited hpc hf => exact ⟨hc.1,by simp⟩
  | sigchld hb hr hw => exact (handler_invariant (fun _ _ _ => clear_notices) h hb hc hr).2
  | keyboard => exact hc
  | keyboardExit hf => exact ⟨hc.1,by simp⟩
  | child he => exact clear_notices h hc (notices_of_exec he)

theorem consistent_of_clear (h : Inv s) (hc : Clear s) : Consistent s.jobs := by
  intro i
  by_cases hp : (s.jobs.slot i).pid = 0
  · simp [hp,h.tabled.numbered.free i hp,hc.1 i hp]
  · have hj := h.tabled.numbered.used i hp
    have hst := h.tabled.named i hp
    simp only [hp,hst,iff_false,false_iff]
    omega

theorem slots_consistent (hm : Runs.Meets step HoldsSlot acts start)
    (hr : run acts start = some s) : Consistent s.jobs ∧ s.pc ≠ .wait 0 := by
  have h : Inv s ∧ Clear s := by
    refine Runs.run_invariant_of_meets (I := fun s => Inv s ∧ Clear s) ?_
      ⟨inv_start,fun _ _ => rfl,by simp [start]⟩ hm hr
    intro a s t hs hh ha
    have hst := steps_of_step ha
    exact ⟨inv_steps hs.1 hst,clear_steps hs.1 hs.2 hh hst⟩
  exact ⟨consistent_of_clear h.1 h.2,h.2.2⟩

theorem slots_consistent_fg : ∃ s, run fgActs start = some s ∧ s.pc = .wait 101 ∧
    Consistent s.jobs ∧ s.pc ≠ .wait 0 := by
  obtain ⟨s,hr,hs⟩ := exists_run fgActs
    (fun s => s.pc = .wait 101) (by decide +kernel)
  exact ⟨s,hr,of_decide_eq_true hs,slots_consistent (by decide +kernel) hr⟩

-- the job ends between the SIGCONT and the assignment
def fgAroundExit : List Act :=
  launch true 101 ++ suspend 101 ++ resumeJob ['f','g'] ++
    [.child 101 .exit,.sigchld [.notice 101],.main,.main]

theorem cleared_slot_foreground : ∃ s, run fgAroundExit start = some s ∧
    (s.jobs.slot 0).pid = 0 ∧ (s.jobs.slot 0).jid = 0 ∧ (s.jobs.slot 0).state = .fg ∧
      s.pc = .wait 0 ∧ ¬ Consistent s.jobs := by
  obtain ⟨s,hr,hs⟩ := exists_run fgAroundExit
    (fun s => (s.jobs.slot 0).pid = 0 ∧ (s.jobs.slot 0).jid = 0 ∧
      (s.jobs.slot 0).state = .fg ∧ s.pc = .wait 0) (by decide +kernel)
  obtain ⟨hp,hj,hst,hpc⟩ := of_decide_eq_true hs
  refine ⟨s,hr,hp,hj,hst,hpc,fun hc => ?_⟩
  rw [(hc 0).2.mp hj] at hst
  cases hst

-- addjob is called for a child only when a slot is free
def FindsSlot (a : Act) (s : Shell) : Prop :=
  match a,s.pc with
  | .main,.add _ _ pid => pid < 1 ∨ ∃ i, (s.jobs.slot i).pid = 0
  | _,_ => True

instance (a : Act) (s : Shell) : Decidable (FindsSlot a s) := by
  unfold FindsSlot
  split <;> infer_instance

-- between fork and the return of addjob
def Pc.adds : Pc → Int → Prop
  | .add _ _ pid,q => q = pid
  | _,_ => False

def Listed (s : Shell) : Prop :=
  ∀ pid ∈ s.children, s.pc.adds pid ∨ ∃ i, (s.jobs.slot i).pid = pid

theorem listed_notices {e : Event} (h : Inv s) (hl : Listed s) (he : Notices e s t) :
    Listed t := by
  intro q hq
  rw [(notices_pc he).1]
  have hsq : q ∈ s.children := by
    by_contra hn
    exact gone_of_notices hn he hq
  obtain ha | ⟨i,hi⟩ := hl q hsq
  · exact .inl ha
  · have hpos := h.tabled.born q hsq
    have hi' : (s.jobs.slot i).pid ≠ 0 := by omega
    refine .inr ⟨i,?_⟩
    cases he with
    | @reap _ pid ch hlk hd =>
      have hne := (AList.mem_erase.mp hq).1
      obtain ⟨he,-⟩ | ⟨-,k,hk,he⟩ := deletejob_spec pid s.jobs
      · simpa only [he] using hi
      · have hik : i ≠ k := fun hik => hne (hi.symm.trans (hik ▸ hk))
        simpa only [he,setSlot_ne hik] using hi
    | @stop _ pid g hlk =>
      obtain ⟨he,-⟩ | ⟨k,-,he⟩ := markStopped_cases pid s.jobs
      · simpa only [he] using hi
      · rcases eq_or_ne i k with rfl | hik
        · simpa only [he,setSlot_self] using hi
        · simpa only [he,setSlot_ne hik] using hi
    | change hlk hc => exact hi

theorem listed_steps (h : Inv s) (hl : Listed s) (hf : FindsSlot a s) (hs : Steps a s t) :
    Listed t := by
  have hmove {pc : Pc} (pc' : Pc) (hpc : s.pc = pc) (hn : ∀ q, ¬ pc.adds q) (q : Int)
      (hq : q ∈ s.children) : pc'.adds q ∨ ∃ i, (s.jobs.slot i).pid = q :=
    .inr ((hl q hq).resolve_left fun ha => hn q (hpc ▸ ha))
  cases hs with
  | read hpc => exact hmove _ hpc fun _ => id
  | eof hpc => exact hmove _ hpc fun _ => id
  | block hpc => exact hmove _ hpc fun _ => id
  | noFork hpc => exact hmove _ hpc fun _ => id
  | @fork _ bg cmdline pid hpc hp hn =>
    intro q hq
    rcases (AList.mem_insert _).mp hq with rfl | hq
    · exact .inl rfl
    · exact hmove _ hpc (fun _ => id) q hq
  | @add _ bg cmdline pid hpc =>
    simp only [FindsSlot,hpc] at hf
    intro q hq
    have hpos := h.tabled.born q hq
    refine .inr ?_
    obtain ha | ⟨i,hi⟩ := hl q hq
    · rw [hpc] at ha
      obtain rfl : q = pid := ha
      obtain ⟨i,hi⟩ := hf.resolve_left (by omega)
      obtain ⟨k,-,he⟩ := addjob_eq (if bg then .bg else .fg) cmdline
        (show 1 ≤ q by omega) hi
      exact ⟨k,by simp only [he,setSlot_self]⟩
    · obtain ⟨he,-⟩ | ⟨-,k,hk,he⟩ := addjob_spec pid (if bg then .bg else .fg) cmdline s.jobs
      · exact ⟨i,by simpa only [he] using hi⟩
      · have hik : i ≠ k := fun hik => by
          rw [hik,hk] at hi
          omega
        exact ⟨i,by simpa only [he,setSlot_ne hik] using hi⟩
  | unblock hpc => exact hmove _ hpc fun _ => id
  | bgfg hpc => exact hmove _ hpc fun _ => id
  | @kill _ fg i hpc hk =>
    intro q hq
    rw [continueGroup_jobs]
    exact hmove _ hpc (fun _ => id) q (mem_continueGroup.mp hq)
  | noKill hpc => exact hmove _ hpc fun _ => id
  | @assign _ fg i hpc =>
    intro q hq
    obtain ha | ⟨j,hj⟩ := hmove .prompt hpc (fun _ => id) q hq
    · exact ha.elim
    · refine .inr ⟨j,?_⟩
      rcases eq_or_ne j i with rfl | hji
      · simpa using hj
      · simpa [hji] using hj
  | arg hpc => exact hmove _ hpc fun _ => id
  | waiting hpc hw => exact hl
  | waited hpc hw => exact hmove _ hpc fun _ => id
  | sigchld hb hr hw => exact (handler_invariant (fun _ _ _ => listed_notices) h hb hl hr).2
  | keyboard => exact hl
  | keyboardExit hw =>
    -- a job is in the foreground, so eval is not about to call addjob
    intro q hq
    refine .inr ((hl q hq).resolve_left fun ha => ?_)
    obtain ⟨i,hi⟩ := fg_of_fgpid hw
    have hfg := h.fg i hi
    cases hpc : s.pc with
    | add bg cmdline pid => exact (hpc ▸ hfg : (Pc.add bg cmdline pid).mayFg s.jobs i)
    | _ =>
      rw [hpc] at ha
      exact ha
  | child he => exact listed_notices h hl (notices_of_exec he)

-- jobs, fg, bg and ctrl-c reach the child through its only slot; at the prompt it is in the
-- background or stopped, so a child in the foreground has been waited for
def Tracked (s : Shell) (pid : Int) : Prop :=
  ∃ i, getjobpid pid s.jobs = some i ∧ (∀ j, (s.jobs.slot j).pid = pid ↔ j = i) ∧
    (s.pc = .prompt → (s.jobs.slot i).state = .bg ∨ (s.jobs.slot i).state = .st)

theorem children_tracked (hm : Runs.Meets step FindsSlot acts start)
    (hr : run acts start = some s) (hp : pid ∈ s.children) (hout : ¬ s.pc.adds pid) :
    Tracked s pid := by
  have h : Inv s ∧ Listed s := by
    refine Runs.run_invariant_of_meets (I := fun s => Inv s ∧ Listed s) ?_
      ⟨inv_start,fun q hq => absurd hq (AList.notMem_empty q)⟩ hm hr
    intro a s t hs hf ha
    have hst := steps_of_step ha
    exact ⟨inv_steps hs.1 hst,listed_steps hs.1 hs.2 hf hst⟩
  obtain ⟨i,hi⟩ := (h.2 pid hp).resolve_left hout
  have hpos := h.1.tabled.born pid hp
  obtain ⟨k,hk,hki⟩ := getjobpid_of_mem (t := s.jobs) (i := i) (by omega)
  rw [hi] at hk hki
  refine ⟨k,hk,fun j => ⟨fun hj => ?_,fun hj => hj ▸ hki⟩,fun hpc => ?_⟩
  · exact h.1.tabled.distinct j k (hj.trans hki.symm) (by omega)
  · have hnamed := h.1.tabled.named k (by omega)
    have hnofg := (one_foreground hr).2 hpc k
    cases hst : (s.jobs.slot k).state <;> simp_all

theorem children_tracked_two : ∃ s, run (launch true 101 ++ launch false 102) start = some s ∧
    s.pc = .wait 102 ∧ Tracked s 101 ∧ Tracked s 102 := by
  obtain ⟨s,hr,hs⟩ := exists_run (launch true 101 ++ launch false 102)
    (fun s => s.pc = .wait 102 ∧ (s.children.lookup 101).isSome ∧
      (s.children.lookup 102).isSome) (by decide +kernel)
  obtain ⟨hpc,h1,h2⟩ := of_decide_eq_true hs
  refine ⟨s,hr,hpc,?_,?_⟩
  · exact children_tracked (by decide +kernel) hr (AList.lookup_isSome.mp h1) (by simp [hpc,Pc.adds])
  · exact children_tracked (by decide +kernel) hr (AList.lookup_isSome.mp h2) (by simp [hpc,Pc.adds])

-- the seventeenth command, run in the foreground
def tooMany : List Act :=
  (List.range 16).flatMap (fun n => launch true (n + 101)) ++ launch false 117 ++ [.main]

theorem child_untracked : ∃ s, run tooMany start = some s ∧ s.pc = .prompt ∧
    s.children.lookup 117 = some ⟨false,.running⟩ ∧ (∀ i, (s.jobs.slot i).pid ≠ 117) ∧
      ¬ Tracked s 117 := by
  obtain ⟨s,hr,hs⟩ := exists_run tooMany
    (fun s => s.pc = .prompt ∧ s.children.lookup 117 = some ⟨false,.running⟩ ∧
      ∀ i, (s.jobs.slot i).pid ≠ 117) (by decide +kernel)
  obtain ⟨hpc,hl,hn⟩ := of_decide_eq_true hs
  exact ⟨s,hr,hpc,hl,hn,fun ⟨i,hi,_⟩ => hn i (getjobpid_some hi).2⟩

end Tsh
