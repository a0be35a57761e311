import IcsLabs.Tsh.Steps

namespace Tsh

abbrev Children := AList fun _ : Int => Child

-- the table against the set of children
structure Tabled (t : Jobs) (kids : Children) : Prop where
  numbered : Numbered t
  named : ∀ i, (t.slot i).pid ≠ 0 → (t.slot i).state ≠ .undef
  live : ∀ i, (t.slot i).pid ≠ 0 → (t.slot i).pid ∈ kids
  distinct : ∀ i j, (t.slot i).pid = (t.slot j).pid → (t.slot i).pid ≠ 0 → i = j
  born : ∀ pid ∈ kids, 0 < pid

variable {t : Jobs} {kids kids' : Children} {pid : Int} {i : Fin maxJobs} {state : JobState}
  {cmdline : List Char}

theorem tabled_congr (h : Tabled t kids) (hk : ∀ pid, pid ∈ kids' ↔ pid ∈ kids) :
    Tabled t kids' :=
  ⟨h.numbered,h.named,fun i hi => (hk _).mpr (h.live i hi),h.distinct,
    fun pid hp => h.born pid ((hk pid).mp hp)⟩

theorem tabled_insert (h : Tabled t kids) (hp : 0 < pid) (ch : Child) :
    Tabled t (kids.insert pid ch) := by
  refine ⟨h.numbered,h.named,fun i hi => ?_,h.distinct,fun q hq => ?_⟩
  · exact AList.mem_insert _ |>.mpr (.inr (h.live i hi))
  · rcases AList.mem_insert _ |>.mp hq with rfl | hq
    · exact hp
    · exact h.born q hq

theorem tabled_setState (h : Tabled t kids) (hst : state ≠ .undef) :
    Tabled (setSlot i { t.slot i with state := state } t) kids := by
  have hpid (j : Fin maxJobs) :
      ((setSlot i { t.slot i with state := state } t).slot j).pid = (t.slot j).pid ∧
        ((setSlot i { t.slot i with state := state } t).slot j).jid = (t.slot j).jid := by
    rcases eq_or_ne j i with rfl | hji
    · simp
    · simp [hji]
  refine ⟨⟨h.numbered.next,fun j => ?_,fun j => ?_⟩,fun j hj => ?_,fun j => ?_,fun j k => ?_,h.born⟩
  · rw [(hpid j).1,(hpid j).2]
    exact h.numbered.free j
  · rw [(hpid j).1,(hpid j).2]
    exact h.numbered.used j
  · rw [(hpid j).1] at hj
    rcases eq_or_ne j i with rfl | hji
    · simpa using hst
    · simpa [hji] using h.named j hj
  · rw [(hpid j).1]
    exact h.live j
  · rw [(hpid j).1,(hpid k).1]
    exact h.distinct j k

theorem tabled_addjob (state : JobState) (cmdline : List Char) (h : Tabled t kids) (hk : 1 ≤ pid → pid ∈ kids)
    (hn : ∀ i, (t.slot i).pid ≠ pid) (hst : state ≠ .undef) :
    Tabled (addjob pid state cmdline t).2 kids := by
  refine ⟨numbered_addjob h.numbered,?_,?_,?_,h.born⟩
  all_goals
    obtain ⟨he,-⟩ | ⟨hp,k,-,he⟩ := addjob_spec pid state cmdline t <;> rw [he]
  · exact h.named
  · intro j hj
    rcases eq_or_ne j k with rfl | hjk
    · simpa using hst
    · simp only [setSlot_ne hjk] at hj ⊢
      exact h.named j hj
  · exact h.live
  · intro j hj
    rcases eq_or_ne j k with rfl | hjk
    · simpa using hk hp
    · simp only [setSlot_ne hjk] at hj ⊢
      exact h.live j hj
  · exact h.distinct
  · intro j l hjl hj
    rcases eq_or_ne j k with rfl | hjk <;> rcases eq_or_ne l j with rfl | hlj
    · rfl
    · simp only [setSlot_self,setSlot_ne hlj] at hjl
      exact absurd hjl.symm (hn l)
    · rfl
    · rcases eq_or_ne l k with rfl | hlk
      · simp only [setSlot_self,setSlot_ne hjk] at hjl
        exact absurd hjl (hn j)
      · simp only [setSlot_ne hjk,setSlot_ne hlk] at hjl hj
        exact h.distinct j l hjl hj

theorem tabled_reap (h : Tabled t kids) (hk : pid ∈ kids) :
    Tabled (deletejob pid t).2 (kids.erase pid) ∧
      ∀ i, ((deletejob pid t).2.slot i).pid ≠ pid := by
  have hpos := h.born pid hk
  have hslots : ∀ i, (((deletejob pid t).2.slot i) = clearjob ∧ (t.slot i).pid = pid) ∨
      ((deletejob pid t).2.slot i = t.slot i ∧ (t.slot i).pid ≠ pid) := by
    intro j
    obtain ⟨he,hn⟩ | ⟨-,k,hkp,he⟩ := deletejob_spec pid t
    · rw [he]
      exact .inr ⟨rfl,(hn.resolve_left (by omega)) j⟩
    · rw [he]
      rcases eq_or_ne j k with rfl | hjk
      · exact .inl ⟨setSlot_self ..,hkp⟩
      · refine .inr ⟨setSlot_ne hjk ..,fun hj => hjk ?_⟩
        exact h.distinct j k (hj.trans hkp.symm) (by omega)
  have hkeep : ∀ i, ((deletejob pid t).2.slot i).pid ≠ 0 →
      (deletejob pid t).2.slot i = t.slot i ∧ (t.slot i).pid ≠ pid := by
    intro j hj
    obtain ⟨hc,-⟩ | hs := hslots j
    · simp [hc,clearjob] at hj
    · exact hs
  refine ⟨⟨numbered_deletejob h.numbered,fun j hj => ?_,fun j hj => ?_,fun j k hjk hj => ?_,
    fun q hq => h.born q (AList.mem_erase.mp hq).2⟩,fun j hj => ?_⟩
  · obtain ⟨hs,-⟩ := hkeep j hj
    rw [hs] at hj ⊢
    exact h.named j hj
  · obtain ⟨hs,hne⟩ := hkeep j hj
    rw [hs] at hj ⊢
    exact AList.mem_erase.mpr ⟨hne,h.live j hj⟩
  · have hk : ((deletejob pid t).2.slot k).pid ≠ 0 := hjk ▸ hj
    rw [(hkeep j hj).1,(hkeep k hk).1] at hjk
    rw [(hkeep j hj).1] at hj
    exact h.distinct j k hjk hj
  · have h0 : ((deletejob pid t).2.slot j).pid ≠ 0 := by omega
    obtain ⟨hs,hne⟩ := hkeep j h0
    rw [hs] at hj
    exact hne hj

theorem tabled_markStopped (h : Tabled t kids) : Tabled (markStopped pid t) kids := by
  obtain ⟨he,-⟩ | ⟨k,-,he⟩ := markStopped_cases pid t
  · rw [he]
    exact h
  · rw [he]
    exact tabled_setState h (by simp)

-- SIGCHLD is in the mask from before the fork until after addjob
def Pc.blocks : Pc → Prop
  | .fork .. | .add .. | .unblock .. => True
  | _ => False

-- the slots whose job may be in the foreground
def Pc.mayFg (pc : Pc) (t : Jobs) (i : Fin maxJobs) : Prop :=
  match pc with
  | .unblock bg pid => bg = false ∧ (t.slot i).pid = pid
  | .arg j => i = j
  | .wait pid => (t.slot i).pid = pid
  | .exited => True
  | _ => False

def Pc.pidOk : Pc → Prop
  | .add _ _ pid | .unblock _ pid => pid ≠ 0
  | _ => True

-- the child of an eval that is about to call addjob
def Unlisted (s : Shell) (pid : Int) : Prop :=
  (1 ≤ pid → pid ∈ s.children) ∧ (∀ i, (s.jobs.slot i).pid ≠ pid) ∧
    ∀ ch, s.children.lookup pid = some ch → ch.status ≠ .stopped true

structure Inv (s : Shell) : Prop where
  tabled : Tabled s.jobs s.children
  blocks : s.pc.blocks → s.blocked = true
  pidOk : s.pc.pidOk
  adding : ∀ bg cmdline pid, s.pc = .add bg cmdline pid → Unlisted s pid
  fg : ∀ i, (s.jobs.slot i).state = .fg → s.pc.mayFg s.jobs i
  fgUnique : ∀ i j, (s.jobs.slot i).state = .fg → (s.jobs.slot j).state = .fg → i = j

theorem inv_start : Inv start := by
  refine ⟨⟨numbered_initjobs,fun i h => absurd rfl h,fun i h => absurd rfl h,
    fun i j _ h => absurd rfl h,fun pid h => ?_⟩,fun h => h.elim,trivial,fun _ _ _ h => ?_,
    fun i h => ?_,fun i j h => ?_⟩
  · exact absurd h (AList.notMem_empty pid)
  · cases h
  · cases h
  · cases h

variable {s u : Shell} {e : Event} {es : List Event} {a : Act} {pc : Pc}

theorem mayFg_congr {v : Jobs} (hpid : (v.slot i).pid = (t.slot i).pid) :
    pc.mayFg v i ↔ pc.mayFg t i := by
  cases pc <;> simp only [Pc.mayFg,hpid]

theorem inv_setPc (h : Inv s) (hb : pc.blocks → s.blocked = true) (hp : pc.pidOk)
    (ha : ∀ bg cmdline pid, pc = .add bg cmdline pid → Unlisted s pid)
    (hf : ∀ i, (s.jobs.slot i).state = .fg → pc.mayFg s.jobs i) : Inv { s with pc := pc } :=
  ⟨h.tabled,hb,hp,ha,hf,h.fgUnique⟩

theorem inv_idle (h : Inv s) (hb : ¬ pc.blocks) (hp : pc.pidOk)
    (hf : ∀ i, (s.jobs.slot i).state = .fg → pc.mayFg s.jobs i) : Inv { s with pc := pc } := by
  refine inv_setPc h (fun h => absurd h hb) hp (fun bg cmdline pid he => ?_) hf
  subst he
  exact absurd trivial hb

theorem inv_exited (h : Inv s) : Inv { s with pc := .exited } :=
  inv_idle h id trivial fun _ _ => trivial

theorem inv_children (h : Inv s) (hk : ∀ pid, pid ∈ kids ↔ pid ∈ s.children)
    (hl : ∀ pid ch, kids.lookup pid = some ch → ch.status = .stopped true →
      s.children.lookup pid = some ch) : Inv { s with children := kids } := by
  refine ⟨tabled_congr h.tabled hk,h.blocks,h.pidOk,fun bg cmdline pid hpc => ?_,h.fg,h.fgUnique⟩
  obtain ⟨hm,hn,hs⟩ := h.adding bg cmdline pid hpc
  exact ⟨fun hp => (hk pid).mpr (hm hp),hn,fun ch hch hst => hs ch (hl pid ch hch hst) hst⟩

theorem inv_continueGroup (h : Inv s) (pid : Int) : Inv (continueGroup pid s) := by
  rw [continueGroup_eq]
  exact inv_children h (fun q => mem_continueGroup) fun q ch hq hst =>
    (lookup_continueGroup hq hst).1

theorem inv_change {pid : Int} {c : Change} (h : Inv s) (he : Notices (.change pid c) s u) :
    Inv u := by
  cases he with
  | change hl hc =>
    refine inv_children h (fun q => mem_insert_same hl) fun q ch hq hst => ?_
    rcases eq_or_ne q pid with rfl | hqp
    · obtain rfl := Option.some.inj ((AList.lookup_insert _).symm.trans hq)
      exact absurd hst (apply_status hc)
    · exact (AList.lookup_insert_ne hqp).symm.trans hq

theorem tabled_notices (h : Tabled s.jobs s.children) (he : Notices e s u) :
    Tabled u.jobs u.children := by
  cases he with
  | reap hl hd => exact (tabled_reap h (mem_of_lookup hl)).1
  | stop hl => exact tabled_markStopped (tabled_congr h fun q => mem_insert_same hl)
  | change hl hc => exact tabled_congr h fun q => mem_insert_same hl

theorem fg_of_notices (he : Notices e s u) (hi : (u.jobs.slot i).state = .fg) :
    u.jobs.slot i = s.jobs.slot i := by
  obtain h | ⟨h,-⟩ | h := notices_slot he i
  · exact h
  · rw [h] at hi
    cases hi
  · rw [h] at hi
    cases hi

theorem inv_notices (h : Inv s) (hb : s.blocked = false) (he : Notices e s u) : Inv u := by
  obtain ⟨hpc,hblocked⟩ := notices_pc he
  have hnb : ¬ s.pc.blocks := fun hp => by simp [h.blocks hp] at hb
  refine ⟨tabled_notices h.tabled he,fun hp => absurd (hpc ▸ hp) hnb,hpc ▸ h.pidOk,
    fun bg cmdline pid hadd => ?_,fun i hi => ?_,fun i j hi hj => ?_⟩
  · rw [← hpc,hadd] at hnb
    exact absurd trivial hnb
  · have hs := fg_of_notices he hi
    rw [hpc,mayFg_congr (congrArg Job.pid hs)]
    exact h.fg i (hs ▸ hi)
  · exact h.fgUnique i j (fg_of_notices he hi ▸ hi) (fg_of_notices he hj ▸ hj)

theorem handler_invariant {P : Shell → Prop}
    (hP : ∀ e s u, Inv s → P s → Notices e s u → P u) (h : Inv s) (hb : s.blocked = false)
    (hs : P s) (hr : Runs.run Event.exec es s = some u) : Inv u ∧ P u := by
  have hall := Runs.run_invariant (I := fun s => (Inv s ∧ s.blocked = false) ∧ P s) ?_
    ⟨⟨h,hb⟩,hs⟩ hr
  · exact ⟨hall.1.1,hall.2⟩
  · intro e s u hs he
    have hn := notices_of_exec he
    exact ⟨⟨inv_notices hs.1.1 hs.1.2 hn,(notices_pc hn).2.trans hs.1.2⟩,hP e s u hs.1.1 hs.2 hn⟩

theorem inv_handler (h : Inv s) (hb : s.blocked = false) (hr : Runs.run Event.exec es s = some u) :
    Inv u :=
  (handler_invariant (P := fun _ => True) (fun _ _ _ _ _ _ => trivial) h hb trivial hr).1

theorem inv_addjob {bg : Bool} {pid : Int} (h : Inv s) (hpc : s.pc = .add bg cmdline pid) :
    Inv { s with
      jobs := (addjob pid (if bg then .bg else .fg) cmdline s.jobs).2, pc := .unblock bg pid } := by
  obtain ⟨hm,hn,-⟩ := h.adding bg cmdline pid hpc
  have hp : pid ≠ 0 := by
    have hok := h.pidOk
    rw [hpc] at hok
    exact hok
  have hnofg (i : Fin maxJobs) : (s.jobs.slot i).state ≠ .fg := fun hi => by
    have hfg := h.fg i hi
    rw [hpc] at hfg
    exact hfg
  have hnew (i : Fin maxJobs)
      (hi : ((addjob pid (if bg then .bg else .fg) cmdline s.jobs).2.slot i).state = .fg) :
      bg = false ∧ ((addjob pid (if bg then .bg else .fg) cmdline s.jobs).2.slot i).pid = pid := by
    obtain ⟨he,-⟩ | ⟨-,k,-,he⟩ := addjob_spec pid (if bg then .bg else .fg) cmdline s.jobs
    · rw [he] at hi
      exact absurd hi (hnofg i)
    · rw [he] at hi ⊢
      rcases eq_or_ne i k with rfl | hik
      · simp only [setSlot_self] at hi ⊢
        cases bg with
        | false => exact ⟨rfl,trivial⟩
        | true => cases hi
      · simp only [setSlot_ne hik] at hi
        exact absurd hi (hnofg i)
  have htab := tabled_addjob (if bg then .bg else .fg) cmdline h.tabled hm hn
    (by cases bg <;> simp)
  refine ⟨htab,fun _ => h.blocks (hpc ▸ trivial),hp,fun _ _ _ he => ?_,hnew,fun i j hi hj => ?_⟩
  · cases he
  · have hpi := (hnew i hi).2
    exact htab.distinct i j (hpi.trans (hnew j hj).2.symm) (by omega)

theorem inv_assign {fg : Bool} (h : Inv s) (hpc : s.pc = .assign fg i) :
    Inv { s with
      jobs := setSlot i { s.jobs.slot i with state := if fg then .fg else .bg } s.jobs
      pc := if fg then .arg i else .prompt } := by
  have hnofg (j : Fin maxJobs) : (s.jobs.slot j).state ≠ .fg := fun hj => by
    have hfg := h.fg j hj
    rw [hpc] at hfg
    exact hfg
  have hnew (j : Fin maxJobs) (hj : ((setSlot i { s.jobs.slot i with
      state := if fg then .fg else .bg } s.jobs).slot j).state = .fg) : fg = true ∧ j = i := by
    rcases eq_or_ne j i with rfl | hji
    · simp only [setSlot_self] at hj
      cases fg with
      | false => cases hj
      | true => exact ⟨rfl,rfl⟩
    · rw [setSlot_ne hji] at hj
      exact absurd hj (hnofg j)
  refine ⟨tabled_setState h.tabled (by cases fg <;> simp),?_,?_,?_,fun j hj => ?_,
    fun j k hj hk => (hnew j hj).2.trans (hnew k hk).2.symm⟩
  · cases fg <;> exact fun hb => hb.elim
  · cases fg <;> trivial
  · cases fg <;> exact fun _ _ _ he => by cases he
  · obtain ⟨rfl,rfl⟩ := hnew j hj
    exact rfl

theorem inv_fork {bg : Bool} {pid : Int} (h : Inv s) (hpc : s.pc = .fork bg cmdline)
    (hp : 0 < pid) (hn : pid ∉ s.children) :
    Inv { s with
      children := s.children.insert pid ⟨false,.running⟩, pc := .add bg cmdline pid } := by
  refine ⟨tabled_insert h.tabled hp _,fun _ => h.blocks (hpc ▸ trivial),
    fun h0 => by simp [h0] at hp,fun bg' cmdline' pid' he => ?_,fun i hi => ?_,h.fgUnique⟩
  · cases he
    refine ⟨fun _ => (AList.mem_insert _).mpr (.inl rfl),fun i hi => hn ?_,fun ch hch hst => ?_⟩
    · exact hi ▸ h.tabled.live i (by rw [hi]; omega)
    · obtain rfl := Option.some.inj ((AList.lookup_insert _).symm.trans hch)
      cases hst
  · have hfg := h.fg i hi
    rw [hpc] at hfg
    exact hfg.elim

theorem inv_steps (h : Inv s) (ha : Steps a s u) : Inv u := by
  have hnofg (hpc : ∀ i, ¬ s.pc.mayFg s.jobs i) (pc : Pc) :
      ∀ i, (s.jobs.slot i).state = .fg → pc.mayFg s.jobs i :=
    fun i hi => absurd (h.fg i hi) (hpc i)
  cases ha with
  | @read _ cmdline argv bg hpc =>
    have hf := hnofg (fun i hi => by rw [hpc] at hi; exact hi) (eval cmdline argv bg)
    obtain he | he | ⟨fg,arg,he⟩ | he := eval_cases cmdline argv bg <;> rw [he] at hf ⊢
    · exact inv_idle h id trivial hf
    · exact inv_idle h id trivial hf
    · exact inv_idle h id trivial hf
    · exact inv_idle h id trivial hf
  | eof hpc => exact inv_exited h
  | block hpc =>
    refine ⟨h.tabled,fun _ => rfl,trivial,fun _ _ _ he => ?_,
      hnofg (fun i hi => by rw [hpc] at hi; exact hi) _,h.fgUnique⟩
    cases he
  | noFork hpc =>
    refine inv_setPc h (fun _ => h.blocks (hpc ▸ trivial)) (by simp [Pc.pidOk]) ?_
      (hnofg (fun i hi => by rw [hpc] at hi; exact hi) _)
    intro bg' cmdline' pid' he
    cases he
    refine ⟨fun h1 => by omega,fun i hi => ?_,fun ch hch => ?_⟩
    · have hb := h.tabled.born _ (h.tabled.live i (by omega))
      omega
    · have hb := h.tabled.born _ (mem_of_lookup hch)
      omega
  | fork hpc hp hn => exact inv_fork h hpc hp hn
  | add hpc => exact inv_addjob h hpc
  | @unblock _ bg pid hpc =>
    have hok := h.pidOk
    refine ⟨h.tabled,?_,?_,?_,fun i hi => ?_,h.fgUnique⟩
    · cases bg <;> exact fun hb => hb.elim
    · cases bg <;> trivial
    · cases bg <;> exact fun _ _ _ he => by cases he
    · have hfg := h.fg i hi
      rw [hpc] at hfg
      obtain ⟨rfl,hp⟩ := hfg
      exact hp
  | @bgfg _ fg arg hpc =>
    have hf := hnofg (fun i hi => by rw [hpc] at hi; exact hi) (lookupJob fg arg s.jobs)
    obtain he | ⟨i,he,-⟩ := lookupJob_cases fg arg s.jobs <;> rw [he] at hf ⊢
    · exact inv_idle h id trivial hf
    · exact inv_idle h id trivial hf
  | @kill _ fg i hpc hk =>
    have hc := inv_continueGroup h (s.jobs.slot i).pid
    refine inv_idle hc id trivial fun j hj => ?_
    rw [continueGroup_jobs] at hj
    have hfg := h.fg j hj
    rw [hpc] at hfg
    exact hfg.elim
  | noKill hpc => exact inv_exited h
  | assign hpc => exact inv_assign h hpc
  | @arg _ i hpc =>
    refine inv_idle h id trivial fun j hj => ?_
    have hfg := h.fg j hj
    rw [hpc] at hfg
    obtain rfl := hfg
    exact rfl
  | waiting hpc hf => exact h
  | @waited _ pid hpc hf =>
    refine inv_idle h id trivial fun i hi => hf ?_
    obtain ⟨j,hj,he⟩ := fgpid_of_fg hi
    have hfg := h.fg j hj
    rw [hpc] at hfg
    exact he.trans hfg
  | sigchld hb hr hw => exact inv_handler h hb hr
  | keyboard => exact h
  | keyboardExit hf => exact inv_exited h
  | child hc => exact inv_change h (notices_of_exec hc)

theorem inv_run {acts : List Act} (hr : run acts start = some s) : Inv s :=
  Runs.run_invariant (fun _ _ _ h ha => inv_steps h (steps_of_step ha)) inv_start hr

end Tsh
