import IcsLabs.Tsh.Shell

namespace Tsh

-- what one step can do, one constructor for each branch
inductive Steps : Act → Shell → Shell → Prop
  | read {s cmdline argv bg} (h : s.pc = .prompt) :
    Steps (.read cmdline argv bg) s { s with pc := eval cmdline argv bg }
  | eof {s} (h : s.pc = .prompt) : Steps .eof s { s with pc := .exited }
  | block {s bg cmdline} (h : s.pc = .block bg cmdline) :
    Steps .main s { s with blocked := true, pc := .fork bg cmdline }
  | noFork {s bg cmdline} (h : s.pc = .fork bg cmdline) :
    Steps (.fork (-1)) s { s with pc := .add bg cmdline (-1) }
  | fork {s bg cmdline pid} (h : s.pc = .fork bg cmdline) (hp : 0 < pid) (hn : pid ∉ s.children) :
    Steps (.fork pid) s { s with
      children := s.children.insert pid ⟨false,.running⟩, pc := .add bg cmdline pid }
  | add {s bg cmdline pid} (h : s.pc = .add bg cmdline pid) :
    Steps .main s { s with
      jobs := (addjob pid (if bg then .bg else .fg) cmdline s.jobs).2, pc := .unblock bg pid }
  | unblock {s bg pid} (h : s.pc = .unblock bg pid) :
    Steps .main s { s with blocked := false, pc := if bg then .prompt else .wait pid }
  | bgfg {s fg arg} (h : s.pc = .bgfg fg arg) :
    Steps .main s { s with pc := lookupJob fg arg s.jobs }
  | kill {s fg i} (h : s.pc = .kill fg i) (hk : killReturns (s.jobs.slot i).pid true s = true) :
    Steps (.kill true) s { continueGroup (s.jobs.slot i).pid s with pc := .assign fg i }
  | noKill {s fg i} (h : s.pc = .kill fg i) : Steps (.kill false) s { s with pc := .exited }
  | assign {s fg i} (h : s.pc = .assign fg i) :
    Steps .main s { s with
      jobs := setSlot i { s.jobs.slot i with state := if fg then .fg else .bg } s.jobs
      pc := if fg then .arg i else .prompt }
  | arg {s i} (h : s.pc = .arg i) : Steps .main s { s with pc := .wait (s.jobs.slot i).pid }
  | waiting {s pid} (h : s.pc = .wait pid) (hf : fgpid s.jobs = pid) : Steps .main s s
  | waited {s pid} (h : s.pc = .wait pid) (hf : fgpid s.jobs ≠ pid) :
    Steps .main s { s with pc := .prompt }
  | sigchld {s t es} (hb : s.blocked = false) (h : Runs.run Event.exec es s = some t)
    (hw : t.children.entries.any (fun e => waitable e.2.status) = false) : Steps (.sigchld es) s t
  | keyboard {s ok} : Steps (.keyboard ok) s s
  | keyboardExit {s ok} (hf : fgpid s.jobs ≠ 0) :
    Steps (.keyboard ok) s { s with pc := .exited }
  | child {s t pid c} (h : (Event.change pid c).exec s = some t) : Steps (.child pid c) s t

-- what one event of a handler run can do
inductive Notices : Event → Shell → Shell → Prop
  | reap {s pid ch} (h : s.children.lookup pid = some ch)
    (hd : ch.status = .exited ∨ ch.status = .signaled) :
    Notices (.notice pid) s { s with
      jobs := (deletejob pid s.jobs).2, children := s.children.erase pid }
  | stop {s pid g} (h : s.children.lookup pid = some ⟨g,.stopped false⟩) :
    Notices (.notice pid) s { s with
      jobs := markStopped pid s.jobs, children := s.children.insert pid ⟨g,.stopped true⟩ }
  | change {s pid c ch ch'} (h : s.children.lookup pid = some ch) (hc : c.apply ch = some ch') :
    Notices (.change pid c) s { s with children := s.children.insert pid ch' }

variable {s t : Shell} {a : Act} {e : Event} {es : List Event} {pid : Int} {i : Fin maxJobs}

theorem steps_main (h : mainStep s = some t) : Steps .main s t := by
  rw [mainStep] at h
  split at h
  case h_1 bg cmdline hpc => exact Option.some.inj h ▸ .block hpc
  case h_2 bg cmdline pid hpc => exact Option.some.inj h ▸ .add hpc
  case h_3 bg pid hpc => exact Option.some.inj h ▸ .unblock hpc
  case h_4 fg arg hpc => exact Option.some.inj h ▸ .bgfg hpc
  case h_5 fg i hpc => exact Option.some.inj h ▸ .assign hpc
  case h_6 i hpc => exact Option.some.inj h ▸ .arg hpc
  case h_7 pid hpc =>
    by_cases hf : fgpid s.jobs = pid
    · rw [if_pos hf] at h
      exact Option.some.inj h ▸ .waiting hpc hf
    · rw [if_neg hf] at h
      exact Option.some.inj h ▸ .waited hpc hf
  case h_8 => cases h

theorem steps_fork (h : step (.fork pid) s = some t) : Steps (.fork pid) s t := by
  simp only [step] at h
  split at h
  case h_1 bg cmdline hpc =>
    split at h
    · rename_i hp
      subst hp
      exact Option.some.inj h ▸ .noFork hpc
    · split at h
      · rename_i hp
        exact Option.some.inj h ▸ .fork hpc hp.1 hp.2
      · cases h
  case h_2 => cases h

theorem steps_kill {ok : Bool} (h : step (.kill ok) s = some t) : Steps (.kill ok) s t := by
  simp only [step] at h
  split at h
  case h_1 fg i hpc =>
    split at h
    · rename_i hk
      cases ok with
      | true => exact Option.some.inj h ▸ .kill hpc hk
      | false => exact Option.some.inj h ▸ .noKill hpc
    · cases h
  case h_2 => cases h

theorem steps_sigchld (h : step (.sigchld es) s = some t) : Steps (.sigchld es) s t := by
  simp only [step] at h
  split at h
  · rename_i hb
    obtain ⟨u,hu,h⟩ := Option.bind_eq_some_iff.mp h
    split at h
    · cases h
    · rename_i hw
      obtain rfl := Option.some.inj h
      exact .sigchld hb.1 hu (Bool.eq_false_of_not_eq_true hw)
  · cases h

theorem steps_keyboard {ok : Bool} (h : step (.keyboard ok) s = some t) :
    Steps (.keyboard ok) s t := by
  simp only [step] at h
  split at h
  · cases h
  · split at h
    · exact Option.some.inj h ▸ .keyboard
    · rename_i hf
      split at h
      · cases ok with
        | true => exact Option.some.inj h ▸ .keyboard
        | false => exact Option.some.inj h ▸ .keyboardExit hf
      · cases h

theorem steps_of_step (h : step a s = some t) : Steps a s t := by
  cases a with
  | read cmdline argv bg =>
    simp only [step] at h
    split at h
    · exact Option.some.inj h ▸ .read ‹_›
    · cases h
  | eof =>
    simp only [step] at h
    split at h
    · exact Option.some.inj h ▸ .eof ‹_›
    · cases h
  | main => exact steps_main h
  | fork pid => exact steps_fork h
  | kill ok => exact steps_kill h
  | sigchld es => exact steps_sigchld h
  | keyboard ok => exact steps_keyboard h
  | child pid c => exact .child h

theorem notices_of_exec (h : e.exec s = some t) : Notices e s t := by
  cases e with
  | notice pid =>
    simp only [Event.exec] at h
    split at h
    case h_1 g hl => exact Option.some.inj h ▸ .reap hl (.inl rfl)
    case h_2 g hl => exact Option.some.inj h ▸ .reap hl (.inr rfl)
    case h_3 g hl => exact Option.some.inj h ▸ .stop hl
    case h_4 => cases h
  | change pid c =>
    obtain ⟨ch',hc,rfl⟩ := Option.map_eq_some_iff.mp h
    obtain ⟨ch,hl,hc⟩ := Option.bind_eq_some_iff.mp hc
    exact .change hl hc

theorem apply_status {c : Change} {ch ch' : Child} (h : c.apply ch = some ch') :
    ch'.status ≠ .stopped true := by
  obtain ⟨g,st⟩ := ch
  cases c <;> cases st <;> simp only [Change.apply,Option.some.injEq,reduceCtorEq] at h <;>
    subst h <;> simp

theorem mem_of_lookup {ch : Child} (h : s.children.lookup pid = some ch) : pid ∈ s.children :=
  AList.lookup_isSome.mp (h ▸ rfl)

theorem mem_insert_same {ch ch' : Child} {q : Int} (h : s.children.lookup pid = some ch) :
    q ∈ s.children.insert pid ch' ↔ q ∈ s.children := by
  rw [AList.mem_insert]
  constructor
  · rintro (rfl | hq)
    · exact mem_of_lookup h
    · exact hq
  · exact .inr

theorem continueGroup_eq (pid : Int) (s : Shell) :
    continueGroup pid s = { s with children := (continueGroup pid s).children } := by
  unfold continueGroup
  split <;> rfl

theorem continueGroup_jobs (pid : Int) (s : Shell) : (continueGroup pid s).jobs = s.jobs := by
  rw [continueGroup_eq]

theorem mem_continueGroup {q : Int} : q ∈ (continueGroup pid s).children ↔ q ∈ s.children := by
  unfold continueGroup
  split
  · rename_i ch h
    exact mem_insert_same h
  · exact Iff.rfl

theorem lookup_continueGroup {q : Int} {ch : Child}
    (h : (continueGroup pid s).children.lookup q = some ch) (hst : ch.status = .stopped true) :
    s.children.lookup q = some ch ∧ q ≠ pid := by
  unfold continueGroup at h
  split at h
  · rename_i ch' h'
    rcases eq_or_ne q pid with rfl | hq
    · obtain rfl := Option.some.inj ((AList.lookup_insert _).symm.trans h)
      cases hs : ch'.status <;> simp [resume,hs] at hst
    · rw [AList.lookup_insert_ne hq] at h
      exact ⟨h,hq⟩
  · rename_i h'
    refine ⟨h,?_⟩
    rintro rfl
    rw [h'] at h
    cases h

theorem markStopped_cases (pid : Int) (t : Jobs) :
    (markStopped pid t = t ∧ (pid < 1 ∨ ∀ i, (t.slot i).pid ≠ pid)) ∨
      ∃ i, (t.slot i).pid = pid ∧ markStopped pid t = setSlot i { t.slot i with state := .st } t := by
  unfold markStopped
  cases h : getjobpid pid t with
  | none =>
    refine .inl ⟨rfl,?_⟩
    by_cases hp : pid < 1
    · exact .inl hp
    · exact .inr fun i => getjobpid_none h (by omega)
  | some i => exact .inr ⟨i,(getjobpid_some h).2,rfl⟩

theorem notices_slot (h : Notices e s t) (i : Fin maxJobs) :
    t.jobs.slot i = s.jobs.slot i ∨
      (t.jobs.slot i = { s.jobs.slot i with state := .st } ∧ (s.jobs.slot i).pid ∈ s.children) ∨
        t.jobs.slot i = clearjob := by
  cases h with
  | @reap _ pid _ hl hd =>
    obtain ⟨he,-⟩ | ⟨-,k,-,he⟩ := deletejob_spec pid s.jobs
    · exact .inl (by simp only [he])
    · rcases eq_or_ne i k with rfl | hik
      · exact .inr (.inr (by simp only [he,setSlot_self]))
      · exact .inl (by simp only [he,setSlot_ne hik])
  | @stop _ pid _ hl =>
    obtain ⟨he,-⟩ | ⟨k,hk,he⟩ := markStopped_cases pid s.jobs
    · exact .inl (by simp only [he])
    · rcases eq_or_ne i k with rfl | hik
      · exact .inr (.inl ⟨by simp only [he,setSlot_self],hk ▸ mem_of_lookup hl⟩)
      · exact .inl (by simp only [he,setSlot_ne hik])
  | change hl hc => exact .inl rfl

theorem notices_pc (h : Notices e s t) : t.pc = s.pc ∧ t.blocked = s.blocked := by
  cases h <;> exact ⟨rfl,rfl⟩

theorem eval_cases (cmdline : List Char) (argv : List (List Char)) (bg : Bool) :
    eval cmdline argv bg = .prompt ∨ eval cmdline argv bg = .exited ∨
      (∃ fg arg, eval cmdline argv bg = .bgfg fg arg) ∨
        eval cmdline argv bg = .block bg cmdline := by
  unfold eval
  split
  · exact .inl rfl
  · unfold builtinCmd
    split <;> simp

theorem lookupJob_cases (fg : Bool) (arg : List Char) (t : Jobs) :
    lookupJob fg arg t = .prompt ∨
      ∃ i, lookupJob fg arg t = .kill fg i ∧
        ((∃ pid, getjobpid pid t = some i) ∨ ∃ jid, getjobjid jid t = some i) := by
  unfold lookupJob
  split
  · exact .inl rfl
  · split
    · split
      · exact .inl rfl
      · exact .inr ⟨_,rfl,.inl ⟨_,‹_›⟩⟩
    · split
      · split
        · exact .inl rfl
        · exact .inr ⟨_,rfl,.inr ⟨_,‹_›⟩⟩
      · exact .inl rfl

end Tsh
