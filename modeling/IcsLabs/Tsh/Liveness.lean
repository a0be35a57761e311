import IcsLabs.Tsh.Contract
import Mathlib.Data.List.Count

namespace Tsh

def Child.Dead (ch : Child) : Prop := ch.status = .exited ∨ ch.status = .signaled

-- fg on a job that is gone, or whose child has died outside its group, ends in waitfg(0)
def Doomed (s : Shell) : Prop :=
  match s.pc with
  | .exited => True
  | .wait pid => pid = 0
  | .arg i | .assign true i => (s.jobs.slot i).pid = 0
  | .kill true i => (s.jobs.slot i).pid = 0 ∨
    ∃ ch, s.children.lookup (s.jobs.slot i).pid = some ch ∧ ch.joined = false ∧ ch.Dead
  | _ => False

-- SIGCHLD is blocked only where eval has blocked it
structure Sane (s : Shell) : Prop where
  inv : Inv s
  mask : s.pc = .exited ∨ s.pc.blocks ∨ s.blocked = false

-- how many children waitpid has yet to report
def waiting (s : Shell) : Nat := s.children.entries.countP fun e => waitable e.2.status

variable {s t u : Shell} {a : Act} {e : Event} {es : List Event} {pid : Int} {i : Fin maxJobs}
  {ch : Child} {fg bg : Bool}

section Handler

theorem countP_erase (p : (Σ _ : Int, Child) → Bool) (h : s.children.lookup pid = some ch) :
    s.children.entries.countP p = (s.children.erase pid).entries.countP p + (p ⟨pid,ch⟩).toNat := by
  obtain ⟨b,l,r,-,hl,hr⟩ := List.exists_of_kerase (AList.mem_keys.mp (mem_of_lookup h))
  have hmem : (⟨pid,b⟩ : Σ _ : Int, Child) ∈ s.children.entries := by rw [hl]; simp
  obtain rfl := Option.some.inj ((AList.mem_lookup_iff.mpr hmem).symm.trans h)
  change _ = (s.children.entries.kerase pid).countP p + _
  rw [hr,hl,List.countP_append,List.countP_append,List.countP_cons,← Nat.add_assoc]
  cases p ⟨pid,b⟩ <;> rfl

theorem countP_insert (p : (Σ _ : Int, Child) → Bool) (h : s.children.lookup pid = some ch)
    (ch' : Child) : (s.children.insert pid ch').entries.countP p + (p ⟨pid,ch⟩).toNat =
      s.children.entries.countP p + (p ⟨pid,ch'⟩).toNat := by
  rw [countP_erase p h,AList.entries_insert,List.countP_cons]
  change (s.children.erase pid).entries.countP p + _ + _ = _
  cases p ⟨pid,ch'⟩ <;> cases p ⟨pid,ch⟩ <;> simp

theorem not_waitable (hw : waiting s = 0) (h : s.children.lookup pid = some ch) :
    waitable ch.status = false := by
  have hm := AList.mem_lookup_iff.mp h
  simpa using List.countP_eq_zero.mp hw _ hm

theorem exists_notice (hw : waiting s ≠ 0) :
    ∃ pid t, (Event.notice pid).exec s = some t ∧ waiting s = waiting t + 1 := by
  obtain ⟨⟨pid,ch⟩,hm,hp⟩ := List.countP_pos_iff.mp (Nat.pos_of_ne_zero hw)
  have hl : s.children.lookup pid = some ch := AList.mem_lookup_iff.mpr hm
  obtain ⟨g,st⟩ := ch
  have herase := countP_erase (fun e => waitable e.2.status) hl
  have hinsert := countP_insert (fun e => waitable e.2.status) hl ⟨g,.stopped true⟩
  refine ⟨pid,?_⟩
  cases st with
  | running => cases hp
  | stopped noticed =>
    cases noticed with
    | true => cases hp
    | false =>
      exact ⟨{ s with
        jobs := markStopped pid s.jobs
        children := s.children.insert pid ⟨g,.stopped true⟩ },by simp only [Event.exec,hl],hinsert.symm⟩
  | exited | signaled =>
    exact ⟨{ s with jobs := (deletejob pid s.jobs).2, children := s.children.erase pid },
      by simp only [Event.exec,hl],herase⟩

theorem exists_handler (s : Shell) : ∃ es t, Runs.run Event.exec es s = some t ∧ waiting t = 0 := by
  generalize hn : waiting s = n
  induction n generalizing s with
  | zero => exact ⟨[],s,rfl,hn⟩
  | succ n ih =>
    obtain ⟨pid,t,ht,hw⟩ := exists_notice (s := s) (by omega)
    obtain ⟨es,u,hu,h0⟩ := ih t (by omega)
    exact ⟨.notice pid :: es,u,Runs.run_cons.mpr ⟨t,ht,hu⟩,h0⟩

theorem exists_sigchld (hb : s.blocked = false) (hpc : s.pc ≠ .exited) :
    ∃ es t, step (.sigchld es) s = some t ∧ Runs.run Event.exec es s = some t ∧ waiting t = 0 := by
  obtain ⟨es,t,hr,hw⟩ := exists_handler s
  refine ⟨es,t,?_,hr,hw⟩
  have hno : t.children.entries.any (fun e => waitable e.2.status) = false := by
    rw [List.any_eq_false]
    exact List.countP_eq_zero.mp hw
  rw [step,if_pos ⟨hb,hpc⟩,sigchldHandler,hr]
  simp [hno]

theorem waiting_of_any (h : t.children.entries.any (fun e => waitable e.2.status) = false) :
    waiting t = 0 :=
  List.countP_eq_zero.mpr (List.any_eq_false.mp h)

theorem handler_pc (hr : Runs.run Event.exec es s = some t) : t.pc = s.pc ∧ t.blocked = s.blocked :=
  Runs.run_invariant (I := fun t => t.pc = s.pc ∧ t.blocked = s.blocked)
    (fun _ _ _ h he =>
      have hn := notices_pc (notices_of_exec he)
      ⟨hn.1.trans h.1,hn.2.trans h.2⟩) ⟨rfl,rfl⟩ hr

theorem dead_of_notices (hl : s.children.lookup pid = some ch) (hd : ch.Dead) (he : Notices e s t) :
    pid ∉ t.children ∨ t.children.lookup pid = some ch := by
  have hsame (q : Int) (ch' : Child) (hq : q ≠ pid) :
      (s.children.insert q ch').lookup pid = some ch := by
    rw [AList.lookup_insert_ne (Ne.symm hq),hl]
  cases he with
  | @reap _ q _ hq hdq =>
    by_cases hqp : q = pid
    · exact .inl fun h => (AList.mem_erase.mp h).1 hqp.symm
    · exact .inr (by rw [AList.lookup_erase_ne (Ne.symm hqp),hl])
  | @stop _ q g hq =>
    refine .inr (hsame q _ ?_)
    rintro rfl
    obtain rfl := Option.some.inj (hl.symm.trans hq)
    rcases hd with h | h <;> cases h
  | @change _ q c ch1 ch2 hq hc =>
    refine .inr (hsame q _ ?_)
    rintro rfl
    obtain rfl := Option.some.inj (hl.symm.trans hq)
    obtain ⟨g,st⟩ := ch
    rcases hd with rfl | rfl <;> cases c <;> cases hc

theorem gone_of_dead (hl : s.children.lookup pid = some ch) (hd : ch.Dead)
    (hr : Runs.run Event.exec es s = some t) (hw : waiting t = 0) : pid ∉ t.children := by
  have hor : pid ∉ t.children ∨ t.children.lookup pid = some ch :=
    Runs.run_invariant (I := fun t => pid ∉ t.children ∨ t.children.lookup pid = some ch)
      (fun _ _ _ h he => h.elim (fun hn => .inl (gone_of_notices hn (notices_of_exec he)))
        fun hl => dead_of_notices hl hd (notices_of_exec he)) (.inr hl) hr
  refine hor.resolve_right fun hl => ?_
  have hno := not_waitable hw hl
  rcases hd with h | h <;> rw [h] at hno <;> cases hno

theorem slot_of_handler (hr : Runs.run Event.exec es s = some t) (i : Fin maxJobs) :
    (t.jobs.slot i).pid = (s.jobs.slot i).pid ∨ (t.jobs.slot i).pid = 0 := by
  refine Runs.run_invariant
    (I := fun t => (t.jobs.slot i).pid = (s.jobs.slot i).pid ∨ (t.jobs.slot i).pid = 0) ?_ (.inl rfl) hr
  intro e v w h he
  obtain hv | ⟨hv,-⟩ | hv := notices_slot (notices_of_exec he) i
  · rw [hv]
    exact h
  · rw [hv]
    exact h
  · exact .inr (by rw [hv]; rfl)

end Handler

section Sane

theorem sane_steps (h : Sane s) (hs : Steps a s t) : Sane t := by
  refine ⟨inv_steps h.inv hs,?_⟩
  have hfree (hp : ¬ s.pc.blocks) (hx : s.pc ≠ .exited) : s.blocked = false :=
    (h.mask.resolve_left hx).resolve_left hp
  cases hs with
  | read hpc => exact .inr (.inr (hfree (by rw [hpc]; exact id) (by rw [hpc]; nofun)))
  | eof | noKill | keyboardExit => exact .inl rfl
  | block | noFork | fork | add => exact .inr (.inl trivial)
  | unblock => exact .inr (.inr rfl)
  | bgfg hpc | arg hpc | waited hpc | assign hpc =>
    exact .inr (.inr (hfree (by rw [hpc]; exact id) (by rw [hpc]; nofun)))
  | @kill _ fg i hpc hk =>
    refine .inr (.inr ?_)
    rw [continueGroup_eq]
    exact hfree (by rw [hpc]; exact id) (by rw [hpc]; nofun)
  | waiting | keyboard => exact h.mask
  | sigchld hb hr hw =>
    obtain ⟨hpc,hbl⟩ := handler_pc hr
    exact .inr (.inr (hbl.trans hb))
  | child hc =>
    obtain ⟨hpc,hbl⟩ := notices_pc (notices_of_exec hc)
    rw [hpc,hbl]
    exact h.mask

theorem sane_step (h : Sane s) (hs : step a s = some t) : Sane t := sane_steps h (steps_of_step hs)

theorem sane_run {acts : List Act} (hr : run acts start = some s) : Sane s :=
  Runs.run_invariant (fun _ _ _ h hs => sane_step h hs) ⟨inv_start,.inr (.inr rfl)⟩ hr

theorem Sane.unblocked (h : Sane s) (hp : ¬ s.pc.blocks) (hx : s.pc ≠ .exited) : s.blocked = false :=
  (h.mask.resolve_left hx).resolve_left hp

end Sane

section Doomed

theorem fgpid_of_wait (h : Inv s) (hpc : s.pc = .wait pid) : fgpid s.jobs = 0 ∨ fgpid s.jobs = pid := by
  by_cases h0 : fgpid s.jobs = 0
  · exact .inl h0
  · obtain ⟨i,hi⟩ := fg_of_fgpid h0
    obtain ⟨j,hj,he⟩ := fgpid_of_fg hi
    have hm := h.fg j hj
    rw [hpc] at hm
    exact .inr (he.trans hm)

theorem doomed_sigchld (h : Inv s) (hd : Doomed s) (hb : s.blocked = false)
    (hr : Runs.run Event.exec es s = some t) (hw : waiting t = 0) : Doomed t := by
  have ht := inv_handler h hb hr
  have hslot (i : Fin maxJobs) (h0 : (s.jobs.slot i).pid = 0) : (t.jobs.slot i).pid = 0 :=
    (slot_of_handler hr i).elim (fun he => he.trans h0) id
  rw [Doomed] at hd ⊢
  rw [(handler_pc hr).1]
  split at hd
  · trivial
  · exact hd
  · exact hslot _ hd
  · exact hslot _ hd
  · rename_i i hpc
    left
    obtain h0 | ⟨ch,hl,-,hdead⟩ := hd
    · exact hslot _ h0
    · refine (slot_of_handler hr i).resolve_left fun he => gone_of_dead hl hdead hr hw ?_
      have hpos := h.tabled.born _ (mem_of_lookup hl)
      exact he ▸ ht.tabled.live i (by omega)
  · exact hd

theorem doomed_steps (h : Inv s) (hd : Doomed s) (hs : Steps a s t) : Doomed t := by
  cases hs with
  | read hpc | eof hpc | block hpc | noFork hpc | bgfg hpc | add hpc | unblock hpc =>
    rw [Doomed,hpc] at hd
    exact hd.elim
  | fork hpc hp hn =>
    rw [Doomed,hpc] at hd
    exact hd.elim
  | @kill _ fg i hpc hk =>
    rw [Doomed,hpc] at hd
    cases fg with
    | false => exact hd.elim
    | true =>
      rw [continueGroup_eq]
      obtain h0 | ⟨ch,hl,hj,-⟩ := hd
      · exact h0
      · rw [killReturns,hl] at hk
        simp [hj] at hk
  | noKill | keyboardExit => trivial
  | @assign _ fg i hpc =>
    rw [Doomed,hpc] at hd
    cases fg with
    | false => exact hd.elim
    | true => simpa [Doomed] using hd
  | arg hpc =>
    rw [Doomed,hpc] at hd
    exact hd
  | waiting | keyboard => exact hd
  | @waited _ pid hpc hf =>
    have hw := fgpid_of_wait h hpc
    rw [Doomed,hpc] at hd
    change pid = 0 at hd
    rw [hd] at hw hf
    exact absurd (hw.elim id id) hf
  | sigchld hb hr hw => exact doomed_sigchld h hd hb hr (waiting_of_any hw)
  | @child _ _ q c hc =>
    cases notices_of_exec hc with
    | @change _ _ _ ch1 ch2 hq hap =>
      rw [Doomed] at hd ⊢
      simp only
      split at hd
      · trivial
      · exact hd
      · exact hd
      · exact hd
      · rename_i i hpc
        obtain h0 | ⟨ch,hl,hj,hdead⟩ := hd
        · exact .inl h0
        · obtain hn | hl' := dead_of_notices hl hdead (notices_of_exec hc)
          · exact absurd ((mem_insert_same hq).mpr (mem_of_lookup hl)) hn
          · exact .inr ⟨ch,hl',hj,hdead⟩
      · exact hd

end Doomed

-- some steps lead back to where main reads a command
def Returns (s : Shell) : Prop := Runs.Reaches step (fun t => t.pc = .prompt) s

section Returns

variable {bg : Bool} {cmdline : List Char} {arg : List Char}

theorem returns_waited (hpc : s.pc = .wait pid) (hf : fgpid s.jobs ≠ pid) : Returns s := by
  have hs : step .main s = some { s with pc := .prompt } := by
    rw [step,mainStep,hpc]
    exact congrArg some (if_neg hf)
  exact .next hs (.here rfl)

theorem gone_fgpid (h : Inv t) (hp : 0 < pid) (hn : pid ∉ t.children) : fgpid t.jobs ≠ pid := by
  intro he
  obtain ⟨i,hi⟩ := fg_of_fgpid (t := t.jobs) (by omega)
  obtain ⟨j,hj,hf⟩ := fgpid_of_fg hi
  have hpid : (t.jobs.slot j).pid = pid := hf.symm.trans he
  exact hn (hpid ▸ h.tabled.live j (by omega))

theorem returns_dead (h : Sane s) (hpc : s.pc = .wait pid) (hl : s.children.lookup pid = some ch)
    (hd : ch.Dead) : Returns s := by
  have hb : s.blocked = false := h.unblocked (by rw [hpc]; exact id) (by rw [hpc]; nofun)
  obtain ⟨es,t,hs,hr,hw⟩ := exists_sigchld hb (by rw [hpc]; nofun)
  have ht : t.pc = .wait pid := (handler_pc hr).1.trans hpc
  have hf : fgpid t.jobs ≠ pid := gone_fgpid (sane_step h hs).inv
    (h.inv.tabled.born _ (mem_of_lookup hl)) (gone_of_dead hl hd hr hw)
  exact .next hs (returns_waited ht hf)

theorem returns_wait (h : Sane s) (hpc : s.pc = .wait pid) (hp : pid ≠ 0) : Returns s := by
  by_cases hf : fgpid s.jobs = pid
  · obtain ⟨i,hi⟩ := fg_of_fgpid (t := s.jobs) (by omega)
    obtain ⟨j,hj,he⟩ := fgpid_of_fg hi
    have hpid : (s.jobs.slot j).pid = pid := he.symm.trans hf
    have hm : pid ∈ s.children := hpid ▸ h.inv.tabled.live j (by omega)
    obtain ⟨⟨g,st⟩,hl⟩ := Option.isSome_iff_exists.mp (AList.lookup_isSome.mpr hm)
    have hkill (hc : Change.apply .signal ⟨g,st⟩ = some ⟨g,.signaled⟩) : Returns s := by
      have hs : step (.child pid .signal) s =
          some { s with children := s.children.insert pid ⟨g,.signaled⟩ } := by
        simp only [step,Event.exec,hl,Option.bind_some,hc,Option.map_some]
      exact .next hs (returns_dead (sane_step h hs) hpc (AList.lookup_insert _) (.inr rfl))
    cases st with
    | running | stopped noticed => exact hkill rfl
    | exited => exact returns_dead h hpc hl (.inl rfl)
    | signaled => exact returns_dead h hpc hl (.inr rfl)
  · exact returns_waited hpc hf

theorem returns_unblock (h : Sane s) (hpc : s.pc = .unblock bg pid) : Returns s := by
  have hs : step .main s =
      some { s with blocked := false, pc := if bg then .prompt else .wait pid } := by
    rw [step,mainStep,hpc]
  have hp : pid ≠ 0 := by
    have hok := h.inv.pidOk
    rw [hpc] at hok
    exact hok
  refine .next hs ?_
  cases bg with
  | true => exact .here rfl
  | false => exact returns_wait (sane_step h hs) rfl hp

theorem returns_add (h : Sane s) (hpc : s.pc = .add bg cmdline pid) : Returns s := by
  have hs : step .main s = some { s with
      jobs := (addjob pid (if bg then .bg else .fg) cmdline s.jobs).2
      pc := .unblock bg pid } := by
    rw [step,mainStep,hpc]
  exact .next hs (returns_unblock (sane_step h hs) rfl)

theorem returns_fork (h : Sane s) (hpc : s.pc = .fork bg cmdline) : Returns s := by
  have hs : step (.fork (-1)) s = some { s with pc := .add bg cmdline (-1) } := by
    simp only [step,hpc,if_true]
  exact .next hs (returns_add (sane_step h hs) rfl)

theorem returns_block (h : Sane s) (hpc : s.pc = .block bg cmdline) : Returns s := by
  have hs : step .main s = some { s with blocked := true, pc := .fork bg cmdline } := by
    rw [step,mainStep,hpc]
  exact .next hs (returns_fork (sane_step h hs) rfl)

theorem returns_arg (h : Sane s) (hpc : s.pc = .arg i) (hp : (s.jobs.slot i).pid ≠ 0) : Returns s := by
  have hs : step .main s = some { s with pc := .wait (s.jobs.slot i).pid } := by
    rw [step,mainStep,hpc]
  exact .next hs (returns_wait (sane_step h hs) rfl hp)

theorem returns_assign (h : Sane s) (hpc : s.pc = .assign fg i)
    (hp : fg = true → (s.jobs.slot i).pid ≠ 0) : Returns s := by
  have hs : step .main s = some { s with
      jobs := setSlot i { s.jobs.slot i with state := if fg then .fg else .bg } s.jobs
      pc := if fg then .arg i else .prompt } := by
    rw [step,mainStep,hpc]
  refine .next hs ?_
  cases fg with
  | true => exact returns_arg (sane_step h hs) rfl (by simpa using hp rfl)
  | false => exact .here rfl

theorem returns_killed (h : Sane s) (hpc : s.pc = .kill fg i)
    (hk : killReturns (s.jobs.slot i).pid true s = true)
    (hp : fg = true → (s.jobs.slot i).pid ≠ 0) : Returns s := by
  have hs : step (.kill true) s =
      some { continueGroup (s.jobs.slot i).pid s with pc := .assign fg i } := by
    simp only [step,hpc,hk,if_true]
  refine .next hs (returns_assign (sane_step h hs) rfl ?_)
  rw [continueGroup_eq]
  exact hp

-- a slot that is clear: kill(0, SIGCONT) is no error
theorem returns_cleared (h : Sane s) (hpc : s.pc = .kill false i) (h0 : (s.jobs.slot i).pid = 0) :
    Returns s := by
  refine returns_killed h hpc ?_ nofun
  have hn : s.children.lookup 0 = none := AList.lookup_eq_none.mpr fun hm =>
    absurd (h.inv.tabled.born 0 hm) (lt_irrefl _)
  rw [killReturns,h0,hn]
  rfl

theorem returns_kill (h : Sane s) (hpc : s.pc = .kill fg i) (hd : ¬ Doomed s) : Returns s := by
  have hb : s.blocked = false := h.unblocked (by rw [hpc]; exact id) (by simp [hpc])
  by_cases h0 : (s.jobs.slot i).pid = 0
  · cases fg with
    | true => exact absurd (by rw [Doomed,hpc]; exact .inl h0) hd
    | false => exact returns_cleared h hpc h0
  · have hm := h.inv.tabled.live i h0
    obtain ⟨⟨g,st⟩,hl⟩ := Option.isSome_iff_exists.mp (AList.lookup_isSome.mpr hm)
    have hjoined {u : Shell} {st : Status} (hu : Sane u) (hj : u.jobs = s.jobs)
        (hpu : u.pc = .kill fg i)
        (hlu : u.children.lookup (u.jobs.slot i).pid = some ⟨true,st⟩) : Returns u := by
      refine returns_killed hu hpu ?_ fun _ => hj ▸ h0
      rw [killReturns,hlu]
      rfl
    cases g with
    | true => exact hjoined h rfl hpc hl
    | false =>
      have hjoin {u : Shell} (hu : Sane u) (hj : u.jobs = s.jobs) (hpu : u.pc = .kill fg i)
          (hlu : u.children.lookup (u.jobs.slot i).pid = some ⟨false,.running⟩) : Returns u := by
        have hs : step (.child (u.jobs.slot i).pid .join) u = some { u with
            children := u.children.insert (u.jobs.slot i).pid ⟨true,.running⟩ } := by
          simp only [step,Event.exec,hlu,Option.bind_some,Change.apply,Option.map_some]
        exact .next hs (hjoined (sane_step hu hs) hj hpu (AList.lookup_insert _))
      have hdead (hst : Child.Dead ⟨false,st⟩) : Returns s := by
        cases fg with
        | true => exact absurd (by rw [Doomed,hpc]; exact .inr ⟨_,hl,rfl,hst⟩) hd
        | false =>
          obtain ⟨es,t,hs,hr,hw⟩ := exists_sigchld hb (by simp [hpc])
          have ht := sane_step h hs
          have hclear : (t.jobs.slot i).pid = 0 :=
            (slot_of_handler hr i).resolve_left fun he =>
              gone_of_dead hl hst hr hw (he ▸ ht.inv.tabled.live i (by omega))
          exact .next hs (returns_cleared ht ((handler_pc hr).1.trans hpc) hclear)
      cases st with
      | running => exact hjoin h rfl hpc hl
      | stopped noticed =>
        have hs : step (.child (s.jobs.slot i).pid .cont) s = some { s with
            children := s.children.insert (s.jobs.slot i).pid ⟨false,.running⟩ } := by
          simp only [step,Event.exec,hl,Option.bind_some,Change.apply,Option.map_some]
        exact .next hs (hjoin (sane_step h hs) rfl hpc (AList.lookup_insert _))
      | exited => exact hdead (.inl rfl)
      | signaled => exact hdead (.inr rfl)

-- do_bgfg finds only jobs that are there; their children live once the handler has run
theorem returns_bgfg (h : Sane s) (hpc : s.pc = .bgfg fg arg) : Returns s := by
  have hb : s.blocked = false := h.unblocked (by rw [hpc]; exact id) (by rw [hpc]; nofun)
  obtain ⟨es,t,hs,hr,hw⟩ := exists_sigchld hb (by rw [hpc]; nofun)
  have ht := sane_step h hs
  have htpc : t.pc = .bgfg fg arg := (handler_pc hr).1.trans hpc
  have hm : step .main t = some { t with pc := lookupJob fg arg t.jobs } := by
    rw [step,mainStep,htpc]
  have hsane := sane_step ht hm
  refine .next hs (.next hm ?_)
  obtain he | ⟨i,he,hfind⟩ := lookupJob_cases fg arg t.jobs
  · exact .here he
  · rw [he] at hsane ⊢
    have hpid : (t.jobs.slot i).pid ≠ 0 := by
      obtain ⟨pid,hp⟩ | ⟨jid,hj⟩ := hfind
      · obtain ⟨h1,h2⟩ := getjobpid_some hp
        omega
      · obtain ⟨h1,h2⟩ := getjobjid_some hj
        intro h0
        have := ht.inv.tabled.numbered.free i h0
        omega
    refine returns_kill hsane rfl ?_
    cases fg with
    | false => exact id
    | true =>
      rintro (h0 | ⟨ch,hl,-,hd⟩)
      · exact hpid h0
      · have hno := not_waitable hw hl
        rcases hd with h | h <;> rw [h] at hno <;> cases hno

theorem returns_of_sane (h : Sane s) (hd : ¬ Doomed s) : Returns s := by
  cases hpc : s.pc with
  | prompt => exact .here hpc
  | block bg cmdline => exact returns_block h hpc
  | fork bg cmdline => exact returns_fork h hpc
  | add bg cmdline pid => exact returns_add h hpc
  | unblock bg pid => exact returns_unblock h hpc
  | bgfg fg arg => exact returns_bgfg h hpc
  | kill fg i => exact returns_kill h hpc hd
  | assign fg i =>
    refine returns_assign h hpc fun hfg h0 => hd ?_
    rw [Doomed,hpc,hfg]
    exact h0
  | arg i => exact returns_arg h hpc fun h0 => hd (by rw [Doomed,hpc]; exact h0)
  | wait pid => exact returns_wait h hpc fun h0 => hd (by rw [Doomed,hpc]; exact h0)
  | exited => exact absurd (by rw [Doomed,hpc]; trivial) hd

end Returns

theorem reaches_prompt {acts : List Act} (hr : run acts start = some s) :
    (∃ more t, run more s = some t ∧ t.pc = .prompt) ↔ ¬ Doomed s := by
  refine ⟨fun h hd => ?_,returns_of_sane (sane_run hr)⟩
  have hno : ¬ Returns s := Runs.not_reaches (I := fun s => Inv s ∧ Doomed s) ?_ ?_ ⟨inv_run hr,hd⟩
  · exact hno h
  · intro a s t hs ha
    have ht := steps_of_step ha
    exact ⟨inv_steps hs.1 ht,doomed_steps hs.1 hs.2 ht⟩
  · rintro s ⟨-,hs⟩ hpc
    rw [Doomed,hpc] at hs
    exact hs

-- waiting for a job, and waiting for one that ended around the fg
theorem reaches_prompt_fg :
    (∃ s, run fgActs start = some s ∧ ∃ more t, run more s = some t ∧ t.pc = .prompt) ∧
      ∃ s, run fgAroundExit start = some s ∧ ¬ ∃ more t, run more s = some t ∧ t.pc = .prompt := by
  obtain ⟨s,hs,hpc⟩ := exists_run fgActs (fun s => s.pc = .wait 101) (by decide +kernel)
  obtain ⟨u,hu,hwait⟩ := exists_run fgAroundExit (fun s => s.pc = .wait 0) (by decide +kernel)
  have hpc : s.pc = .wait 101 := of_decide_eq_true hpc
  have hwait : u.pc = .wait 0 := of_decide_eq_true hwait
  refine ⟨⟨s,hs,(reaches_prompt hs).mpr ?_⟩,u,hu,fun h => (reaches_prompt hu).mp h ?_⟩
  · rw [Doomed,hpc]
    exact (by decide : ¬ (101 : Int) = 0)
  · rw [Doomed,hwait]

end Tsh
