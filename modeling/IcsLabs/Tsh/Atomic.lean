import IcsLabs.Tsh.Signals

namespace Tsh

variable {a : Act} {e : Event} {es : List Event} {s t : Shell} {w : World} {pid : Int} {ok : Bool}
  {mask : Mask}

-- no handler runs, and a group has no process but children
def World.idle (s : Shell) : World := ⟨s,none,[],fun _ => 0,false⟩

-- sigchld_handler alone, before waitpid, with nothing in its local mask
def World.reaping (mask : Mask) (s : Shell) : World :=
  ⟨s,none,[⟨mask,.wait fun _ => false⟩],fun _ => 0,false⟩

-- the world between two steps of the shell; once it has exited its handler may be left as it was
structure World.Shows (w : World) (s : Shell) : Prop where
  shell : w.shell = s
  idle : s.pc ≠ .exited → w = World.idle s

theorem shows_idle (s : Shell) : (World.idle s).Shows s := ⟨rfl,fun _ => rfl⟩

-- what waitpid reports to the handler, and what it does with it before the next waitpid
def Event.moves : Event → List Move
  | .notice pid => [.waitpid pid,.handler,.handler,.handler]
  | .change pid c => [.child pid c]

theorem run_moves (hpc : s.pc ≠ .exited) (h : e.exec s = some t) :
    World.run e.moves (World.reaping mask s) = some (World.reaping mask t) := by
  cases notices_of_exec h with
  | @reap _ pid ch hl hd =>
    obtain ⟨g,st⟩ := ch
    obtain rfl | rfl := hd
    all_goals
      simp [World.run,Runs.run,Event.moves,World.step,World.reaping,World.waitpid,World.child,
        World.handle,hpc,hl]
  | stop hl =>
    simp [World.run,Runs.run,Event.moves,World.step,World.reaping,World.waitpid,World.child,
      World.handle,hpc,hl]
  | change hl hc =>
    simp [World.run,Runs.run,Event.moves,World.step,World.reaping,h]

theorem run_events (hpc : s.pc ≠ .exited) (h : Runs.run Event.exec es s = some t) :
    t.pc ≠ .exited ∧
      World.run (es.flatMap Event.moves) (World.reaping mask s) = some (World.reaping mask t) := by
  induction es generalizing s with
  | nil =>
    obtain rfl := Option.some.inj h
    exact ⟨hpc,rfl⟩
  | cons e es ih =>
    obtain ⟨u,hu,h⟩ := Runs.run_cons.mp h
    have hpu : u.pc ≠ .exited := by
      rw [(notices_pc (notices_of_exec hu)).1]
      exact hpc
    have hm : Runs.run World.step e.moves (World.reaping mask s) = some (World.reaping mask u) :=
      run_moves hpc hu
    rw [List.flatMap_cons,World.run,Runs.run_append,hm,Option.bind_some]
    exact ih hpu h

-- kill(-pid, ..) to a job of the table, or to the shell's own group
theorem killOk_of_returns (hi : Inv s) (hp : pid = 0 ∨ pid ∈ s.children)
    (h : killReturns pid ok s = true) (call : Option Int) (fs : List Frame) :
    World.killOk pid ⟨s,call,fs,fun _ => 0,false⟩ = ok := by
  rw [killReturns] at h
  rw [World.killOk,World.child]
  obtain rfl | hp := hp
  · have hn : s.children.lookup 0 = none :=
      AList.lookup_eq_none.mpr fun h0 => absurd (hi.tabled.born 0 h0) (lt_irrefl 0)
    rw [hn] at h
    simpa using h.symm
  · have h0 := hi.tabled.born pid hp
    have hne : (pid == 0) = false := beq_eq_false_iff_ne.mpr (by omega)
    obtain ⟨ch,hl⟩ := Option.isSome_iff_exists.mp (AList.lookup_isSome.mpr hp)
    rw [hl] at h
    have hok : ok = ch.joined := by simpa using h
    simp [hne,hl,hok]

theorem run_main (ha : a.plain (fun _ => 0) = true) (h : step a s = some t) :
    World.run [.main a] (World.idle s) = some (World.idle t) := by
  simp [World.run,Runs.run,World.step,World.idle,ha,h]

theorem run_kill (hi : Inv s) (h : step (.kill ok) s = some t) :
    ∃ u, World.run [.load,.kill] (World.idle s) = some u ∧ u.Shows t := by
  simp only [step] at h
  split at h
  case h_1 fg i hpc =>
    split at h
    case isTrue hk =>
      have hp : (s.jobs.slot i).pid = 0 ∨ (s.jobs.slot i).pid ∈ s.children :=
        or_iff_not_imp_left.mpr (hi.tabled.live i)
      have hok := killOk_of_returns hi hp hk
      obtain rfl := Option.some.inj h
      cases ok with
      | true =>
        refine ⟨_,?_,shows_idle _⟩
        simp [World.run,Runs.run,World.step,World.load,World.kill,World.idle,hpc,hok]
      | false =>
        refine ⟨World.fail ⟨s,some (s.jobs.slot i).pid,[],fun _ => 0,false⟩,?_,rfl,
          fun h => absurd rfl h⟩
        simp [World.run,Runs.run,World.step,World.load,World.kill,World.idle,hpc,hok]
    case isFalse => cases h
  case h_2 => cases h

theorem run_keyboard (hi : Inv s) (h : step (.keyboard ok) s = some t) :
    ∃ ms u, World.run ms (World.idle s) = some u ∧ u.Shows t := by
  simp only [step] at h
  split at h
  · cases h
  rename_i hpc
  split at h
  · rename_i h0
    obtain rfl := Option.some.inj h
    refine ⟨[.signal .int fun _ => false,.handler],World.idle s,?_,shows_idle s⟩
    simp [World.run,Runs.run,World.step,World.handle,World.mask,World.idle,hpc,h0]
  rename_i h0
  split at h
  · rename_i hk
    have hp : fgpid s.jobs ∈ s.children := by
      obtain ⟨i,hfg⟩ := fg_of_fgpid h0
      obtain ⟨j,-,hj⟩ := fgpid_of_fg hfg
      rw [hj] at h0 ⊢
      exact hi.tabled.live j h0
    have hok := killOk_of_returns hi (.inr hp) hk
    obtain rfl := Option.some.inj h
    cases ok with
    | true =>
      refine ⟨[.signal .int fun _ => false,.handler,.handler],World.idle s,?_,shows_idle s⟩
      simp [World.run,Runs.run,World.step,World.handle,World.mask,World.idle,hpc,h0,hok]
    | false =>
      refine ⟨[.signal .int fun _ => false,.handler,.handler],
        World.fail ⟨s,none,[⟨fun sig => (World.idle s).mask sig || sig == .int,.send (fgpid s.jobs)⟩],
          fun _ => 0,false⟩,?_,rfl,fun h => absurd rfl h⟩
      simp [World.run,Runs.run,World.step,World.handle,World.mask,World.idle,hpc,h0,hok]
  · cases h

theorem run_sigchld (h : step (.sigchld es) s = some t) :
    World.run (.signal .chld (fun _ => false) :: (es.flatMap Event.moves ++ [.handler]))
      (World.idle s) = some (World.idle t) := by
  simp only [step] at h
  split at h
  · rename_i hb
    obtain ⟨u,hu,h⟩ := Option.bind_eq_some_iff.mp h
    split at h
    · cases h
    rename_i hw
    obtain rfl := Option.some.inj h
    have hsig : World.step (.signal .chld fun _ => false) (World.idle s) =
        some (World.reaping (fun sig => sig == .chld) s) := by
      simp [World.step,World.mask,World.idle,World.reaping,hb.1,hb.2]
    obtain ⟨hpc,hrun⟩ := @run_events _ _ _ (fun sig => sig == .chld) hb.2 hu
    have hend : World.step .handler (World.reaping (fun sig => sig == .chld) u) =
        some (World.idle u) := by
      simp [World.step,World.handle,World.idle,World.reaping,hpc,hw]
    rw [World.run] at hrun ⊢
    rw [Runs.run,hsig,Option.bind_some,Runs.run_append,hrun,Option.bind_some]
    exact Runs.run_cons.mpr ⟨_,hend,rfl⟩
  · cases h

theorem run_exited (hw : w.Shows s) (hpc : s.pc = .exited) (h : step a s = some t) :
    ∃ ms u, World.run ms w = some u ∧ u.Shows t := by
  cases a with
  | child pid c =>
    have h : (Event.change pid c).exec s = some t := h
    have ht : t.pc = .exited := (notices_pc (notices_of_exec h)).1.trans hpc
    refine ⟨[.child pid c],{ w with shell := t },?_,rfl,fun hne => absurd ht hne⟩
    simp [World.run,Runs.run,World.step,hw.shell,h]
  | _ => simp [step,mainStep,hpc] at h

theorem run_of_step (hi : Inv s) (hw : w.Shows s) (h : step a s = some t) :
    ∃ ms u, World.run ms w = some u ∧ u.Shows t := by
  by_cases hpc : s.pc = .exited
  · exact run_exited hw hpc h
  obtain rfl := hw.idle hpc
  cases a with
  | read cmdline argv bg => exact ⟨_,_,run_main rfl h,shows_idle t⟩
  | eof => exact ⟨_,_,run_main rfl h,shows_idle t⟩
  | main => exact ⟨_,_,run_main rfl h,shows_idle t⟩
  | fork pid => exact ⟨_,_,run_main rfl h,shows_idle t⟩
  | kill ok =>
    obtain ⟨u,hu,ht⟩ := run_kill hi h
    exact ⟨_,u,hu,ht⟩
  | sigchld es => exact ⟨_,_,run_sigchld h,shows_idle t⟩
  | keyboard ok => exact run_keyboard hi h
  | child pid c =>
    refine ⟨[.child pid c],World.idle t,?_,shows_idle t⟩
    have h : (Event.change pid c).exec s = some t := h
    simp [World.run,Runs.run,World.step,World.idle,h]

-- a handler run and a kill are one step of the shell, and several moves of the world
theorem world_of_run {acts : List Act} (hr : run acts start = some s) :
    ∃ ms w, World.run ms World.start = some w ∧ w.shell = s := by
  have h : Inv s ∧ ∃ ms w, World.run ms World.start = some w ∧ w.Shows s := by
    refine @Runs.run_invariant _ _ step acts start s
      (fun s => Inv s ∧ ∃ ms w, World.run ms World.start = some w ∧ w.Shows s) ?_
      ⟨inv_start,[],World.start,rfl,shows_idle _⟩ hr
    rintro a u v ⟨hi,ms,w,hms,hw⟩ hs
    obtain ⟨ns,x,hns,hx⟩ := run_of_step hi hw hs
    refine ⟨inv_steps hi (steps_of_step hs),ms ++ ns,x,?_,hx⟩
    rw [World.run,Runs.run_append,show Runs.run World.step ms World.start = _ from hms]
    exact hns
  obtain ⟨-,ms,w,hms,hw⟩ := h
  exact ⟨ms,w,hms,hw.shell⟩

end Tsh
