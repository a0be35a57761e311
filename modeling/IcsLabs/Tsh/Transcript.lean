import IcsLabs.Tsh.Console

namespace Tsh

variable {c d : Console} {x : Turn} {xs ys : List Turn} {s t : Shell} {a : Act} {e : Event} {n : Nat}
  {i : Fin maxJobs} {job : Job} {p : Printed} {td : Todo} {u : Jobs} {kids : Children}
  {line : List Char} {v first : Bool}

def SameJob (job job' : Job) : Prop :=
  job.pid = job'.pid ∧ job.jid = job'.jid ∧ job.cmdline = job'.cmdline

theorem slot_of_notices (he : Notices e s t) (hm : (s.jobs.slot i).pid ∈ t.children) :
    t.jobs.slot i = s.jobs.slot i ∨ t.jobs.slot i = { s.jobs.slot i with state := .st } := by
  cases he with
  | @reap _ pid _ hl hd =>
    obtain ⟨he,-⟩ | ⟨-,k,hk,he⟩ := deletejob_spec pid s.jobs
    · exact .inl (by simp only [he])
    · have hik : i ≠ k := fun hik => (AList.mem_erase.mp hm).1 (hik ▸ hk)
      exact .inl (by simp only [he,setSlot_ne hik])
  | @stop _ pid _ hl =>
    obtain ⟨he,-⟩ | ⟨k,hk,he⟩ := markStopped_cases pid s.jobs
    · exact .inl (by simp only [he])
    · rcases eq_or_ne i k with rfl | hik
      · exact .inr (by simp only [he,setSlot_self])
      · exact .inl (by simp only [he,setSlot_ne hik])
  | change hl hc => exact .inl rfl

-- as long as its child is there, slot i holds this job
def Carries (job : Job) (i : Fin maxJobs) (s : Shell) : Prop :=
  job.pid ∈ s.children → SameJob (s.jobs.slot i) job

theorem carries_notices (hc : Carries job i s) (he : Notices e s t) : Carries job i t := by
  intro hm
  obtain ⟨h1,h2,h3⟩ := hc (by_contra fun hn => gone_of_notices hn he hm)
  obtain h | h := slot_of_notices he (h1.symm ▸ hm) <;> rw [h] <;> exact ⟨h1,h2,h3⟩

theorem carries_steps (h : Inv s) (hc : Carries job i s) (ha : a ≠ .fork job.pid)
    (hs : Steps a s t) : Carries job i t := by
  intro hm
  have hms : job.pid ∈ s.children := by_contra fun hn => gone_of_steps hn ha hs hm
  have hpos := h.tabled.born _ hms
  obtain ⟨h1,h2,h3⟩ := hc hms
  cases hs with
  | @add _ bg cmdline pid hpc =>
    obtain ⟨he,-⟩ | ⟨-,k,hk,he⟩ := addjob_spec pid (if bg then .bg else .fg) cmdline s.jobs
    · simp only [he]
      exact ⟨h1,h2,h3⟩
    · have hik : i ≠ k := fun hik => by
        rw [← hik] at hk
        omega
      simp only [he,setSlot_ne hik]
      exact ⟨h1,h2,h3⟩
  | @kill _ fg k hpc hk =>
    rw [continueGroup_jobs]
    exact ⟨h1,h2,h3⟩
  | @assign _ fg k hpc =>
    rcases eq_or_ne i k with rfl | hik
    · simp only [setSlot_self]
      exact ⟨h1,h2,h3⟩
    · simp only [setSlot_ne hik]
      exact ⟨h1,h2,h3⟩
  | sigchld hb hr hw =>
    exact (handler_invariant (fun _ _ _ _ => carries_notices) h hb hc hr).2 hm
  | child he => exact carries_notices hc (notices_of_exec he) hm
  | _ => exact ⟨h1,h2,h3⟩

theorem inv_run_from {acts : List Act} (h : Inv s) (hr : Tsh.run acts s = some t) : Inv t :=
  Runs.run_invariant (fun _ _ _ h ha => inv_steps h (steps_of_step ha)) h hr

-- no job has come, and no slot has another job than before
def Fades (u t : Jobs) : Prop :=
  ∀ i, (t.slot i).pid = 0 ∨
    (t.slot i).pid = (u.slot i).pid ∧ (t.slot i).jid = (u.slot i).jid

theorem fades_notices (he : Notices e s t) : Fades s.jobs t.jobs := fun i => by
  obtain h | ⟨h,-⟩ | h := notices_slot he i <;> rw [h]
  · exact .inr ⟨rfl,rfl⟩
  · exact .inr ⟨rfl,rfl⟩
  · exact .inl rfl

-- a piece about this job has its number, or 0 when the job is gone already
def Printed.Right (job : Job) (s : Shell) (p : Printed) : Prop :=
  ∀ jid, p.names = some (job.pid,jid) → jid = job.jid ∨ jid = 0 ∧ job.pid ∉ s.children

-- what has been read so far for a piece about the job that slot i has or had
def Todo.Right (job : Job) (i : Fin maxJobs) (s : Shell) : Todo → Prop
  | .say p => p.Right job s
  | .seek pid slots => pid = job.pid → job.pid ∈ s.children → i ∈ slots
  | .number pid k | .needJid _ pid k => pid = job.pid →
    k = i ∧ ((s.jobs.slot i).pid = job.pid ∨ (s.jobs.slot i).pid = 0)
  | .needPid _ jid k => (s.jobs.slot k).pid = job.pid → jid = job.jid
  | .finish jid pid _ => pid = job.pid → jid = job.jid ∨ jid = 0 ∧ job.pid ∉ s.children
  | .args .. | .test _ | .state _ | .cmdline _ => True

theorem Printed.Right.mono (hg : job.pid ∉ s.children → job.pid ∉ t.children)
    (h : p.Right job s) : p.Right job t :=
  fun jid hn => (h jid hn).imp_right (.imp_right hg)

theorem Todo.Right.mono (h0 : job.pid ≠ 0) (hg : job.pid ∉ s.children → job.pid ∉ t.children)
    (hj : Fades s.jobs t.jobs) (h : td.Right job i s) : td.Right job i t := by
  cases td with
  | say p => exact Printed.Right.mono hg h
  | seek pid slots => exact fun hp hm => h hp (by_contra fun hn => hg hn hm)
  | number pid k | needJid bg pid k =>
    intro hp
    refine (h hp).imp_right fun hs => ?_
    obtain h1 | ⟨h1,-⟩ := hj i
    · exact .inr h1
    · rwa [h1]
  | needPid bg jid k =>
    intro hp
    obtain h1 | ⟨h1,-⟩ := hj k
    · exact absurd (hp.symm.trans h1) h0
    · exact h (h1.symm.trans hp)
  | finish jid pid k => exact fun hp => (h hp).imp_right (.imp_right hg)
  | _ => trivial

theorem right_of_unnamed (h : p.names = none) : p.Right job s := fun _ hn => by
  rw [h] at hn
  cases hn

theorem right_of_starts (hp : 0 < job.pid) (h : td.Starts) : td.Right job i s := by
  cases td with
  | say p => exact right_of_unnamed h
  | seek pid slots =>
    intro hpid _
    rw [h (by omega)]
    exact List.mem_finRange i
  | number pid k | needPid bg jid k | needJid bg pid k | finish jid pid k => exact h.elim
  | _ => trivial

theorem right_exec (h : td.Right job i s) (hx : p ∈ (td.exec line first u).1) : p.Right job s := by
  cases td with
  | say q => exact List.mem_singleton.mp hx ▸ h
  | seek pid slots => cases slots <;> cases hx
  | finish jid pid i =>
    rw [List.mem_singleton.mp hx]
    intro jid' hn
    obtain ⟨h1,rfl⟩ := Prod.mk.inj (Option.some.inj hn)
    exact h h1
  | cmdline i =>
    rw [List.mem_singleton.mp hx]
    intro _ hn
    cases hn
  | _ => cases hx

theorem right_call {bg : Bool} {jid pid : Int} {k : Fin maxJobs}
    (h : pid = job.pid → jid = job.jid ∨ jid = 0 ∧ job.pid ∉ s.children) :
    (Todo.call bg jid pid k).Right job i s := by
  cases bg with
  | true => exact h
  | false =>
    intro jid' hn
    obtain ⟨h1,rfl⟩ := Prod.mk.inj (Option.some.inj hn)
    exact h h1

theorem right_read (h : Inv s) (hc : Carries job i s) (h0 : job.pid ≠ 0) (hr : td.Right job i s)
    {td' : Todo} (hx : td' ∈ (td.exec line first s.jobs).2) : td'.Right job i s := by
  -- a slot with this pid is slot i, with this job in it
  have hslot (k : Fin maxJobs) (hk : (s.jobs.slot k).pid = job.pid) :
      k = i ∧ (s.jobs.slot k).jid = job.jid := by
    obtain ⟨h1,h2,-⟩ := hc (hk ▸ h.tabled.live k (hk ▸ h0))
    obtain rfl := h.tabled.distinct k i (hk.trans h1.symm) (hk ▸ h0)
    exact ⟨rfl,h2⟩
  -- the number in slot i once it has been found to be the job's
  have hnumber (hs : (s.jobs.slot i).pid = job.pid ∨ (s.jobs.slot i).pid = 0) :
      (s.jobs.slot i).jid = job.jid ∨ (s.jobs.slot i).jid = 0 ∧ job.pid ∉ s.children := by
    obtain hs | hs := hs
    · exact .inl (hslot i hs).2
    · exact .inr ⟨h.tabled.numbered.free i hs,fun hm => h0 ((hc hm).1.symm.trans hs)⟩
  cases td with
  | say p => cases hx
  | seek pid slots =>
    cases slots with
    | nil =>
      obtain rfl := List.mem_singleton.mp hx
      intro jid hn
      obtain ⟨hp,rfl⟩ := Prod.mk.inj (Option.some.inj hn)
      exact .inr ⟨rfl,fun hm => List.not_mem_nil (hr hp hm)⟩
    | cons k slots =>
      simp only [Todo.exec] at hx
      split at hx
      · rename_i hk
        obtain rfl := List.mem_singleton.mp hx
        rintro rfl
        obtain ⟨rfl,-⟩ := hslot k hk
        exact ⟨rfl,.inl hk⟩
      · rename_i hk
        obtain rfl := List.mem_singleton.mp hx
        rintro rfl hm
        refine (List.mem_cons.mp (hr rfl hm)).resolve_left ?_
        rintro rfl
        exact hk (hc hm).1
  | number pid k =>
    obtain rfl := List.mem_singleton.mp hx
    intro jid hn
    obtain ⟨hp,rfl⟩ := Prod.mk.inj (Option.some.inj hn)
    obtain ⟨rfl,hs⟩ := hr hp
    exact hnumber hs
  | args bg k =>
    obtain rfl := List.mem_singleton.mp hx
    cases first with
    | true => exact fun hk => (hslot k hk).2
    | false => exact fun hk => ⟨(hslot k hk).1,.inl ((hslot k hk).1 ▸ hk)⟩
  | needPid bg jid k =>
    obtain rfl := List.mem_singleton.mp hx
    exact right_call fun hk => .inl (hr hk)
  | needJid bg pid k =>
    obtain rfl := List.mem_singleton.mp hx
    refine right_call fun hp => ?_
    obtain ⟨rfl,hs⟩ := hr hp
    exact hnumber hs
  | finish jid pid k => cases hx
  | test k =>
    simp only [Todo.exec] at hx
    split at hx
    · simp only [List.mem_cons,List.not_mem_nil,or_false] at hx
      rcases hx with rfl | rfl | rfl <;> trivial
    · cases hx
  | state k =>
    obtain rfl := List.mem_singleton.mp hx
    exact right_of_unnamed rfl
  | cmdline k => cases hx

def Said (job : Job) (old : List Printed) (s : Shell) (out : List Printed) : Prop :=
  ∃ new, out = old ++ new ∧ ∀ p ∈ new, p.Right job s

-- from a state in which slot i holds the job, with old printed
structure Speaks (job : Job) (i : Fin maxJobs) (old : List Printed) (c : Console) : Prop where
  inv : Inv c.shell
  carries : Carries job i c.shell
  said : Said job old c.shell c.out
  todo : ∀ td ∈ c.todo, td.Right job i c.shell

theorem Said.append {old out more : List Printed}
    (hg : job.pid ∉ s.children → job.pid ∉ t.children) (h : Said job old s out)
    (hm : ∀ p ∈ more, p.Right job t) : Said job old t (out ++ more) := by
  obtain ⟨new,rfl,hnew⟩ := h
  refine ⟨new ++ more,List.append_assoc ..,fun p hp => ?_⟩
  rcases List.mem_append.mp hp with hp | hp
  · exact Printed.Right.mono hg (hnew p hp)
  · exact hm p hp

theorem prints_right (h : Inv s) (hc : Carries job i s) (he : Notices e s t) (hx : p ∈ e.prints n s) :
    p.Right job t := by
  obtain ⟨pid,stopped,-,hk,rfl⟩ := prints_notices he hx
  intro jid hn
  obtain ⟨rfl,rfl⟩ := Prod.mk.inj (Option.some.inj hn)
  obtain ⟨h1,h2,-⟩ := hc hk
  exact .inl ((pid2jid_eq h.tabled h1 (h.tabled.born _ hk)).trans h2)

theorem added_right (h : Inv s) (hc : Carries job i s) (hx : p ∈ a.prints v s) : p.Right job t := by
  obtain ⟨bg,cmdline,pid,-,hpc,hp,rfl | rfl⟩ := prints_act hx
  · exact right_of_unnamed rfl
  · intro jid hn
    obtain ⟨rfl,-⟩ := Prod.mk.inj (Option.some.inj hn)
    obtain ⟨hm,hno,-⟩ := h.adding bg cmdline _ hpc
    exact absurd (hc (hm hp)).1 (hno i)

theorem fades_refl (t : Jobs) : Fades t t := fun _ => .inr ⟨rfl,rfl⟩

theorem fades_trans {t1 t2 t3 : Jobs} (h1 : Fades t1 t2) (h2 : Fades t2 t3) : Fades t1 t3 := fun i => by
  obtain h | ⟨hp,hj⟩ := h2 i
  · exact .inl h
  · rw [hp,hj]
    exact h1 i

theorem fades_moves (hi : Inv c.shell) (hb : x.isMain = false) (hx : Moves x c d) :
    Fades c.shell.jobs d.shell.jobs ∧
      ∀ pid, pid ∉ c.shell.children → pid ∉ d.shell.children := by
  cases hx with
  | @shell _ a s ha hm hs =>
    cases hs with
    | sigchld hb hr hw => exact absurd rfl (ha _)
    | keyboard => exact ⟨fades_refl _,fun _ => id⟩
    | keyboardExit hf => exact ⟨fades_refl _,fun _ => id⟩
    | child he =>
      have hn := notices_of_exec he
      exact ⟨fades_notices hn,fun _ hg => gone_of_notices hg hn⟩
    | _ => cases hb
  | handler hbl hr hw hx =>
    exact noticeStep_invariant (P := fun s _ => Fades c.shell.jobs s.jobs ∧
        ∀ pid, pid ∉ c.shell.children → pid ∉ s.children)
      (fun _ _ _ _ _ _ h he => ⟨fades_trans h.1 (fades_notices he),
        fun pid hg => gone_of_notices (h.2 pid hg) he⟩) hi hbl ⟨fades_refl _,fun _ => id⟩ hr
  | print ht hx => exact ⟨fades_refl _,fun _ => id⟩

theorem todo_moves (hi : Inv c.shell) (hp : 0 < job.pid) (hc : Carries job i c.shell)
    (h : ∀ td ∈ c.todo, td.Right job i c.shell) (hx : Moves x c d) :
    ∀ td ∈ d.todo, td.Right job i d.shell := by
  have hfades (hb : x.isMain = false) (td : Todo) (htd : td ∈ c.todo) : td.Right job i d.shell :=
    (h td htd).mono (by omega) ((fades_moves hi hb hx).2 job.pid) (fades_moves hi hb hx).1
  cases hx with
  | @shell _ a s ha hm hs =>
    cases hmain : a.isMain with
    | true => exact fun td htd => right_of_starts hp (starts_todo a c.shell htd)
    | false => exact fun td htd => hfades hmain td htd
  | handler hbl hr hw hx => exact hfades rfl
  | @print _ first td rest ht hx =>
    intro td' htd
    rcases List.mem_append.mp htd with htd | htd
    · exact right_read hi hc (by omega) (h td (ht ▸ List.mem_cons_self)) htd
    · exact h td' (ht ▸ List.mem_cons_of_mem _ htd)

theorem carries_moves (hi : Inv c.shell) (hc : Carries job i c.shell)
    (hf : x ≠ .shell (.fork job.pid)) (hx : Moves x c d) : Carries job i d.shell := by
  cases hx with
  | @shell _ a s ha hm hs => exact carries_steps hi hc (fun ha => hf (ha ▸ rfl)) hs
  | handler hb hr hw hx =>
    exact noticeStep_invariant (P := fun s _ => Carries job i s)
      (fun _ _ _ _ _ _ hc he => carries_notices hc he) hi hb hc hr
  | print ht hx => exact hc

theorem said_moves {old : List Printed} (h : Speaks job i old c)
    (hf : x ≠ .shell (.fork job.pid)) (hx : Moves x c d) : Said job old d.shell d.out := by
  cases hx with
  | @shell _ a s ha hm hs =>
    exact h.said.append (fun hn => gone_of_steps hn (fun ha => hf (ha ▸ rfl)) hs)
      fun p => added_right h.inv h.carries
  | handler hb hr hw hx =>
    exact (noticeStep_invariant (P := fun s out => Carries job i s ∧ Said job old s out)
      (fun e n s t out hi hs he => ⟨carries_notices hs.1 he,
        hs.2.append (fun hn => gone_of_notices hn he) fun p => prints_right hi hs.1 he⟩)
      h.inv hb ⟨h.carries,h.said⟩ hr).2
  | print ht hx =>
    exact h.said.append id fun p => right_exec (h.todo _ (ht ▸ List.mem_cons_self))

theorem speaks_step {old : List Printed} (hp : 0 < job.pid) (h : Speaks job i old c)
    (hf : x ≠ .shell (.fork job.pid)) (hd : Console.step x c = some d) : Speaks job i old d := by
  have hmv := moves_of_step hd
  exact ⟨inv_run_from h.inv (plain_of_step hd),carries_moves h.inv h.carries hf hmv,
    said_moves h hf hmv,todo_moves h.inv hp h.carries h.todo hmv⟩

theorem speaks_run {old : List Printed} (hp : 0 < job.pid) (h : Speaks job i old c)
    (hf : .shell (.fork job.pid) ∉ xs) (hd : Console.run xs c = some d) : Speaks job i old d := by
  induction xs generalizing c with
  | nil => exact Option.some.inj hd ▸ h
  | cons x xs ih =>
    obtain ⟨c1,hx,hd⟩ := Runs.run_cons.mp hd
    exact ih (speaks_step hp h (fun he => hf (he ▸ List.mem_cons_self)) hx)
      (fun hm => hf (List.mem_cons_of_mem _ hm)) hd

theorem Todo.Right.congr {job' : Job} (hp : job.pid = job'.pid) (hj : job.jid = job'.jid)
    (h : td.Right job i s) : td.Right job' i s := by
  cases td <;> simpa only [Todo.Right,Printed.Right,hp,hj] using h

-- what has been read for a job that is in the table is right
def Pending (c : Console) : Prop :=
  ∀ i, (c.shell.jobs.slot i).pid ≠ 0 → ∀ td ∈ c.todo, td.Right (c.shell.jobs.slot i) i c.shell

theorem pid_pos (h : Inv s) (h0 : (s.jobs.slot i).pid ≠ 0) : 0 < (s.jobs.slot i).pid :=
  h.tabled.born _ (h.tabled.live i h0)

theorem pending_step (hi : Inv c.shell) (h : Pending c) (hd : Console.step x c = some d) :
    Pending d := by
  intro i h0
  have hmv := moves_of_step hd
  cases hb : x.isMain with
  | true =>
    cases hmv with
    | @shell _ a s ha hm hs =>
      have hmain : a.isMain = true := hb
      simp only [hmain,if_true]
      exact fun td htd => right_of_starts (pid_pos (inv_run_from hi (plain_of_step hd)) h0)
        (starts_todo a c.shell htd)
    | handler hbl hr hw hx => cases hb
    | print ht hx => cases hb
  | false =>
    obtain hz | ⟨hp,hj⟩ := (fades_moves hi hb hmv).1 i
    · exact absurd hz h0
    · rw [hp] at h0
      exact fun td htd => (todo_moves hi (pid_pos hi h0) (fun _ => ⟨rfl,rfl,rfl⟩) (h i h0) hmv td
        htd).congr hp.symm hj.symm

theorem pending_run (hr : Console.run xs (Console.start v) = some c) : Pending c :=
  (Runs.run_invariant (I := fun c => Inv c.shell ∧ Pending c)
    (fun _ _ _ hc hx => ⟨inv_run_from hc.1 (plain_of_step hx),pending_step hc.1 hc.2 hx⟩)
    ⟨inv_start,fun _ _ _ h => absurd h List.not_mem_nil⟩ hr).2

theorem one_number (hr : Console.run xs (Console.start v) = some c)
    (hi : (c.shell.jobs.slot i).pid ≠ 0) (hf : .shell (.fork (c.shell.jobs.slot i).pid) ∉ ys)
    (hd : Console.run ys c = some d) :
    ∃ new, d.out = c.out ++ new ∧ ∀ p ∈ new, ∀ jid,
      p.names = some ((c.shell.jobs.slot i).pid,jid) → jid = (c.shell.jobs.slot i).jid ∨
        jid = 0 ∧ (c.shell.jobs.slot i).pid ∉ d.shell.children := by
  have hinv := inv_console hr
  have hstart : Speaks (c.shell.jobs.slot i) i c.out c :=
    ⟨hinv,fun _ => ⟨rfl,rfl,rfl⟩,⟨[],by simp⟩,pending_run hr i hi⟩
  exact (speaks_run (pid_pos hinv hi) hstart hf hd).said

-- a command in the background, up to the prompt; slot: the first free one
def background (slot : Nat) (pid : Int) : List Turn :=
  (launch true pid).map .shell ++ List.replicate (slot + 3) (.print true)

def killTurns : List Turn := [.shell (.child 101 .signal),.handler [(.notice 101,9)]]

-- jobs has read the pid when the job is killed
def tornTurns : List Turn :=
  [.shell (.read [] [['j','o','b','s']] false),.print false,.print false] ++ killTurns ++
    [.print false,.print false]

theorem one_number_torn : ∃ c d new, Console.run (background 0 101) (Console.start true) = some c ∧
    Console.run tornTurns c = some d ∧ d.out = c.out ++ new ∧
      .job false 1 101 9 ∈ d.out ∧ .listed 0 101 ∈ d.out ∧
        ∀ p ∈ new, ∀ jid, p.names = some (101,jid) → jid = 1 ∨
          jid = 0 ∧ 101 ∉ d.shell.children := by
  obtain ⟨d,hd,hjob⟩ := Console.exists_run true (background 0 101 ++ tornTurns)
    (fun d => .job false 1 101 9 ∈ d.out ∧ .listed 0 101 ∈ d.out) (by decide +kernel)
  obtain ⟨c,hc,hq⟩ := Console.exists_run true (background 0 101)
    (fun c => (c.shell.jobs.slot 0).pid = 101 ∧ (c.shell.jobs.slot 0).jid = 1) (by decide +kernel)
  rw [Console.run,Runs.run_append,
    show Runs.run Console.step (background 0 101) _ = some c from hc] at hd
  obtain ⟨hpid,hjid⟩ := of_decide_eq_true hq
  obtain ⟨new,ho,hnew⟩ := @one_number c d _ tornTurns 0 _ hc (by rw [hpid]; decide)
    (by rw [hpid]; decide) hd
  rw [hpid,hjid] at hnew
  obtain ⟨hjob,htorn⟩ := of_decide_eq_true hjob
  exact ⟨c,d,new,hc,hd,ho,hjob,htorn,hnew⟩

section Heard

def Printed.isJob : Printed → Bool
  | .job .. => true
  | _ => false

def Todo.isJob : Todo → Bool
  | .say p => p.isJob
  | _ => false

theorem isJob_todo (htd : td ∈ a.todo s) : td.isJob = false := by
  have hn := starts_todo a s htd
  cases td with
  | say p => cases p <;> first | rfl | cases hn
  | _ => rfl

theorem isJob_read {td' : Todo} (hx : td' ∈ (td.exec line first u).2) : td'.isJob = false := by
  cases td with
  | seek pid slots =>
    cases slots with
    | nil =>
      obtain rfl := List.mem_singleton.mp hx
      rfl
    | cons k slots =>
      simp only [Todo.exec] at hx
      split at hx
      all_goals
        obtain rfl := List.mem_singleton.mp hx
        rfl
  | args bg k =>
    obtain rfl := List.mem_singleton.mp hx
    cases first <;> rfl
  | needPid bg n k | needJid bg n k =>
    obtain rfl := List.mem_singleton.mp hx
    cases bg <;> rfl
  | test k =>
    simp only [Todo.exec] at hx
    split at hx
    · simp only [List.mem_cons,List.not_mem_nil,or_false] at hx
      rcases hx with rfl | rfl | rfl <;> rfl
    · cases hx
  | number n k | state k =>
    obtain rfl := List.mem_singleton.mp hx
    rfl
  | say p => cases hx
  | finish jid pid k => cases hx
  | cmdline k => cases hx

theorem isJob_exec (hq : td.isJob = false) (hx : p ∈ (td.exec line first u).1) :
    p.isJob = false := by
  cases td with
  | say q => exact List.mem_singleton.mp hx ▸ hq
  | seek pid slots => cases slots <;> cases hx
  | finish jid pid k => exact List.mem_singleton.mp hx ▸ rfl
  | cmdline k => exact List.mem_singleton.mp hx ▸ rfl
  | _ => cases hx

-- the main thread leaves the lines about signals to the handler
def Quiet (todo : List Todo) : Prop := ∀ td ∈ todo, td.isJob = false

theorem quiet_moves (hq : Quiet c.todo) (hx : Moves x c d) : Quiet d.todo := by
  cases hx with
  | @shell _ a s ha hm hs =>
    cases hmain : a.isMain with
    | true => exact fun td htd => isJob_todo htd
    | false => exact hq
  | handler hb hr hw hx => exact hq
  | @print _ first td rest ht hx =>
    intro td' htd
    rcases List.mem_append.mp htd with htd | htd
    · exact isJob_read htd
    · exact hq td' (ht ▸ List.mem_cons_of_mem _ htd)

theorem quiet_run (hr : Console.run xs (Console.start v) = some c) : Quiet c.todo :=
  Runs.run_invariant (I := fun c => Quiet c.todo)
    (fun _ _ _ hc hx => quiet_moves hc (moves_of_step hx)) (fun _ h => absurd h List.not_mem_nil) hr

theorem finds_or_prints (v : Bool) (a : Act) (s : Shell) :
    FindsSlot a s ∨ .tooMany ∈ a.prints v s := by
  by_cases hf : FindsSlot a s
  · exact .inl hf
  · unfold FindsSlot at hf
    split at hf
    · rename_i bg cmdline pid hpc
      obtain ⟨hp,hfull⟩ := not_or.mp hf
      obtain ⟨he,-⟩ | ⟨-,i,hi,-⟩ := addjob_spec pid (if bg then .bg else .fg) cmdline s.jobs
      · rw [prints_full hpc (by omega) (by rw [he])]
        exact .inr List.mem_cons_self
      · exact absurd ⟨i,hi⟩ hfull
    · exact absurd trivial hf

-- every child that can be reported has a slot, and has been reported under its number
def Heard (s : Shell) (out : List Printed) : Prop :=
  .tooMany ∈ out ∨ Listed s ∧ ∀ stopped jid pid n, .job stopped jid pid n ∈ out → 1 ≤ jid

theorem heard_notices {out : List Printed} (h : Inv s) (hpc : ∀ pid, ¬ s.pc.adds pid)
    (hh : Heard s out) (he : Notices e s t) : Heard t (out ++ e.prints n s) := by
  rcases hh with hm | ⟨hl,hj⟩
  · exact .inl (List.mem_append_left _ hm)
  · refine .inr ⟨listed_notices h hl he,fun stopped jid pid m hmem => ?_⟩
    rcases List.mem_append.mp hmem with hmem | hmem
    · exact hj stopped jid pid m hmem
    · obtain ⟨pid,stopped,-,hk,hp⟩ := prints_notices he hmem
      obtain ⟨-,rfl,rfl,-⟩ := Printed.job.inj hp
      have hpos := h.tabled.born _ hk
      obtain ⟨i,hi⟩ := (hl _ hk).resolve_left (hpc _)
      rw [pid2jid_eq h.tabled hi hpos]
      exact h.tabled.numbered.used i (by omega)

theorem heard_moves (h : Inv c.shell) (hq : Quiet c.todo) (hh : Heard c.shell c.out)
    (hx : Moves x c d) : Heard d.shell d.out := by
  cases hx with
  | @shell _ a s ha hm hs =>
    rcases hh with hmem | ⟨hl,hj⟩
    · exact .inl (List.mem_append_left _ hmem)
    · rcases finds_or_prints c.verbose a c.shell with hf | hsay
      · refine .inr ⟨listed_steps h hl hf hs,fun stopped jid pid m hmem => ?_⟩
        rcases List.mem_append.mp hmem with hmem | hmem
        · exact hj stopped jid pid m hmem
        · obtain ⟨bg,cmdline,q,-,-,-,hp | hp⟩ := prints_act hmem <;> cases hp
      · exact .inl (List.mem_append_right _ hsay)
  | @handler _ s out es hb hr hw hx =>
    have hpc (pid : Int) : ¬ c.shell.pc.adds pid := fun ha => by
      have hblock : c.shell.pc.blocks := by
        cases hp : c.shell.pc <;> rw [hp] at ha <;> trivial
      simp [h.blocks hblock] at hb
    refine (noticeStep_invariant (P := fun s out => (∀ pid, ¬ s.pc.adds pid) ∧ Heard s out)
      (fun e n s t out hi hp he => ?_) h hb ⟨hpc,hh⟩ hr).2
    exact ⟨(notices_pc he).1 ▸ hp.1,heard_notices hi hp.1 hp.2 he⟩
  | @print _ first td rest ht hx =>
    refine hh.imp (List.mem_append_left _) fun hl => ⟨hl.1,fun stopped jid pid m hmem => ?_⟩
    rcases List.mem_append.mp hmem with hmem | hmem
    · exact hl.2 stopped jid pid m hmem
    · exact absurd (isJob_exec (hq td (ht ▸ List.mem_cons_self)) hmem) (by simp [Printed.isJob])

end Heard

section Rows

-- what jobs prints for slot i, when the job in it is still there at the end
def Row (t : Jobs) (kids : Children) (i : Fin maxJobs) (row : List Printed) : Prop :=
  ((t.slot i).pid = 0 → row = []) ∧
    ((t.slot i).pid ≠ 0 → (t.slot i).pid ∈ kids → ∃ state,
      (state = .st ∨ state = .bg ∧ (t.slot i).state = .bg) ∧
        row = [.listed (t.slot i).jid (t.slot i).pid,.state i state,.line (t.slot i).cmdline])

def Todo.Shows (t : Jobs) (kids : Children) (td : Todo) (row : List Printed) : Prop :=
  match td with
  | .say p => row = [p]
  | .test i => Row t kids i row
  | .args false i => (t.slot i).pid ≠ 0 → (t.slot i).pid ∈ kids →
    row = [.listed (t.slot i).jid (t.slot i).pid]
  | .needPid false jid i => (t.slot i).pid ≠ 0 → (t.slot i).pid ∈ kids →
    row = [.listed jid (t.slot i).pid]
  | .needJid false pid i => (t.slot i).pid ≠ 0 → (t.slot i).pid ∈ kids →
    row = [.listed (t.slot i).jid pid]
  | .state i => (t.slot i).pid ≠ 0 → (t.slot i).pid ∈ kids →
    ∃ state, (state = .st ∨ state = .bg ∧ (t.slot i).state = .bg) ∧ row = [.state i state]
  | .cmdline i => (t.slot i).pid ≠ 0 → (t.slot i).pid ∈ kids → row = [.line (t.slot i).cmdline]
  | _ => True

-- no job has come since t, and the ones of children that are still there are as they were
def Stays (t : Jobs) (s : Shell) : Prop :=
  ∀ i, ((t.slot i).pid = 0 → (s.jobs.slot i).pid = 0) ∧
    ((t.slot i).pid ≠ 0 → (t.slot i).pid ∈ s.children →
      s.jobs.slot i = t.slot i ∨ s.jobs.slot i = { t.slot i with state := .st })

theorem stays_notices (hs : Stays u s) (he : Notices e s t) : Stays u t := by
  intro i
  refine ⟨fun h0 => ?_,fun h0 hm => ?_⟩
  · obtain h | ⟨h,-⟩ | h := notices_slot he i <;> rw [h]
    · exact (hs i).1 h0
    · exact (hs i).1 h0
    · rfl
  · have hold := (hs i).2 h0 (by_contra fun hn => gone_of_notices hn he hm)
    have hpid : (s.jobs.slot i).pid = (u.slot i).pid := by rcases hold with h | h <;> rw [h]
    obtain h | h := slot_of_notices he (i := i) (hpid ▸ hm) <;> rw [h]
    · exact hold
    · rcases hold with h | h <;> rw [h] <;> exact .inr rfl

theorem stays_moves (hi : Inv c.shell) (hs : Stays u c.shell) (hb : x.isMain = false)
    (hx : Moves x c d) : Stays u d.shell := by
  cases hx with
  | @shell _ a s ha hm h =>
    cases h with
    | sigchld hb hr hw => exact absurd rfl (ha _)
    | keyboard => exact hs
    | keyboardExit hf => exact hs
    | child he => exact stays_notices hs (notices_of_exec he)
    | _ => cases hb
  | @handler _ s out es hbl hr hw hx =>
    exact noticeStep_invariant (P := fun s _ => Stays u s)
      (fun _ _ _ _ _ _ hs he => stays_notices hs he) hi hbl hs hr
  | print ht hx => exact hs

theorem mem_of_busy (hb : ∀ x ∈ xs, x.isMain = false) (hr : Console.run xs c = some d) {pid : Int}
    (hm : pid ∈ d.shell.children) : pid ∈ c.shell.children := by
  by_contra hn
  refine gone_of_run hn (fun a ha => ?_) (plain_of_run hr) hm
  rintro rfl
  obtain ⟨x,hx,ha⟩ := List.mem_flatMap.mp ha
  cases x with
  | shell a =>
    obtain rfl := List.mem_singleton.mp ha
    cases hb _ hx
  | handler es => cases List.mem_singleton.mp ha
  | print jidFirst => cases ha

theorem shows_exec (hst : ∀ i, (u.slot i).pid ≠ 0 → (u.slot i).state = .bg ∨ (u.slot i).state = .st)
    (hs : Stays u s) (hk : ∀ pid ∈ kids, pid ∈ s.children) {rows : List (List Printed)}
    (hrows : List.Forall₂ (Todo.Shows u kids) (td.exec line first s.jobs).2 rows) :
    td.Shows u kids ((td.exec line first s.jobs).1 ++ rows.flatten) := by
  have hkept (i : Fin maxJobs) (h0 : (u.slot i).pid ≠ 0) (hm : (u.slot i).pid ∈ kids) :=
    (hs i).2 h0 (hk _ hm)
  cases td with
  | say p =>
    cases hrows
    rfl
  | test i =>
    simp only [Todo.exec] at hrows ⊢
    by_cases h0 : (s.jobs.slot i).pid = 0
    · rw [if_neg (not_not.mpr h0)] at hrows
      cases hrows
      refine ⟨fun _ => rfl,fun hp hm => ?_⟩
      obtain h | h := hkept i hp hm <;> rw [h] at h0 <;> exact absurd h0 hp
    · rw [if_pos h0] at hrows
      obtain _ | ⟨h1,_ | ⟨h2,_ | ⟨h3,_ | _⟩⟩⟩ := hrows
      refine ⟨fun hp => absurd ((hs i).1 hp) h0,fun hp hm => ?_⟩
      obtain ⟨state,hstate,rfl⟩ := h2 hp hm
      rw [h1 hp hm,h3 hp hm]
      exact ⟨state,hstate,rfl⟩
  | args bg i =>
    cases bg with
    | true => trivial
    | false =>
      obtain _ | ⟨h1,_ | _⟩ := hrows
      intro hp hm
      cases first with
      | true =>
        rw [h1 hp hm]
        obtain h | h := hkept i hp hm <;> rw [h] <;> rfl
      | false =>
        rw [h1 hp hm]
        obtain h | h := hkept i hp hm <;> rw [h] <;> rfl
  | needPid bg jid i | needJid bg pid i =>
    cases bg with
    | true => trivial
    | false =>
      obtain _ | ⟨h1,_ | _⟩ := hrows
      intro hp hm
      rw [h1]
      obtain h | h := hkept i hp hm <;> rw [h] <;> rfl
  | state i =>
    obtain _ | ⟨h1,_ | _⟩ := hrows
    intro hp hm
    refine ⟨_,?_,by rw [h1]; rfl⟩
    obtain h | h := hkept i hp hm <;> rw [h]
    · exact (hst i hp).symm.imp_right fun hb => ⟨hb,hb⟩
    · exact .inl rfl
  | cmdline i =>
    cases hrows
    intro hp hm
    obtain h | h := hkept i hp hm <;> simp [Todo.exec,h]
  | _ => trivial

theorem prints_handler {out out' : List Printed} {es : List (Event × Nat)} (hi : Inv s)
    (hb : s.blocked = false) (hr : Runs.run noticeStep es (s,out) = some (t,out')) :
    ∃ more, out' = out ++ more ∧ ∀ p ∈ more, p.isJob = true := by
  refine noticeStep_invariant (P := fun _ out' => ∃ more, out' = out ++ more ∧
    ∀ p ∈ more, p.isJob = true) (fun e n s t out' hi hs he => ?_) hi hb ⟨[],by simp⟩ hr
  obtain ⟨more,rfl,hm⟩ := hs
  refine ⟨more ++ e.prints n s,List.append_assoc ..,fun p hp => ?_⟩
  rcases List.mem_append.mp hp with hp | hp
  · exact hm p hp
  · obtain ⟨pid,stopped,-,-,rfl⟩ := prints_notices he hp
    rfl

theorem forall₂_append {α β : Type} {R : α → β → Prop} {l1 l2 : List α} {rows : List β}
    (h : List.Forall₂ R (l1 ++ l2) rows) :
    ∃ rows1 rows2, List.Forall₂ R l1 rows1 ∧ List.Forall₂ R l2 rows2 ∧ rows = rows1 ++ rows2 := by
  have h1 := List.forall₂_take l1.length h
  have h2 := List.forall₂_drop l1.length h
  rw [List.take_left] at h1
  rw [List.drop_left] at h2
  exact ⟨_,_,h1,h2,(List.take_append_drop ..).symm⟩

theorem shows_run (hst : ∀ i, (u.slot i).pid ≠ 0 → (u.slot i).state = .bg ∨ (u.slot i).state = .st)
    (hi : Inv c.shell) (hs : Stays u c.shell) (hq : Quiet c.todo) (hb : ∀ x ∈ xs, x.isMain = false)
    (hr : Console.run xs c = some d) (hd : d.todo = []) :
    ∃ new rows, d.out = c.out ++ new ∧
      List.Forall₂ (Todo.Shows u d.shell.children) c.todo rows ∧
        new.filter (fun p => !p.isJob) = rows.flatten := by
  induction xs generalizing c with
  | nil =>
    obtain rfl := Option.some.inj hr
    exact ⟨[],[],by simp,hd ▸ .nil,rfl⟩
  | cons x xs ih =>
    obtain ⟨c1,hx,hr⟩ := Runs.run_cons.mp hr
    have hmv := moves_of_step hx
    have hbx := hb x List.mem_cons_self
    have hbs : ∀ x ∈ xs, x.isMain = false := fun x hx => hb x (List.mem_cons_of_mem _ hx)
    obtain ⟨new,rows,ho,hrows,hf⟩ := ih (inv_run_from hi (plain_of_step hx))
      (stays_moves hi hs hbx hmv) (quiet_moves hq hmv) hbs hr
    cases hmv with
    | @shell _ a s ha hm h =>
      have hmain : a.isMain = false := hbx
      have hprints : a.prints c.verbose c.shell = [] :=
        List.eq_nil_iff_forall_not_mem.mpr fun p hp => by
          obtain ⟨bg,cmdline,pid,rfl,-⟩ := prints_act hp
          cases hmain
      simp only [hprints,List.append_nil,hmain,Bool.false_eq_true,if_false] at ho hrows
      exact ⟨new,rows,ho,hrows,hf⟩
    | @handler _ s out es hbl hrun hw hx =>
      obtain ⟨more,rfl,hmore⟩ := prints_handler hi hbl hrun
      refine ⟨more ++ new,rows,by rw [ho,List.append_assoc],hrows,?_⟩
      rw [List.filter_append,hf,List.filter_eq_nil_iff.mpr fun p hp => by simp [hmore p hp]]
      rfl
    | @print _ first td rest ht hx =>
      obtain ⟨rows1,rows2,h1,h2,rfl⟩ := forall₂_append hrows
      have hk : ∀ pid ∈ d.shell.children, pid ∈ c.shell.children := fun pid hm =>
        mem_of_busy hbs hr hm
      have hprint : ∀ p ∈ (td.exec c.cmdline first c.shell.jobs).1, (!p.isJob) = true := fun p hp => by
        rw [isJob_exec (hq td (ht ▸ List.mem_cons_self)) hp]
        rfl
      refine ⟨(td.exec c.cmdline first c.shell.jobs).1 ++ new,
        ((td.exec c.cmdline first c.shell.jobs).1 ++ rows1.flatten) :: rows2,
        by rw [ho,List.append_assoc],ht ▸ .cons (shows_exec hst hs hk h1) h2,?_⟩
      rw [List.filter_append,List.filter_eq_self.mpr hprint,hf,List.flatten_cons,List.flatten_append,
        List.append_assoc]

theorem shell_of_jobs {line : List Char} {args : List (List Char)} {bg : Bool}
    (h : Console.step (.shell (.read line (['j','o','b','s'] :: args) bg)) c = some d) :
    c.shell.pc = .prompt ∧ d.shell = c.shell ∧ d.out = c.out ∧ d.todo = listjobs := by
  cases moves_of_step h with
  | shell ha hm hs =>
    cases hs with
    | read hpc =>
      refine ⟨hpc,?_,List.append_nil _,rfl⟩
      change { c.shell with pc := eval line (['j','o','b','s'] :: args) bg } = c.shell
      rw [eval,if_neg (List.cons_ne_nil _ _),builtinCmd,Option.getD_some,← hpc]

theorem jobs_rows {line : List Char} {args : List (List Char)} {bg : Bool}
    (hr : Console.run xs (Console.start v) = some c)
    (hj : Console.step (.shell (.read line (['j','o','b','s'] :: args) bg)) c = some d)
    (hb : ∀ x ∈ ys, x.isMain = false) {f : Console} (hd : Console.run ys d = some f)
    (hf : f.todo = []) :
    ∃ new rows, f.out = c.out ++ new ∧ new.filter (fun p => !p.isJob) = rows.flatten ∧
      List.Forall₂ (Row c.shell.jobs f.shell.children) (List.finRange maxJobs) rows := by
  obtain ⟨hpc,hsh,ho,ht⟩ := shell_of_jobs hj
  have hi := inv_console hr
  have hst (i : Fin maxJobs) (h0 : (c.shell.jobs.slot i).pid ≠ 0) :
      (c.shell.jobs.slot i).state = .bg ∨ (c.shell.jobs.slot i).state = .st := by
    have hnamed := hi.tabled.named i h0
    have hfg := hi.fg i
    rw [hpc] at hfg
    cases hs : (c.shell.jobs.slot i).state with
    | undef => exact absurd hs hnamed
    | fg => exact (hfg hs).elim
    | bg => exact .inl rfl
    | st => exact .inr rfl
  obtain ⟨new,rows,hout,hrows,hfil⟩ := shows_run (u := c.shell.jobs) hst (hsh ▸ hi)
    (fun i => by rw [hsh]; exact ⟨id,fun _ _ => .inl rfl⟩) (quiet_moves (quiet_run hr) (moves_of_step hj))
    hb hd hf
  refine ⟨new,rows,ho ▸ hout,hfil,?_⟩
  rw [ht,listjobs,List.forall₂_map_left_iff] at hrows
  exact hrows

def jobsTurn : Turn := .shell (.read [] [['j','o','b','s']] false)

-- the second of two jobs is gone when its slot is tested
def listTurns : List Turn :=
  List.replicate 7 (.print false) ++ [.shell (.child 102 .exit),.handler [(.notice 102,0)]] ++
    List.replicate 15 (.print false)

theorem jobs_rows_two : ∃ (c f : Console) (new : List Printed) (rows : List (List Printed)),
    Console.run (background 0 101 ++ background 1 102) (Console.start false) = some c ∧
      Console.run (jobsTurn :: listTurns) c = some f ∧ 101 ∈ f.shell.children ∧
        f.out = c.out ++ new ∧ new.filter (fun p => !p.isJob) = rows.flatten ∧
          List.Forall₂ (Row c.shell.jobs f.shell.children) (List.finRange maxJobs) rows := by
  obtain ⟨f,hr,hq⟩ := Console.exists_run false
    ((background 0 101 ++ background 1 102) ++ jobsTurn :: listTurns)
    (fun f => f.todo = [] ∧ (f.shell.children.lookup 101).isSome) (by decide +kernel)
  rw [Console.run,Runs.run_append] at hr
  obtain ⟨c,hc,hr⟩ := Option.bind_eq_some_iff.mp hr
  obtain ⟨d,hd,hf⟩ := Runs.run_cons.mp hr
  obtain ⟨htodo,hlive⟩ := of_decide_eq_true hq
  obtain ⟨new,rows,h⟩ := jobs_rows hc hd (by decide) hf htodo
  exact ⟨c,f,new,rows,hc,hr,AList.lookup_isSome.mp hlive,h⟩

end Rows

end Tsh
