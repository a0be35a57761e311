import IcsLabs.Tsh.Signals

namespace Tsh

-- the pid a signal handler is about to pass to kill
def Frame.held (f : Frame) : Option Int :=
  match f.code with
  | .send pid => some pid
  | _ => none

-- the child whose stop waitpid has reported to f, the table not marked yet
def Frame.stops (f : Frame) : Option Int :=
  match f.code with
  | .block _ pid false | .update _ pid false => some pid
  | _ => none

-- the child that f has reaped, its slot not cleared yet
def Frame.gone (f : Frame) : Option Int :=
  match f.code with
  | .block _ pid true | .update _ pid true => some pid
  | _ => none

def Frame.Keyboard (f : Frame) : Prop :=
  match f.code with
  | .fgpid | .send _ => True
  | _ => False

def reaped (fs : List Frame) : List Int := fs.filterMap Frame.gone

def ended : Status → Bool
  | .exited | .signaled => true
  | _ => false

namespace World

-- the job that do_bgfg has looked up
def target (w : World) : Option Int :=
  match w.shell.pc with
  | .kill _ i => some (w.shell.jobs.slot i).pid
  | _ => none

-- a child pid that has run its setpgid
def Joined (pid : Int) (w : World) : Prop := (w.child pid).all Child.joined = true

instance (pid : Int) (w : World) : Decidable (Joined pid w) := inferInstanceAs (Decidable (_ = true))

end World

def Frame.Orderly (f : Frame) (fs : List Frame) (w : World) : Prop :=
  match f.code with
  | .fgpid => fgpid w.shell.jobs ∉ reaped fs
  | .send pid => w.Joined pid
  | _ => True

instance (f : Frame) (fs : List Frame) (w : World) : Decidable (f.Orderly fs w) := by
  unfold Frame.Orderly
  split <;> infer_instance

-- no kill before the setpgid of the child, and no report of a child between the moment a handler
-- or do_bgfg takes its job from the table and the kill
def Orderly (a : Move) (w : World) : Prop :=
  match a,w.frames with
  | .handler,f :: fs => f.Orderly fs w
  | .kill,_ => ∀ pid ∈ w.call, w.Joined pid
  | .waitpid pid,fs => (∀ f ∈ fs, f.held ≠ some pid) ∧
    ((w.child pid).any (fun ch => ended ch.status) = true → w.target ≠ some pid)
  | _,_ => True

instance (a : Move) (w : World) : Decidable (Orderly a w) := by
  unfold Orderly
  split <;> infer_instance

-- a process not reaped, listed in the table
def LiveJob (pid : Int) (s : Shell) (fg : Bool) : Prop :=
  pid ≠ 0 ∧ pid ∈ s.children ∧
    ∃ i, (s.jobs.slot i).pid = pid ∧ (fg = true → (s.jobs.slot i).state = .fg)

-- what the kill of a step reaches: a listed job, for the two signal handlers in the foreground
def Targets (a : Move) (w : World) : Prop :=
  match a,w.frames with
  | .handler,f :: _ => ∀ pid, f.held = some pid → LiveJob pid w.shell true
  | .kill,_ => ∀ pid, w.call = some pid → LiveJob pid w.shell false
  | _,_ => True

structure Sound (w : World) : Prop where
  tabled : ∃ kids : Children, (∀ q, q ∈ kids ↔ q ∈ w.shell.children ∨ q ∈ reaped w.frames) ∧
    Tabled w.shell.jobs kids
  once : (reaped w.frames).Nodup
  gone : ∀ q ∈ reaped w.frames, q ∉ w.shell.children
  held : ∀ f ∈ w.frames, ∀ pid, f.held = some pid → LiveJob pid w.shell true
  apart : w.frames.Pairwise fun f g => ∀ pid, g.held = some pid → f.stops ≠ some pid
  masked : w.shell.pc.blocks →
    w.shell.blocked = true ∧ ∀ f ∈ w.frames, f.mask .chld = true ∧ f.Keyboard
  adding : ∀ bg cmdline pid, w.shell.pc = .add bg cmdline pid →
    (1 ≤ pid → pid ∈ w.shell.children) ∧ ∀ i, (w.shell.jobs.slot i).pid ≠ pid
  target : ∀ fg i, w.shell.pc = .kill fg i → LiveJob (w.shell.jobs.slot i).pid w.shell false ∧
    ∀ pid, w.call = some pid → pid = (w.shell.jobs.slot i).pid
  idle : (∀ fg i, w.shell.pc ≠ .kill fg i) → w.call = none

-- what is left of it while no handler runs
structure Main (s : Shell) (call : Option Int) : Prop where
  tabled : Tabled s.jobs s.children
  blocked : s.pc.blocks → s.blocked = true
  adding : ∀ bg cmdline pid, s.pc = .add bg cmdline pid →
    (1 ≤ pid → pid ∈ s.children) ∧ ∀ i, (s.jobs.slot i).pid ≠ pid
  target : ∀ fg i, s.pc = .kill fg i → LiveJob (s.jobs.slot i).pid s false ∧
    ∀ pid, call = some pid → pid = (s.jobs.slot i).pid
  idle : (∀ fg i, s.pc ≠ .kill fg i) → call = none

section Main

variable {w : World} {s t : Shell} {call : Option Int} {a : Act} {pc : Pc}

theorem sound_main (h : Main w.shell w.call) (hf : w.frames = []) : Sound w := by
  refine ⟨⟨w.shell.children,fun q => ?_,h.tabled⟩,?_,?_,?_,?_,fun hb => ⟨h.blocked hb,?_⟩,h.adding,
    h.target,h.idle⟩
  all_goals rw [hf]
  · simp [reaped]
  · exact List.nodup_nil
  · exact fun q hq => absurd hq List.not_mem_nil
  · exact fun f hm => absurd hm List.not_mem_nil
  · exact List.Pairwise.nil
  · exact fun f hm => absurd hm List.not_mem_nil

theorem main_of_sound (h : Sound w) (hf : w.frames = []) : Main w.shell w.call := by
  obtain ⟨kids,hk,ht⟩ := h.tabled
  refine ⟨tabled_congr ht fun q => ?_,fun hb => (h.masked hb).1,h.adding,h.target,h.idle⟩
  rw [hk,hf]
  simp [reaped]

-- a place with nothing to remember
def Pc.Free : Pc → Prop
  | .add .. | .kill .. => False
  | _ => True

theorem main_free (h : Main s call) (hs : ∀ fg i, s.pc ≠ .kill fg i) (hpc : pc.Free)
    (hb : pc.blocks → s.blocked = true) : Main { s with pc := pc } call := by
  refine ⟨h.tabled,hb,fun bg cmdline pid he => ?_,fun fg i he => ?_,fun _ => h.idle hs⟩
  · have he : pc = _ := he
    subst he
    exact hpc.elim
  · have he : pc = _ := he
    subst he
    exact hpc.elim

theorem main_start : Main start none := by
  refine ⟨inv_start.tabled,fun h => h.elim,fun _ _ _ h => ?_,fun _ _ h => ?_,fun _ => rfl⟩
  · cases h
  · cases h

theorem main_bgfg {fg : Bool} {arg : List Char} (h : Main s call) (hpc : s.pc = .bgfg fg arg) :
    Main { s with pc := lookupJob fg arg s.jobs } call := by
  have hs : ∀ fg i, s.pc ≠ .kill fg i := fun _ _ he => by simp [hpc] at he
  obtain he | ⟨i,he,hi⟩ := lookupJob_cases fg arg s.jobs <;> rw [he]
  · exact main_free h hs trivial fun hb => hb.elim
  · have hp : (s.jobs.slot i).pid ≠ 0 := by
      rcases hi with ⟨pid,hi⟩ | ⟨jid,hi⟩
      · have := getjobpid_some hi
        omega
      · intro h0
        have hj := h.tabled.numbered.free i h0
        have := getjobjid_some hi
        omega
    refine ⟨h.tabled,fun hb => hb.elim,fun _ _ _ he => ?_,fun fg' j he => ?_,fun hn => ?_⟩
    · cases he
    · cases he
      refine ⟨⟨hp,h.tabled.live i hp,i,rfl,fun hf => (by cases hf)⟩,fun pid hc => ?_⟩
      rw [h.idle hs] at hc
      cases hc
    · exact absurd rfl (hn fg i)

theorem main_steps {kin : Int → Nat} (h : Main s call) (ha : Steps a s t) (hplain : a.plain kin = true) :
    Main t call := by
  cases ha with
  | @read _ cmdline argv bg hpc =>
    have hs : ∀ fg i, s.pc ≠ .kill fg i := fun _ _ he => by simp [hpc] at he
    obtain he | he | ⟨fg,arg,he⟩ | he := eval_cases cmdline argv bg <;> rw [he] <;>
      exact main_free h hs trivial fun hb => hb.elim
  | eof hpc => exact main_free h (fun _ _ he => by simp [hpc] at he) trivial fun hb => hb.elim
  | block hpc =>
    refine ⟨h.tabled,fun _ => rfl,fun _ _ _ he => ?_,fun _ _ he => ?_,fun _ => h.idle ?_⟩
    · cases he
    · cases he
    · exact fun _ _ he => by simp [hpc] at he
  | @noFork _ bg cmdline hpc =>
    refine ⟨h.tabled,fun _ => h.blocked (hpc ▸ trivial),fun _ _ _ he => ?_,fun _ _ he => ?_,
      fun _ => h.idle ?_⟩
    · cases he
      refine ⟨fun h1 => by omega,fun i hi => ?_⟩
      have hi : (s.jobs.slot i).pid = -1 := hi
      have := h.tabled.born _ (h.tabled.live i (by omega))
      omega
    · cases he
    · exact fun _ _ he => by simp [hpc] at he
  | @fork _ bg cmdline pid hpc hp hn =>
    refine ⟨tabled_insert h.tabled hp _,fun _ => h.blocked (hpc ▸ trivial),fun _ _ _ he => ?_,
      fun _ _ he => ?_,fun _ => h.idle ?_⟩
    · cases he
      refine ⟨fun _ => (AList.mem_insert _).mpr (.inl rfl),fun i hi => hn ?_⟩
      have hi : (s.jobs.slot i).pid = pid := hi
      exact hi ▸ h.tabled.live i (by omega)
    · cases he
    · exact fun _ _ he => by simp [hpc] at he
  | @add _ bg cmdline pid hpc =>
    obtain ⟨hm,hn⟩ := h.adding bg cmdline pid hpc
    refine ⟨tabled_addjob _ cmdline h.tabled hm hn (by cases bg <;> simp),
      fun _ => h.blocked (hpc ▸ trivial),fun _ _ _ he => ?_,fun _ _ he => ?_,fun _ => h.idle ?_⟩
    · cases he
    · cases he
    · exact fun _ _ he => by simp [hpc] at he
  | @unblock _ bg pid hpc =>
    refine ⟨h.tabled,?_,fun _ _ _ he => ?_,fun _ _ he => ?_,fun _ => h.idle ?_⟩
    · cases bg <;> exact fun hb => hb.elim
    · cases bg <;> cases he
    · cases bg <;> cases he
    · exact fun _ _ he => by simp [hpc] at he
  | bgfg hpc => exact main_bgfg h hpc
  | @assign _ fg i hpc =>
    refine ⟨tabled_setState h.tabled (by cases fg <;> simp),?_,fun _ _ _ he => ?_,fun _ _ he => ?_,
      fun _ => h.idle ?_⟩
    · cases fg <;> exact fun hb => hb.elim
    · cases fg <;> cases he
    · cases fg <;> cases he
    · exact fun _ _ he => by simp [hpc] at he
  | arg hpc => exact main_free h (fun _ _ he => by simp [hpc] at he) trivial fun hb => hb.elim
  | waiting hpc hf => exact h
  | waited hpc hf =>
    exact main_free h (fun _ _ he => by simp [hpc] at he) trivial fun hb => hb.elim
  | kill hpc hk => cases hplain
  | noKill hpc => cases hplain
  | sigchld hb hr hw => cases hplain
  | keyboard => cases hplain
  | keyboardExit hf => cases hplain
  | child hc => cases hplain

end Main

section Frames

variable {w v : World} {s t : Shell} {f g : Frame} {fs : List Frame} {pid : Int} {a : Move}
  {kids : Children} {i : Fin maxJobs}

theorem reaped_cons (f : Frame) (fs : List Frame) : reaped (f :: fs) = f.gone.toList ++ reaped fs := by
  unfold reaped
  cases h : f.gone with
  | none => rw [List.filterMap_cons_none h]; rfl
  | some pid => rw [List.filterMap_cons_some h]; rfl

theorem deletejob_keeps {t : Jobs} (h : (t.slot i).pid ≠ pid) :
    (deletejob pid t).2.slot i = t.slot i := by
  obtain ⟨he,-⟩ | ⟨-,k,hk,he⟩ := deletejob_spec pid t <;> rw [he]
  refine setSlot_ne ?_ _ _
  rintro rfl
  exact h hk

theorem markStopped_keeps {t : Jobs} (h : (t.slot i).pid ≠ pid) :
    (markStopped pid t).slot i = t.slot i := by
  obtain ⟨he,-⟩ | ⟨k,hk,he⟩ := markStopped_cases pid t <;> rw [he]
  refine setSlot_ne ?_ _ _
  rintro rfl
  exact h hk

theorem markStopped_pid (t : Jobs) (pid : Int) (i : Fin maxJobs) :
    ((markStopped pid t).slot i).pid = (t.slot i).pid := by
  obtain ⟨he,-⟩ | ⟨k,hk,he⟩ := markStopped_cases pid t <;> rw [he]
  rcases eq_or_ne i k with rfl | hik
  · rw [setSlot_self]
  · rw [setSlot_ne hik]

theorem liveJob_of_slots {fg : Bool} (h : LiveJob pid s fg) (hm : pid ∈ t.children)
    (hj : ∀ i, (s.jobs.slot i).pid = pid → t.jobs.slot i = s.jobs.slot i) : LiveJob pid t fg := by
  obtain ⟨h0,-,i,hi,hfg⟩ := h
  exact ⟨h0,hm,i,by rw [hj i hi,hi],by rw [hj i hi]; exact hfg⟩

theorem killOk_of_liveJob {fg : Bool} (h : LiveJob pid w.shell fg) (hj : w.Joined pid) :
    w.killOk pid = true := by
  obtain ⟨ch,hch⟩ := Option.isSome_iff_exists.mp (AList.lookup_isSome.mpr h.2.1)
  have hch : w.child pid = some ch := hch
  have hjoin : ch.joined = true := by
    rw [World.Joined,hch] at hj
    exact hj
  rw [World.killOk,hch,Option.any_some,hjoin,Bool.or_true,Bool.true_or]

theorem sound_children (h : Sound w) (hk : ∀ q, q ∈ kids ↔ q ∈ w.shell.children) :
    Sound { w with shell.children := kids } := by
  obtain ⟨all,hall,ht⟩ := h.tabled
  have hl {fg : Bool} {q : Int} (hq : LiveJob q w.shell fg) :
      LiveJob q { w.shell with children := kids } fg :=
    liveJob_of_slots hq ((hk q).mpr hq.2.1) fun _ _ => rfl
  refine ⟨⟨all,fun q => (hall q).trans (or_congr_left (hk q).symm),ht⟩,h.once,
    fun q hq hm => h.gone q hq ((hk q).mp hm),fun f hf q hq => hl (h.held f hf q hq),h.apart,h.masked,
    fun bg cmdline q hpc => ?_,fun fg i hpc => ?_,h.idle⟩
  · obtain ⟨hm,hn⟩ := h.adding bg cmdline q hpc
    exact ⟨fun hp => (hk q).mpr (hm hp),hn⟩
  · obtain ⟨hi,hc⟩ := h.target fg i hpc
    exact ⟨hl hi,hc⟩

theorem sound_kin (h : Sound w) (kin : Int → Nat) : Sound { w with kin := kin } :=
  ⟨h.tabled,h.once,h.gone,h.held,h.apart,h.masked,h.adding,h.target,h.idle⟩

theorem sound_top (h : Sound w) (hf : w.frames = f :: fs) (hgone : g.gone = f.gone)
    (hstops : ∀ pid, g.stops = some pid → f.stops = some pid)
    (hheld : ∀ pid, g.held = some pid → LiveJob pid w.shell true)
    (hmask : f.Keyboard → g.Keyboard ∧ g.mask = f.mask) :
    Sound { w with frames := g :: fs } := by
  obtain ⟨h1,h2,h3,h4,h5,h6,h7,h8,h9⟩ := h
  rw [hf] at h1 h2 h3 h4 h5 h6
  have hr : reaped (g :: fs) = reaped (f :: fs) := by rw [reaped_cons,reaped_cons,hgone]
  obtain ⟨ha,hb⟩ := List.pairwise_cons.mp h5
  refine ⟨by rw [hr]; exact h1,by rw [hr]; exact h2,by rw [hr]; exact h3,
    List.forall_mem_cons.mpr ⟨hheld,(List.forall_mem_cons.mp h4).2⟩,
    List.pairwise_cons.mpr ⟨fun f' hf' pid hp hs => ha f' hf' pid hp (hstops pid hs),hb⟩,
    fun hbl => ?_,h7,h8,h9⟩
  obtain ⟨hbk,hm⟩ := h6 hbl
  obtain ⟨hmf,hmfs⟩ := List.forall_mem_cons.mp hm
  obtain ⟨hgk,hgm⟩ := hmask hmf.2
  exact ⟨hbk,List.forall_mem_cons.mpr ⟨⟨hgm ▸ hmf.1,hgk⟩,hmfs⟩⟩

theorem sound_pop (h : Sound w) (hf : w.frames = f :: fs) (hgone : f.gone = none) :
    Sound { w with frames := fs } := by
  obtain ⟨h1,h2,h3,h4,h5,h6,h7,h8,h9⟩ := h
  rw [hf] at h1 h2 h3 h4 h5 h6
  have hr : reaped (f :: fs) = reaped fs := by
    rw [reaped_cons,hgone]
    rfl
  rw [hr] at h1 h2 h3
  exact ⟨h1,h2,h3,(List.forall_mem_cons.mp h4).2,(List.pairwise_cons.mp h5).2,
    fun hb => ⟨(h6 hb).1,(List.forall_mem_cons.mp (h6 hb).2).2⟩,h7,h8,h9⟩

theorem sound_push (h : Sound w) (hgone : g.gone = none) (hstops : g.stops = none)
    (hheld : g.held = none)
    (hmask : w.shell.pc.blocks → g.mask .chld = true ∧ g.Keyboard) :
    Sound { w with frames := g :: w.frames } := by
  have hr : reaped (g :: w.frames) = reaped w.frames := by
    rw [reaped_cons,hgone]
    rfl
  refine ⟨by rw [hr]; exact h.tabled,by rw [hr]; exact h.once,by rw [hr]; exact h.gone,
    List.forall_mem_cons.mpr ⟨fun pid hp => ?_,h.held⟩,
    List.pairwise_cons.mpr ⟨fun f _ pid _ hs => ?_,h.apart⟩,
    fun hb => ⟨(h.masked hb).1,List.forall_mem_cons.mpr ⟨hmask hb,(h.masked hb).2⟩⟩,
    h.adding,h.target,h.idle⟩
  · rw [hheld] at hp
    cases hp
  · rw [hstops] at hs
    cases hs

theorem mask_blocked (h : Sound w) (hb : w.shell.pc.blocks) : w.mask .chld = true := by
  obtain ⟨hbk,hm⟩ := h.masked hb
  rw [World.mask]
  cases hf : w.frames with
  | nil => simp [hbk]
  | cons f fs => exact (hm f (by rw [hf]; exact List.mem_cons_self ..)).1

theorem sound_signal {sig : Sig} (h : Sound w) (m : Mask) (hs : w.mask sig = false) :
    Sound { w with
      frames := ⟨fun s => w.mask s || s == sig,if sig = .chld then .wait m else .fgpid⟩ :: w.frames } := by
  refine sound_push h ?_ ?_ ?_ fun hb => ?_
  · cases sig <;> rfl
  · cases sig <;> rfl
  · cases sig <;> rfl
  · have hm := mask_blocked h hb
    refine ⟨by simp [hm],?_⟩
    cases sig with
    | chld => rw [hm] at hs; cases hs
    | int => trivial
    | tstp => trivial

theorem liveJob_fgpid (h : Sound w) (h0 : fgpid w.shell.jobs ≠ 0)
    (hr : fgpid w.shell.jobs ∉ reaped w.frames) : LiveJob (fgpid w.shell.jobs) w.shell true := by
  obtain ⟨kids,hk,ht⟩ := h.tabled
  obtain ⟨i,hi⟩ := fg_of_fgpid h0
  obtain ⟨j,hj,he⟩ := fgpid_of_fg hi
  rw [he] at h0 hr ⊢
  exact ⟨h0,((hk _).mp (ht.live j h0)).resolve_right hr,j,rfl,fun _ => hj⟩

theorem not_blocks (h : Sound w) (hf : w.frames = f :: fs) (hk : ¬ f.Keyboard) :
    ¬ w.shell.pc.blocks := fun hb =>
  hk ((h.masked hb).2 f (by rw [hf]; exact List.mem_cons_self ..)).2

theorem reaped_unblock {m m' : Mask} (fs : List Frame) :
    reaped (⟨m',.unblock m⟩ :: fs) = reaped fs := by
  rw [reaped_cons]
  rfl

theorem sound_delete {m m' : Mask} (h : Sound w) (hf : w.frames = f :: fs)
    (hc : f.code = .update m pid true) : Sound { w with
      shell.jobs := (deletejob pid w.shell.jobs).2
      frames := ⟨m',.unblock m⟩ :: fs } := by
  have hnb : ¬ w.shell.pc.blocks := not_blocks h hf (by simp [Frame.Keyboard,hc])
  obtain ⟨⟨kids,hk,ht⟩,h2,h3,h4,h5,h6,h7,h8,h9⟩ := h
  have hr : reaped (⟨m',.unblock m⟩ :: fs) = reaped fs := reaped_unblock fs
  have hg : f.gone = some pid := by simp only [Frame.gone,hc]
  rw [hf,reaped_cons,hg,Option.toList_some,List.singleton_append] at hk h2 h3
  rw [hf] at h4 h5
  obtain ⟨-,h4⟩ := List.forall_mem_cons.mp h4
  obtain ⟨-,h5⟩ := List.pairwise_cons.mp h5
  obtain ⟨hnot,h2⟩ := List.nodup_cons.mp h2
  obtain ⟨hdead,h3⟩ := List.forall_mem_cons.mp h3
  have hkeep {fg : Bool} {q : Int} (hl : LiveJob q w.shell fg) :
      LiveJob q { w.shell with jobs := (deletejob pid w.shell.jobs).2 } fg := by
    refine liveJob_of_slots hl hl.2.1 fun i hi => deletejob_keeps fun he => hdead ?_
    rw [← he,hi]
    exact hl.2.1
  have htab := (tabled_reap ht ((hk pid).mpr (.inr (List.mem_cons_self ..)))).1
  refine ⟨⟨kids.erase pid,fun q => ?_,htab⟩,by rw [hr]; exact h2,by rw [hr]; exact h3,
    List.forall_mem_cons.mpr ⟨fun p hp => (by cases hp),fun f hf p hp => hkeep (h4 f hf p hp)⟩,
    List.pairwise_cons.mpr ⟨fun f _ p _ hs => (by cases hs),h5⟩,fun hb => absurd hb hnb,
    fun bg cmdline q he => absurd (he ▸ trivial) hnb,fun fg i he => ?_,h9⟩
  · rw [AList.mem_erase,hk,hr,List.mem_cons]
    constructor
    · rintro ⟨hne,hq | hq | hq⟩
      · exact .inl hq
      · exact absurd hq hne
      · exact .inr hq
    · rintro (hq | hq)
      · exact ⟨fun he => hdead (he ▸ hq),.inl hq⟩
      · exact ⟨fun he => hnot (he ▸ hq),.inr (.inr hq)⟩
  · obtain ⟨hl,hcall⟩ := h8 fg i he
    have hslot : (deletejob pid w.shell.jobs).2.slot i = w.shell.jobs.slot i :=
      deletejob_keeps fun hp => hdead (hp ▸ hl.2.1)
    simp only [hslot]
    exact ⟨hkeep hl,hcall⟩

theorem sound_stopped {m m' : Mask} (h : Sound w) (hf : w.frames = f :: fs)
    (hc : f.code = .update m pid false) : Sound { w with
      shell.jobs := markStopped pid w.shell.jobs
      frames := ⟨m',.unblock m⟩ :: fs } := by
  have hnb : ¬ w.shell.pc.blocks := not_blocks h hf (by simp [Frame.Keyboard,hc])
  obtain ⟨⟨kids,hk,ht⟩,h2,h3,h4,h5,h6,h7,h8,h9⟩ := h
  have hr : reaped (⟨m',.unblock m⟩ :: fs) = reaped fs := reaped_unblock fs
  have hg : f.gone = none := by simp only [Frame.gone,hc]
  have hst : f.stops = some pid := by simp only [Frame.stops,hc]
  rw [hf,reaped_cons,hg,Option.toList_none,List.nil_append] at hk h2 h3
  rw [hf] at h4 h5
  obtain ⟨-,h4⟩ := List.forall_mem_cons.mp h4
  obtain ⟨ha,h5⟩ := List.pairwise_cons.mp h5
  refine ⟨⟨kids,fun q => by rw [hr]; exact hk q,tabled_markStopped ht⟩,by rw [hr]; exact h2,
    by rw [hr]; exact h3,List.forall_mem_cons.mpr ⟨fun p hp => (by cases hp),fun f' hf' p hp => ?_⟩,
    List.pairwise_cons.mpr ⟨fun f _ p _ hs => (by cases hs),h5⟩,fun hb => absurd hb hnb,
    fun bg cmdline q he => absurd (he ▸ trivial) hnb,fun fg i he => ?_,h9⟩
  · have hl := h4 f' hf' p hp
    refine liveJob_of_slots hl hl.2.1 fun i hi => markStopped_keeps fun he => ha f' hf' p hp ?_
    rw [hst,← he,hi]
  · obtain ⟨⟨h0,hm,j,hj,-⟩,hcall⟩ := h8 fg i he
    have hpid := markStopped_pid w.shell.jobs pid
    refine ⟨⟨?_,?_,j,?_,fun hfg => (by cases hfg)⟩,fun p hp => ?_⟩
    · exact (hpid i).symm ▸ h0
    · exact (hpid i).symm ▸ hm
    · exact (hpid j).trans (hj.trans (hpid i).symm)
    · exact (hcall p hp).trans (hpid i).symm

theorem sound_update {m m' : Mask} {gone : Bool} (h : Sound w) (hf : w.frames = f :: fs)
    (hc : f.code = .update m pid gone) : Sound { w with
      shell.jobs := if gone then (deletejob pid w.shell.jobs).2 else markStopped pid w.shell.jobs
      frames := ⟨m',.unblock m⟩ :: fs } := by
  cases gone with
  | true => exact sound_delete h hf hc
  | false => exact sound_stopped h hf hc

theorem sound_reap {m m' : Mask} (h : Sound w) (hf : w.frames = f :: fs) (hc : f.code = .wait m)
    (hm : pid ∈ w.shell.children) (hheld : ∀ f ∈ w.frames, f.held ≠ some pid)
    (ht : w.target ≠ some pid) : Sound { w with
      shell.children := w.shell.children.erase pid, frames := ⟨m',.block m pid true⟩ :: fs } := by
  have hnb : ¬ w.shell.pc.blocks := not_blocks h hf (by simp [Frame.Keyboard,hc])
  have hg : f.gone = none := by simp only [Frame.gone,hc]
  have hkeep {fg : Bool} {q : Int} (hl : LiveJob q w.shell fg) (hq : q ≠ pid) :
      LiveJob q { w.shell with children := w.shell.children.erase pid } fg :=
    liveJob_of_slots hl (AList.mem_erase.mpr ⟨hq,hl.2.1⟩) fun _ _ => rfl
  obtain ⟨⟨kids,hk,htab⟩,h2,h3,h4,h5,h6,h7,h8,h9⟩ := h
  have hr : reaped (⟨m',.block m pid true⟩ :: fs) = pid :: reaped fs := by
    rw [reaped_cons]
    rfl
  rw [hf,reaped_cons,hg,Option.toList_none,List.nil_append] at hk h2 h3
  rw [hf] at h4 h5 hheld
  obtain ⟨-,h4⟩ := List.forall_mem_cons.mp h4
  obtain ⟨-,h5⟩ := List.pairwise_cons.mp h5
  obtain ⟨-,hheld⟩ := List.forall_mem_cons.mp hheld
  refine ⟨⟨kids,fun q => ?_,htab⟩,by rw [hr]; exact List.nodup_cons.mpr ⟨fun hq => h3 pid hq hm,h2⟩,
    fun q hq hmem => ?_,List.forall_mem_cons.mpr ⟨fun p hp => (by cases hp),fun f hf p hp => ?_⟩,
    List.pairwise_cons.mpr ⟨fun f _ p _ hs => (by cases hs),h5⟩,fun hb => absurd hb hnb,
    fun bg cmdline q he => absurd (he ▸ trivial) hnb,fun fg i he => ?_,h9⟩
  · rw [hk,hr,List.mem_cons,AList.mem_erase]
    by_cases hq : q = pid
    · subst hq
      exact iff_of_true (.inl hm) (.inr (.inl rfl))
    · simp [hq]
  · rw [hr] at hq
    obtain ⟨hne,hmem⟩ := AList.mem_erase.mp hmem
    exact h3 q ((List.mem_cons.mp hq).resolve_left hne) hmem
  · refine hkeep (h4 f hf p hp) fun he => hheld f hf (he ▸ hp)
  · obtain ⟨hl,hcall⟩ := h8 fg i he
    refine ⟨hkeep hl fun hp => ht ?_,hcall⟩
    have he : w.shell.pc = .kill fg i := he
    rw [World.target,he]
    exact congrArg some hp

theorem sound_notice {m m' : Mask} {ch ch' : Child} (h : Sound w) (hf : w.frames = f :: fs)
    (hc : f.code = .wait m) (hl : w.child pid = some ch)
    (hheld : ∀ f ∈ w.frames, f.held ≠ some pid) : Sound { w with
      shell.children := w.shell.children.insert pid ch'
      frames := ⟨m',.block m pid false⟩ :: fs } := by
  have hnb : ¬ w.shell.pc.blocks := not_blocks h hf (by simp [Frame.Keyboard,hc])
  have hg : f.gone = none := by simp only [Frame.gone,hc]
  have h' : Sound { w with shell.children := w.shell.children.insert pid ch' } :=
    sound_children h fun q => mem_insert_same hl
  obtain ⟨h1,h2,h3,h4,h5,h6,h7,h8,h9⟩ := sound_pop h' hf hg
  have hr : reaped (⟨m',.block m pid false⟩ :: fs) = reaped fs := by
    rw [reaped_cons]
    rfl
  refine ⟨by rw [hr]; exact h1,by rw [hr]; exact h2,by rw [hr]; exact h3,
    List.forall_mem_cons.mpr ⟨fun p hp => (by cases hp),h4⟩,
    List.pairwise_cons.mpr ⟨fun g hg p hp hs => ?_,h5⟩,fun hb => absurd hb hnb,h7,h8,h9⟩
  obtain rfl := Option.some.inj hs
  exact hheld g (by rw [hf]; exact List.mem_cons_of_mem _ hg) hp

end Frames

section Runs

variable {w v : World} {s t : Shell} {f : Frame} {fs : List Frame} {pid : Int} {a : Move}
  {acts : List Move} {i : Fin maxJobs}

theorem targets_of_sound (h : Sound w) (a : Move) : Targets a w := by
  unfold Targets
  split
  · rename_i f fs hf
    exact h.held f (by rw [hf]; exact List.mem_cons_self ..)
  · intro pid hc
    by_contra hl
    have hpc : ∀ fg i, w.shell.pc ≠ .kill fg i := fun fg i hpc => by
      obtain ⟨ht,hcall⟩ := h.target fg i hpc
      exact hl (hcall pid hc ▸ ht)
    rw [h.idle hpc] at hc
    cases hc
  · trivial

theorem sound_load (h : Sound w) (hf : w.frames = []) (hs : w.load = some v) :
    Sound v ∧ v.failed = w.failed := by
  simp only [World.load] at hs
  split at hs
  case h_1 fg i hpc hc =>
    obtain rfl := Option.some.inj hs
    have hm := main_of_sound h hf
    refine ⟨sound_main ⟨hm.tabled,hm.blocked,hm.adding,fun fg' j he => ?_,fun hn => ?_⟩ hf,rfl⟩
    · have he : w.shell.pc = .kill fg' j := he
      refine ⟨(hm.target fg' j he).1,fun pid hp => ?_⟩
      rw [hpc] at he
      cases he
      exact (Option.some.inj hp).symm
    · exact absurd hpc (hn fg i)
  case h_2 => cases hs

theorem sound_kill (h : Sound w) (hf : w.frames = []) (ho : ∀ pid ∈ w.call, w.Joined pid)
    (hs : w.kill = some v) : Sound v ∧ v.failed = w.failed := by
  simp only [World.kill] at hs
  split at hs
  case h_1 fg i pid hpc hc =>
    have hm := main_of_sound h hf
    obtain ⟨hl,hcall⟩ := hm.target fg i hpc
    obtain rfl := hcall pid hc
    rw [if_pos (killOk_of_liveJob hl (ho _ hc))] at hs
    obtain rfl := Option.some.inj hs
    refine ⟨sound_main ⟨?_,fun hb => hb.elim,fun _ _ _ he => ?_,fun _ _ he => ?_,fun _ => rfl⟩ hf,rfl⟩
    · change Tabled (continueGroup _ w.shell).jobs (continueGroup _ w.shell).children
      rw [continueGroup_jobs]
      exact tabled_congr hm.tabled fun q => mem_continueGroup
    · cases he
    · cases he
  case h_2 => cases hs

theorem sound_handle (h : Sound w) (hf : w.frames = f :: fs) (ho : f.Orderly fs w)
    (hs : w.handle f fs = some v) : Sound v ∧ v.failed = w.failed := by
  obtain ⟨mask,code⟩ := f
  cases code with
  | fgpid =>
    obtain rfl := Option.some.inj hs
    refine ⟨?_,rfl⟩
    dsimp only
    split
    · exact sound_pop h hf rfl
    · rename_i h0
      refine sound_top h hf rfl (fun _ hp => hp) (fun pid hp => ?_) fun _ => ⟨trivial,rfl⟩
      obtain rfl := Option.some.inj hp
      exact liveJob_fgpid h h0 (by rw [hf,reaped_cons]; exact ho)
  | send pid =>
    have hl := h.held ⟨mask,.send pid⟩ (by rw [hf]; exact List.mem_cons_self ..) pid rfl
    have hs : some (if w.killOk pid then { w with frames := fs } else w.fail) = some v := hs
    rw [if_pos (killOk_of_liveJob hl ho)] at hs
    obtain rfl := Option.some.inj hs
    exact ⟨sound_pop h hf rfl,rfl⟩
  | wait m =>
    simp only [World.handle] at hs
    split at hs
    · cases hs
    · obtain rfl := Option.some.inj hs
      exact ⟨sound_pop h hf rfl,rfl⟩
  | block m pid gone =>
    obtain rfl := Option.some.inj hs
    refine ⟨sound_top h hf ?_ (fun p hp => ?_) (fun p hp => by cases hp) fun hk => hk.elim,rfl⟩
    · cases gone <;> rfl
    · cases gone <;> exact hp
  | update m pid gone =>
    obtain rfl := Option.some.inj hs
    exact ⟨sound_update h hf rfl,rfl⟩
  | unblock m =>
    obtain rfl := Option.some.inj hs
    exact ⟨sound_top h hf rfl (fun p hp => by cases hp) (fun p hp => by cases hp) fun hk => hk.elim,rfl⟩

theorem sound_waitpid (h : Sound w) (hf : w.frames = f :: fs)
    (ho : ∀ f ∈ w.frames, f.held ≠ some pid)
    (ht : (w.child pid).any (fun ch => ended ch.status) = true → w.target ≠ some pid)
    (hs : w.waitpid pid f fs = some v) : Sound v ∧ v.failed = w.failed := by
  simp only [World.waitpid] at hs
  split at hs
  case h_1 m g hc hl | h_2 m g hc hl =>
    obtain rfl := Option.some.inj hs
    exact ⟨sound_reap h hf hc (mem_of_lookup hl) ho (ht (by rw [hl]; rfl)),rfl⟩
  case h_3 m g hc hl =>
    obtain rfl := Option.some.inj hs
    exact ⟨sound_notice h hf hc hl ho,rfl⟩
  case h_4 => cases hs

theorem sound_step (h : Sound w) (ho : Orderly a w) (hs : w.step a = some v) :
    Sound v ∧ v.failed = w.failed := by
  cases a with
  | main a =>
    simp only [World.step] at hs
    split at hs
    · rename_i hc
      obtain ⟨hf,hp⟩ := Bool.and_eq_true_iff.mp hc
      have hf := List.isEmpty_iff.mp hf
      obtain ⟨t,ht,rfl⟩ := Option.map_eq_some_iff.mp hs
      have hm := main_steps (main_of_sound h hf) (steps_of_step ht) hp
      exact ⟨sound_main hm hf,rfl⟩
    · cases hs
  | load =>
    simp only [World.step] at hs
    split at hs
    · exact sound_load h (List.isEmpty_iff.mp ‹_›) hs
    · cases hs
  | kill =>
    simp only [World.step] at hs
    split at hs
    · exact sound_kill h (List.isEmpty_iff.mp ‹_›) ho hs
    · cases hs
  | signal sig m =>
    simp only [World.step] at hs
    split at hs
    · rename_i hc
      obtain rfl := Option.some.inj hs
      exact ⟨sound_signal h m hc.2,rfl⟩
    · cases hs
  | handler =>
    simp only [World.step] at hs
    split at hs
    · rename_i f fs hf
      have ho : f.Orderly fs w := by
        unfold Orderly at ho
        rw [hf] at ho
        exact ho
      split at hs
      · exact sound_handle h hf ho hs
      · cases hs
    · cases hs
  | waitpid pid =>
    simp only [World.step] at hs
    split at hs
    · rename_i f fs hf
      split at hs
      · exact sound_waitpid h hf ho.1 ho.2 hs
      · cases hs
    · cases hs
  | child pid c =>
    obtain ⟨t,ht,rfl⟩ := Option.map_eq_some_iff.mp hs
    cases notices_of_exec ht with
    | change hl hc => exact ⟨sound_children h fun q => mem_insert_same hl,rfl⟩
  | spawn pgid =>
    simp only [World.step] at hs
    split at hs
    · obtain rfl := Option.some.inj hs
      exact ⟨sound_kin h _,rfl⟩
    · cases hs
  | leave pgid =>
    simp only [World.step] at hs
    split at hs
    · obtain rfl := Option.some.inj hs
      exact ⟨sound_kin h _,rfl⟩
    · cases hs

theorem sound_start : Sound World.start := sound_main main_start rfl

theorem kills_reach_jobs (hm : Runs.Meets World.step Orderly acts World.start)
    (hr : World.run acts World.start = some w) :
    w.failed = false ∧ Runs.Meets World.step Targets acts World.start := by
  have hstep : ∀ a w v, Sound w ∧ w.failed = false → Orderly a w → World.step a w = some v →
      Sound v ∧ v.failed = false := fun a w v h ho hs =>
    (sound_step h.1 ho hs).imp id fun hf => hf.trans h.2
  have hs : Sound World.start ∧ World.start.failed = false := ⟨sound_start,rfl⟩
  exact ⟨(Runs.run_invariant_of_meets hstep hs hm hr).2,
    Runs.meets_of_invariant hstep (fun a w h => targets_of_sound h.1 a) hs hm⟩

-- a command line that is not builtin, up to the return of sigprocmask
def launched (bg : Bool) (pid : Int) : List Move :=
  [.main (.read [] [['x']] bg),.main .main,.main (.fork pid),.main .main,.main .main]

-- ctrl-c once the child is in its group, then ctrl-z and fg %1
def ctrlCJoined : List Move :=
  launched false 101 ++ [.child 101 .join,.signal .int fun _ => false,.handler,.handler,
    .signal .tstp fun _ => false,.handler,.handler,.child 101 .stop,.signal .chld fun _ => true,
    .waitpid 101,.handler,.handler,.handler,.handler,.main .main,
    .main (.read [] [['f','g'],['%','1']] false),.main .main,.load,.kill]

theorem kills_reach_jobs_ctrl_c : ∃ w, World.run ctrlCJoined World.start = some w ∧
    w.shell.pc = .assign true 0 ∧ w.failed = false ∧
      Runs.Meets World.step Targets ctrlCJoined World.start := by
  obtain ⟨w,hr,hw⟩ := World.exists_run ctrlCJoined (fun w => w.shell.pc = .assign true 0)
    (by decide +kernel)
  exact ⟨w,hr,of_decide_eq_true hw,kills_reach_jobs (by decide +kernel) hr⟩

-- ctrl-c before the child is in its group
def ctrlCEarly : List Move :=
  launched false 101 ++ [.signal .int fun _ => false,.handler,.handler]

theorem kills_reach_jobs_early : ¬ ∀ acts w, World.run acts World.start = some w →
    w.failed = false ∧ Runs.Meets World.step Targets acts World.start := by
  intro h
  obtain ⟨w,hr,hw⟩ := World.exists_run ctrlCEarly World.failed (by decide +kernel)
  exact Bool.false_ne_true ((h ctrlCEarly w hr).1.symm.trans hw)

end Runs

end Tsh
