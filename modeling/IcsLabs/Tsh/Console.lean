import IcsLabs.Tsh.Contract

namespace Tsh

-- one call of printf and the values it is given
inductive Printed
  | added (jid pid : Int) (cmdline : List Char)
  | command (jid pid : Int) (cmdline : List Char)
  | listed (jid pid : Int)
  | state (i : Fin maxJobs) (state : JobState)
  | line (cmdline : List Char)
  | job (stopped : Bool) (jid pid : Int) (signal : Nat)
  | tooMany
  | requiresArg (fg : Bool)
  | mustBe (fg : Bool)
  | noProcess (pid : Int)
  | noJob (jid : Int)
deriving DecidableEq

def num (n : Int) : List Char := (toString n).toList

def bgfgName (fg : Bool) : List Char := if fg then ['f','g'] else ['b','g']

def Printed.text : Printed → List Char
  | .added jid pid cmdline =>
    "Added job [".toList ++ num jid ++ "] ".toList ++ num pid ++ [' '] ++ cmdline ++ ['\n']
  | .command jid pid cmdline =>
    ['['] ++ num jid ++ "] (".toList ++ num pid ++ ") ".toList ++ cmdline
  | .listed jid pid => ['['] ++ num jid ++ "] (".toList ++ num pid ++ ") ".toList
  | .state _ .bg => "Running ".toList
  | .state _ .fg => "Foreground ".toList
  | .state _ .st => "Stopped ".toList
  | .state i .undef =>
    "listjobs: Internal error: job[".toList ++ num i.val ++ "].state=0 ".toList
  | .line cmdline => cmdline
  | .job stopped jid pid signal =>
    "Job [".toList ++ num jid ++ "] (".toList ++ num pid ++
      (if stopped then ") stopped by signal ".toList else ") terminated by signal ".toList) ++
        num signal ++ ['\n']
  | .tooMany => "Tried to create too many jobs\n".toList
  | .requiresArg fg => bgfgName fg ++ " command requires PID or %jobid argument\n".toList
  | .mustBe fg => bgfgName fg ++ ": argument must be a PID or %jobid\n".toList
  | .noProcess pid => ['('] ++ num pid ++ "): No such process\n".toList
  | .noJob jid => ['%'] ++ num jid ++ ": No such job\n".toList

-- what the main thread still has to read or print before it goes on; seek and number: pid2jid
-- of a pid, the slots that are still to be looked at or the one that has it; args: the two
-- arguments of "[%d] (%d)", for bg or for jobs, needPid and needJid: one of them is read
inductive Todo
  | say (p : Printed)
  | seek (pid : Int) (slots : List (Fin maxJobs))
  | number (pid : Int) (i : Fin maxJobs)
  | args (bg : Bool) (i : Fin maxJobs)
  | needPid (bg : Bool) (jid : Int) (i : Fin maxJobs)
  | needJid (bg : Bool) (pid : Int) (i : Fin maxJobs)
  | finish (jid pid : Int) (i : Fin maxJobs)
  | test (i : Fin maxJobs)
  | state (i : Fin maxJobs)
  | cmdline (i : Fin maxJobs)
deriving DecidableEq

-- pid2jid in one go, for the handler, which the main thread does not interrupt
def pid2jid (pid : Int) (t : Jobs) : Int :=
  if pid < 1 then 0
  else
    match Fin.find? fun i => (t.slot i).pid == pid with
    | none => 0
    | some i => (t.slot i).jid

def listjobs : List Todo := (List.finRange maxJobs).map .test

-- the call of printf whose arguments are read; that of bg has the command line as well
def Todo.call (bg : Bool) (jid pid : Int) (i : Fin maxJobs) : Todo :=
  if bg then .finish jid pid i else .say (.listed jid pid)

-- cmdline: the line that eval was called with; jidFirst: C leaves the order of two arguments open
def Todo.exec (cmdline : List Char) (jidFirst : Bool) (t : Jobs) : Todo → List Printed × List Todo
  | .say p => ([p],[])
  | .seek pid [] => ([],[.say (.command 0 pid cmdline)])
  | .seek pid (i :: slots) =>
    ([],if (t.slot i).pid = pid then [.number pid i] else [.seek pid slots])
  | .number pid i => ([],[.say (.command (t.slot i).jid pid cmdline)])
  | .args bg i =>
    ([],[if jidFirst then .needPid bg (t.slot i).jid i else .needJid bg (t.slot i).pid i])
  | .needPid bg jid i => ([],[.call bg jid (t.slot i).pid i])
  | .needJid bg pid i => ([],[.call bg (t.slot i).jid pid i])
  | .finish jid pid i => ([.command jid pid (t.slot i).cmdline],[])
  | .test i => ([],if (t.slot i).pid ≠ 0 then [.args false i,.state i,.cmdline i] else [])
  | .state i => ([],[.say (.state i (t.slot i).state)])
  | .cmdline i => ([.line (t.slot i).cmdline],[])

-- the built-in commands up to where they need the table
def builtinSays (argv : List (List Char)) : List Todo :=
  match argv with
  | ['j','o','b','s'] :: _ => listjobs
  | ['b','g'] :: [] => [.say (.requiresArg false)]
  | ['f','g'] :: [] => [.say (.requiresArg true)]
  | _ => []

-- do_bgfg where it finds no job
def lookupSays (fg : Bool) (arg : List Char) (t : Jobs) : List Todo :=
  match arg with
  | [] => [.say (.mustBe fg)]
  | c :: cs =>
    if c.isDigit then
      match getjobpid (Libc.atoi (codes arg)) t with
      | none => [.say (.noProcess (Libc.atoi (codes arg)))]
      | some _ => []
    else if c = '%' then
      match getjobjid (Libc.atoi (codes cs)) t with
      | none => [.say (.noJob (Libc.atoi (codes cs)))]
      | some _ => []
    else [.say (.mustBe fg)]

-- what a step of the main thread leaves to be printed
def Act.todo (a : Act) (s : Shell) : List Todo :=
  match a,s.pc with
  | .read _ argv _,_ => builtinSays argv
  | .main,.unblock true pid => [.seek pid (if pid < 1 then [] else List.finRange maxJobs)]
  | .main,.bgfg fg arg => lookupSays fg arg s.jobs
  | .main,.assign false i => [.args true i]
  | _,_ => []

-- addjob prints while SIGCHLD is blocked; verbose: the option -v
def Act.prints (verbose : Bool) (a : Act) (s : Shell) : List Printed :=
  match a,s.pc with
  | .main,.add bg cmdline pid =>
    if pid < 1 then []
    else if (addjob pid (if bg then .bg else .fg) cmdline s.jobs).1 = false then [.tooMany]
    else if verbose then [.added s.jobs.nextjid pid cmdline] else []
  | _,_ => []

-- what sigchld_handler prints about the child that waitpid returns; signal is the one in status
def Event.prints (e : Event) (signal : Nat) (s : Shell) : List Printed :=
  match e with
  | .notice pid =>
    match s.children.lookup pid with
    | some ⟨_,.signaled⟩ => [.job false (pid2jid pid s.jobs) pid signal]
    | some ⟨_,.stopped false⟩ => [.job true (pid2jid pid s.jobs) pid signal]
    | _ => []
  | .change .. => []

def noticeStep (e : Event × Nat) (x : Shell × List Printed) : Option (Shell × List Printed) :=
  (e.1.exec x.1).map fun t => (t,x.2 ++ e.1.prints e.2 x.1)

-- todo: the main thread is not at shell.pc yet
structure Console where
  verbose : Bool
  shell : Shell
  cmdline : List Char
  todo : List Todo
  out : List Printed

inductive Turn
  | shell (a : Act)
  | handler (es : List (Event × Nat))
  | print (jidFirst : Bool)
deriving DecidableEq

def Act.isMain : Act → Bool
  | .read .. | .eof | .main | .fork _ | .kill _ => true
  | .sigchld _ | .keyboard _ | .child .. => false

def Act.cmdline (a : Act) (line : List Char) : List Char :=
  match a with
  | .read cmdline _ _ => cmdline
  | _ => line

namespace Console

def start (verbose : Bool) : Console := ⟨verbose,Tsh.start,[],[],[]⟩

def handler (es : List (Event × Nat)) (c : Console) : Option Console :=
  if c.shell.blocked = false ∧ c.shell.pc ≠ .exited then
    (Runs.run noticeStep es (c.shell,c.out)).bind fun x =>
      if x.1.children.entries.any fun e => waitable e.2.status then none
      else some { c with shell := x.1, out := x.2 }
  else none

def print (jidFirst : Bool) (c : Console) : Option Console :=
  match c.todo with
  | [] => none
  | td :: rest =>
    if c.shell.pc = .exited then none
    else
      let (out,todo) := td.exec c.cmdline jidFirst c.shell.jobs
      some { c with todo := todo ++ rest, out := c.out ++ out }

def step (x : Turn) (c : Console) : Option Console :=
  match x with
  | .shell (.sigchld _) => none
  | .shell a =>
    if a.isMain = true ∧ c.todo ≠ [] then none
    else
      (Tsh.step a c.shell).map fun s =>
        { c with
          shell := s
          cmdline := a.cmdline c.cmdline
          todo := if a.isMain then a.todo c.shell else c.todo
          out := c.out ++ a.prints c.verbose c.shell }
  | .handler es => handler es c
  | .print jidFirst => print jidFirst c

def run (xs : List Turn) (c : Console) : Option Console := Runs.run step xs c

theorem exists_run (v : Bool) (xs : List Turn) (p : Console → Bool)
    (h : (run xs (start v)).any p = true) : ∃ c, run xs (start v) = some c ∧ p c = true :=
  Runs.exists_run h

end Console

section Printing

variable {s t : Shell} {e : Event} {n : Nat} {x : Printed} {pid jid : Int} {i : Fin maxJobs}
  {out out' : List Printed} {es : List (Event × Nat)} {u : Jobs} {kids : Children} {td : Todo}

-- the job that a piece is about, and the number it is given
def Printed.names : Printed → Option (Int × Int)
  | .added jid pid _ | .command jid pid _ | .listed jid pid | .job _ jid pid _ => some (pid,jid)
  | _ => none

theorem pid2jid_eq (h : Tabled u kids) (hi : (u.slot i).pid = pid) (hp : 0 < pid) :
    pid2jid pid u = (u.slot i).jid := by
  rw [pid2jid,if_neg (by omega)]
  cases hf : Fin.find? fun i => (u.slot i).pid == pid with
  | none => exact absurd hi (by simpa using Fin.eq_false_of_find?_eq_none hf i)
  | some k =>
    have hk : (u.slot k).pid = pid := by simpa using find_slot_some hf
    rw [h.distinct k i (hk.trans hi.symm) (by omega)]

theorem prints_notices (he : Notices e s t) (hx : x ∈ e.prints n s) :
    ∃ pid stopped, e = .notice pid ∧ pid ∈ s.children ∧
      x = .job stopped (pid2jid pid s.jobs) pid n := by
  cases he with
  | @reap _ pid ch hl hd =>
    obtain ⟨g,st⟩ := ch
    simp only [Event.prints,hl] at hx
    rcases hd with h | h <;> simp only at h <;> subst h <;> simp only at hx
    · cases hx
    · exact ⟨pid,false,rfl,mem_of_lookup hl,List.mem_singleton.mp hx⟩
  | @stop _ pid g hl =>
    simp only [Event.prints,hl] at hx
    exact ⟨pid,true,rfl,mem_of_lookup hl,List.mem_singleton.mp hx⟩
  | change hl hc => cases hx

theorem noticeStep_invariant {P : Shell → List Printed → Prop}
    (hP : ∀ e n s t out, Inv s → P s out → Notices e s t → P t (out ++ e.prints n s))
    (h : Inv s) (hb : s.blocked = false) (hs : P s out)
    (hr : Runs.run noticeStep es (s,out) = some (t,out')) : P t out' := by
  refine (Runs.run_invariant (I := fun x => (Inv x.1 ∧ x.1.blocked = false) ∧ P x.1 x.2) ?_
    ⟨⟨h,hb⟩,hs⟩ hr).2
  rintro ⟨e,n⟩ ⟨s,out⟩ y ⟨⟨h,hb⟩,hs⟩ he
  obtain ⟨t,ht,rfl⟩ := Option.map_eq_some_iff.mp he
  have hn := notices_of_exec ht
  exact ⟨⟨inv_notices h hb hn,(notices_pc hn).2.trans hb⟩,hP e n s t out h hs hn⟩

theorem exec_of_noticeStep (hr : Runs.run noticeStep es (s,out) = some (t,out')) :
    Runs.run Event.exec (es.map Prod.fst) s = some t :=
  Runs.run_map Prod.fst Prod.fst (fun e x y hxy => by
    obtain ⟨u,hu,rfl⟩ := Option.map_eq_some_iff.mp hxy
    exact hu) hr

-- a read that starts: nothing of the table is known to it yet
def Todo.Starts : Todo → Prop
  | .say p => p.names = none
  | .seek pid slots => 1 ≤ pid → slots = List.finRange maxJobs
  | .args .. | .test _ | .state _ | .cmdline _ => True
  | .number .. | .needPid .. | .needJid .. | .finish .. => False

theorem starts_builtin {argv : List (List Char)} (htd : td ∈ builtinSays argv) : td.Starts := by
  unfold builtinSays at htd
  split at htd
  · obtain ⟨i,-,rfl⟩ := List.mem_map.mp htd
    trivial
  · rw [List.mem_singleton.mp htd]
    rfl
  · rw [List.mem_singleton.mp htd]
    rfl
  · cases htd

theorem starts_lookup {fg : Bool} {arg : List Char} (htd : td ∈ lookupSays fg arg u) :
    td.Starts := by
  unfold lookupSays at htd
  split at htd
  · rw [List.mem_singleton.mp htd]
    rfl
  · split at htd
    · split at htd
      · rw [List.mem_singleton.mp htd]
        rfl
      · cases htd
    · split at htd
      · split at htd
        · rw [List.mem_singleton.mp htd]
          rfl
        · cases htd
      · rw [List.mem_singleton.mp htd]
        rfl

theorem starts_todo (a : Act) (s : Shell) (htd : td ∈ a.todo s) : td.Starts := by
  unfold Act.todo at htd
  split at htd
  · exact starts_builtin htd
  · rw [List.mem_singleton.mp htd]
    intro hpid
    rw [if_neg (by omega)]
  · exact starts_lookup htd
  · rw [List.mem_singleton.mp htd]
    trivial
  · cases htd

theorem prints_act {v : Bool} {a : Act} (hx : x ∈ a.prints v s) : ∃ bg cmdline pid,
    a = .main ∧ s.pc = .add bg cmdline pid ∧ 1 ≤ pid ∧
      (x = .tooMany ∨ x = .added s.jobs.nextjid pid cmdline) := by
  unfold Act.prints at hx
  split at hx
  · rename_i bg cmdline pid hpc
    refine ⟨bg,cmdline,pid,rfl,hpc,?_⟩
    by_cases hp : pid < 1
    · rw [if_pos hp] at hx
      cases hx
    rw [if_neg hp] at hx
    refine ⟨by omega,?_⟩
    by_cases hf : (addjob pid (if bg then .bg else .fg) cmdline s.jobs).1 = false
    · rw [if_pos hf] at hx
      exact .inl (List.mem_singleton.mp hx)
    · rw [if_neg hf] at hx
      cases v with
      | false => cases hx
      | true => exact .inr (List.mem_singleton.mp hx)
  · cases hx

theorem prints_full {v bg : Bool} {cmdline : List Char} (hpc : s.pc = .add bg cmdline pid)
    (hp : 1 ≤ pid) (hf : (addjob pid (if bg then .bg else .fg) cmdline s.jobs).1 = false) :
    Act.main.prints v s = [.tooMany] := by
  simp only [Act.prints,hpc]
  rw [if_neg (by omega),if_pos hf]

end Printing

section Moves

-- what one turn can do
inductive Moves : Turn → Console → Console → Prop
  | shell {c a s} (ha : ∀ es, a ≠ .sigchld es) (hm : a.isMain = true → c.todo = [])
      (h : Steps a c.shell s) :
    Moves (.shell a) c { c with
      shell := s
      cmdline := a.cmdline c.cmdline
      todo := if a.isMain then a.todo c.shell else c.todo
      out := c.out ++ a.prints c.verbose c.shell }
  | handler {c s out es} (hb : c.shell.blocked = false)
      (hr : Runs.run noticeStep es (c.shell,c.out) = some (s,out))
      (hw : s.children.entries.any (fun e => waitable e.2.status) = false)
      (hx : c.shell.pc ≠ .exited) :
    Moves (.handler es) c { c with shell := s, out := out }
  | print {c jidFirst td rest} (h : c.todo = td :: rest) (hx : c.shell.pc ≠ .exited) :
    Moves (.print jidFirst) c { c with
      todo := (td.exec c.cmdline jidFirst c.shell.jobs).2 ++ rest
      out := c.out ++ (td.exec c.cmdline jidFirst c.shell.jobs).1 }

-- the shell underneath
def Turn.plain : Turn → List Act
  | .shell a => [a]
  | .handler es => [.sigchld (es.map Prod.fst)]
  | .print _ => []

def Turn.isMain : Turn → Bool
  | .shell a => a.isMain
  | .handler _ | .print _ => false

variable {c d : Console} {x : Turn} {xs ys : List Turn} {s t : Shell} {a : Act} {e : Event} {n : Nat}
  {i : Fin maxJobs} {job : Job} {p : Printed} {td : Todo} {u : Jobs} {kids : Children}
  {line : List Char} {v : Bool}

theorem moves_of_step (h : Console.step x c = some d) : Moves x c d := by
  cases x with
  | shell a =>
    have ha : ∀ es, a ≠ .sigchld es := by
      rintro es rfl
      cases h
    have h : (if a.isMain = true ∧ c.todo ≠ [] then none
        else (Tsh.step a c.shell).map fun s => { c with
          shell := s
          cmdline := a.cmdline c.cmdline
          todo := if a.isMain then a.todo c.shell else c.todo
          out := c.out ++ a.prints c.verbose c.shell }) = some d := by
      cases a with
      | sigchld es => exact absurd rfl (ha es)
      | _ => exact h
    split at h
    · cases h
    · rename_i hm
      obtain ⟨s,hs,rfl⟩ := Option.map_eq_some_iff.mp h
      exact .shell ha (fun hmain => by_contra fun ht => hm ⟨hmain,ht⟩) (steps_of_step hs)
  | handler es =>
    simp only [Console.step,Console.handler] at h
    split at h
    · rename_i hb
      obtain ⟨⟨s,out⟩,hr,h⟩ := Option.bind_eq_some_iff.mp h
      split at h
      · cases h
      · rename_i hw
        exact Option.some.inj h ▸ .handler hb.1 hr (Bool.eq_false_of_not_eq_true hw) hb.2
    · cases h
  | print jidFirst =>
    simp only [Console.step,Console.print] at h
    split at h
    · cases h
    · rename_i td rest ht
      split at h
      · cases h
      · exact Option.some.inj h ▸ .print ht ‹_›

theorem plain_of_step (h : Console.step x c = some d) :
    Tsh.run x.plain c.shell = some d.shell := by
  cases x with
  | shell a =>
    simp only [Turn.plain,Tsh.run,Runs.run]
    cases a <;> simp only [Console.step] at h
    case sigchld => cases h
    all_goals
      split at h
      · cases h
      · obtain ⟨s,hs,rfl⟩ := Option.map_eq_some_iff.mp h
        simp [hs]
  | handler es =>
    simp only [Console.step,Console.handler] at h
    split at h
    · rename_i hb
      obtain ⟨⟨s,out⟩,hr,h⟩ := Option.bind_eq_some_iff.mp h
      split at h
      · cases h
      · rename_i hw
        obtain rfl := Option.some.inj h
        simp [Turn.plain,Tsh.run,Runs.run,Tsh.step,hb,sigchldHandler,exec_of_noticeStep hr,hw]
    · cases h
  | print jidFirst =>
    cases moves_of_step h with
    | print ht hx => rfl

theorem plain_of_run (hr : Console.run xs c = some d) :
    Tsh.run (xs.flatMap Turn.plain) c.shell = some d.shell :=
  Runs.run_flatMap Console.shell Turn.plain (fun _ _ _ => plain_of_step) hr

theorem inv_console (hr : Console.run xs (Console.start v) = some c) : Inv c.shell :=
  inv_run (plain_of_run hr)

end Moves

end Tsh
