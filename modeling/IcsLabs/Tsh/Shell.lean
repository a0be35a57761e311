import IcsLabs.Lib.Libc
import IcsLabs.Lib.Runs
import IcsLabs.Tsh.Jobs
import Mathlib.Data.List.AList

namespace Tsh

-- stopped and noticed: waitpid has reported this stop
inductive Status
  | running
  | stopped (noticed : Bool)
  | exited
  | signaled
deriving DecidableEq

-- joined: the child has run setpgid(0, 0)
structure Child where
  joined : Bool
  status : Status
deriving DecidableEq

-- where the main thread is
inductive Pc
  | prompt
  | block (bg : Bool) (cmdline : List Char)
  | fork (bg : Bool) (cmdline : List Char)
  | add (bg : Bool) (cmdline : List Char) (pid : Int)
  | unblock (bg : Bool) (pid : Int)
  | bgfg (fg : Bool) (arg : List Char)
  | kill (fg : Bool) (i : Fin maxJobs)
  | assign (fg : Bool) (i : Fin maxJobs)
  | arg (i : Fin maxJobs)
  | wait (pid : Int)
  | exited
deriving DecidableEq

-- children: the forked processes that have not been reaped; blocked: the mask has SIGCHLD
structure Shell where
  jobs : Jobs
  children : AList fun _ : Int => Child
  blocked : Bool
  pc : Pc

def start : Shell := ⟨initjobs,∅,false,.prompt⟩

inductive Change
  | join
  | stop
  | cont
  | exit
  | signal
deriving DecidableEq

def resume : Status → Status
  | .stopped _ => .running
  | st => st

def Change.apply : Change → Child → Option Child
  | .join,⟨_,.running⟩ => some ⟨true,.running⟩
  | .stop,⟨g,.running⟩ => some ⟨g,.stopped false⟩
  | .cont,⟨g,.stopped _⟩ => some ⟨g,.running⟩
  | .exit,⟨g,.running⟩ => some ⟨g,.exited⟩
  | .signal,⟨g,.running⟩ => some ⟨g,.signaled⟩
  | .signal,⟨g,.stopped _⟩ => some ⟨g,.signaled⟩
  | _,_ => none

-- what goes on during a run of the handler: waitpid returns a child, or a child changes
inductive Event
  | notice (pid : Int)
  | change (pid : Int) (c : Change)
deriving DecidableEq

def markStopped (pid : Int) (t : Jobs) : Jobs :=
  match getjobpid pid t with
  | none => t
  | some i => setSlot i { t.slot i with state := .st } t

def Event.exec (e : Event) (s : Shell) : Option Shell :=
  match e with
  | .notice pid =>
    match s.children.lookup pid with
    | some ⟨_,.exited⟩ | some ⟨_,.signaled⟩ =>
      some { s with jobs := (deletejob pid s.jobs).2, children := s.children.erase pid }
    | some ⟨g,.stopped false⟩ =>
      some { s with
        jobs := markStopped pid s.jobs
        children := s.children.insert pid ⟨g,.stopped true⟩ }
    | _ => none
  | .change pid c =>
    ((s.children.lookup pid).bind c.apply).map fun ch =>
      { s with children := s.children.insert pid ch }

def waitable : Status → Bool
  | .stopped noticed => !noticed
  | .exited | .signaled => true
  | .running => false

-- the loop of the handler ends when waitpid finds no child to report
def sigchldHandler (es : List Event) (s : Shell) : Option Shell :=
  (Runs.run Event.exec es s).bind fun s =>
    if s.children.entries.any fun e => waitable e.2.status then none else some s

-- kill(-pid, ..) fails when no process is in group pid; once the child is reaped, its own
-- descendants may still be there
def killReturns (pid : Int) (ok : Bool) (s : Shell) : Bool :=
  match s.children.lookup pid with
  | some ch => ok == ch.joined
  | none => pid != 0 || ok

-- kill(0, ..) reaches the shell's own group; a child there goes on by a change of its own
def continueGroup (pid : Int) (s : Shell) : Shell :=
  match s.children.lookup pid with
  | some ch => { s with children := s.children.insert pid { ch with status := resume ch.status } }
  | none => s

def builtinCmd (argv : List (List Char)) : Option Pc :=
  match argv with
  | ['q','u','i','t'] :: _ => some .exited
  | ['j','o','b','s'] :: _ => some .prompt
  | ['b','g'] :: arg :: _ => some (.bgfg false arg)
  | ['f','g'] :: arg :: _ => some (.bgfg true arg)
  | ['b','g'] :: [] => some .prompt
  | ['f','g'] :: [] => some .prompt
  | _ => none

-- eval up to the fork, on what parseline returns
def eval (cmdline : List Char) (argv : List (List Char)) (bg : Bool) : Pc :=
  if argv = [] then .prompt else (builtinCmd argv).getD (.block bg cmdline)

def codes (s : List Char) : List Nat := s.map Char.toNat

-- do_bgfg up to the kill
def lookupJob (fg : Bool) (arg : List Char) (t : Jobs) : Pc :=
  match arg with
  | [] => .prompt
  | c :: cs =>
    if c.isDigit then
      match getjobpid (Libc.atoi (codes arg)) t with
      | none => .prompt
      | some i => .kill fg i
    else if c = '%' then
      match getjobjid (Libc.atoi (codes cs)) t with
      | none => .prompt
      | some i => .kill fg i
    else .prompt

def mainStep (s : Shell) : Option Shell :=
  match s.pc with
  | .block bg cmdline => some { s with blocked := true, pc := .fork bg cmdline }
  | .add bg cmdline pid =>
    some { s with
      jobs := (addjob pid (if bg then .bg else .fg) cmdline s.jobs).2
      pc := .unblock bg pid }
  | .unblock bg pid => some { s with blocked := false, pc := if bg then .prompt else .wait pid }
  | .bgfg fg arg => some { s with pc := lookupJob fg arg s.jobs }
  | .assign fg i =>
    some { s with
      jobs := setSlot i { s.jobs.slot i with state := if fg then .fg else .bg } s.jobs
      pc := if fg then .arg i else .prompt }
  | .arg i => some { s with pc := .wait (s.jobs.slot i).pid }
  | .wait pid => some (if fgpid s.jobs = pid then s else { s with pc := .prompt })
  | _ => none

inductive Act
  | read (cmdline : List Char) (argv : List (List Char)) (bg : Bool)
  | eof
  | main
  | fork (pid : Int)
  | kill (ok : Bool)
  | sigchld (es : List Event)
  | keyboard (ok : Bool)
  | child (pid : Int) (c : Change)
deriving DecidableEq

def step (a : Act) (s : Shell) : Option Shell :=
  match a with
  | .read cmdline argv bg =>
    if s.pc = .prompt then some { s with pc := eval cmdline argv bg } else none
  | .eof => if s.pc = .prompt then some { s with pc := .exited } else none
  | .main => mainStep s
  | .fork pid =>
    match s.pc with
    | .fork bg cmdline =>
      if pid = -1 then some { s with pc := .add bg cmdline pid }
      else if 0 < pid ∧ pid ∉ s.children then
        some { s with children := s.children.insert pid ⟨false,.running⟩, pc := .add bg cmdline pid }
      else none
    | _ => none
  | .kill ok =>
    match s.pc with
    | .kill fg i =>
      let pid := (s.jobs.slot i).pid
      if killReturns pid ok s then
        some (if ok then { continueGroup pid s with pc := .assign fg i } else { s with pc := .exited })
      else none
    | _ => none
  | .sigchld es => if s.blocked = false ∧ s.pc ≠ .exited then sigchldHandler es s else none
  -- SIGINT or SIGTSTP: sigint_handler, sigtstp_handler
  | .keyboard ok =>
    if s.pc = .exited then none
    else if fgpid s.jobs = 0 then some s
    else if killReturns (fgpid s.jobs) ok s then
      some (if ok then s else { s with pc := .exited })
    else none
  | .child pid c => (Event.change pid c).exec s

def run (acts : List Act) (s : Shell) : Option Shell := Runs.run step acts s

theorem exists_run (acts : List Act) (p : Shell → Bool) (h : (run acts start).any p = true) :
    ∃ s, run acts start = some s ∧ p s = true := Runs.exists_run h

end Tsh
