import IcsLabs.Tsh.Invariant

namespace Tsh

inductive Sig
  | int
  | tstp
  | chld
deriving DecidableEq

abbrev Mask := Sig → Bool

-- where a handler is: sigint_handler and sigtstp_handler before fgpid and before kill, then
-- sigchld_handler before waitpid, sigprocmask, the table and sigprocmask; m is its local mask, which
-- nothing initialises
inductive Handler
  | fgpid
  | send (pid : Int)
  | wait (m : Mask)
  | block (m : Mask) (pid : Int) (gone : Bool)
  | update (m : Mask) (pid : Int) (gone : Bool)
  | unblock (m : Mask)

-- a running handler and the signals blocked while it is on top
structure Frame where
  mask : Mask
  code : Handler

-- call: the argument of the kill of do_bgfg, once it is evaluated; kin: how many processes other
-- than children there are in a group
structure World where
  shell : Shell
  call : Option Int
  frames : List Frame
  kin : Int → Nat
  failed : Bool

namespace World

def start : World := ⟨Tsh.start,none,[],fun _ => 0,false⟩

def mask (w : World) : Mask :=
  match w.frames with
  | [] => fun sig => sig == .chld && w.shell.blocked
  | f :: _ => f.mask

def child (pid : Int) (w : World) : Option Child := w.shell.children.lookup pid

-- kill(-pid, ..): it fails when no process is in group pid; group 0 is the shell's own
def killOk (pid : Int) (w : World) : Bool :=
  pid == 0 || (w.child pid).any Child.joined || w.kin pid != 0

-- unix_error
def fail (w : World) : World := { w with shell.pc := .exited, failed := true }

def handle (f : Frame) (fs : List Frame) (w : World) : Option World :=
  match f.code with
  | .fgpid =>
    let pid := fgpid w.shell.jobs
    some { w with frames := if pid = 0 then fs else ⟨f.mask,.send pid⟩ :: fs }
  | .send pid => some (if w.killOk pid then { w with frames := fs } else w.fail)
  | .wait _ =>
    if w.shell.children.entries.any fun e => waitable e.2.status then none
    else some { w with frames := fs }
  | .block m pid gone =>
    some { w with frames := ⟨fun sig => f.mask sig || m sig,.update m pid gone⟩ :: fs }
  | .update m pid gone =>
    let jobs := if gone then (deletejob pid w.shell.jobs).2 else markStopped pid w.shell.jobs
    some { w with shell.jobs := jobs, frames := ⟨f.mask,.unblock m⟩ :: fs }
  | .unblock m => some { w with frames := ⟨fun sig => f.mask sig && !m sig,.wait m⟩ :: fs }

-- waitpid returns pid to the handler f
def waitpid (pid : Int) (f : Frame) (fs : List Frame) (w : World) : Option World :=
  match f.code,w.child pid with
  | .wait m,some ⟨_,.exited⟩ | .wait m,some ⟨_,.signaled⟩ =>
    some { w with
      shell.children := w.shell.children.erase pid
      frames := ⟨f.mask,.block m pid true⟩ :: fs }
  | .wait m,some ⟨g,.stopped false⟩ =>
    some { w with
      shell.children := w.shell.children.insert pid ⟨g,.stopped true⟩
      frames := ⟨f.mask,.block m pid false⟩ :: fs }
  | _,_ => none

end World

-- the moves of the main thread that do not call kill
def Act.plain (kin : Int → Nat) : Act → Bool
  | .read .. | .eof | .main => true
  | .fork pid => kin pid == 0
  | _ => false

inductive Move
  | main (a : Act)
  | load
  | kill
  | signal (sig : Sig) (m : Mask)
  | handler
  | waitpid (pid : Int)
  | child (pid : Int) (c : Change)
  | spawn (pgid : Int)
  | leave (pgid : Int)

namespace World

def kill (w : World) : Option World :=
  match w.shell.pc,w.call with
  | .kill fg i,some pid =>
    some (if w.killOk pid then
      { w with shell := { continueGroup pid w.shell with pc := .assign fg i }, call := none }
    else w.fail)
  | _,_ => none

def load (w : World) : Option World :=
  match w.shell.pc,w.call with
  | .kill _ i,none => some { w with call := some (w.shell.jobs.slot i).pid }
  | _,_ => none

-- the main thread goes on when no handler is running
def step (a : Move) (w : World) : Option World :=
  match a with
  | .main a =>
    if w.frames.isEmpty && a.plain w.kin then
      (Tsh.step a w.shell).map fun s => { w with shell := s }
    else none
  | .load => if w.frames.isEmpty then w.load else none
  | .kill => if w.frames.isEmpty then w.kill else none
  | .signal sig m =>
    if w.shell.pc ≠ .exited ∧ w.mask sig = false then
      let mask := fun s => w.mask s || s == sig
      some { w with frames := ⟨mask,if sig = .chld then .wait m else .fgpid⟩ :: w.frames }
    else none
  | .handler =>
    match w.frames with
    | f :: fs => if w.shell.pc ≠ .exited then w.handle f fs else none
    | [] => none
  | .waitpid pid =>
    match w.frames with
    | f :: fs => if w.shell.pc ≠ .exited then w.waitpid pid f fs else none
    | [] => none
  | .child pid c => ((Event.change pid c).exec w.shell).map fun s => { w with shell := s }
  | .spawn pgid =>
    if (w.child pgid).any (fun ch => ch.joined && ch.status = .running) ∨ w.kin pgid ≠ 0 then
      some { w with kin := Function.update w.kin pgid (w.kin pgid + 1) }
    else none
  | .leave pgid =>
    if w.kin pgid ≠ 0 then some { w with kin := Function.update w.kin pgid (w.kin pgid - 1) }
    else none

def run (acts : List Move) (w : World) : Option World := Runs.run step acts w

theorem exists_run (acts : List Move) (p : World → Bool) (h : (run acts start).any p = true) :
    ∃ w, run acts start = some w ∧ p w = true := Runs.exists_run h

end World

end Tsh
