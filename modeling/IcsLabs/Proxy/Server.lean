import IcsLabs.Lib.Runs
import IcsLabs.Proxy.Schedule
import Mathlib.Logic.Function.Basic

namespace Proxy
namespace Server

open Bytes

-- a connection: its peers, and the address of its client in network order; none: not an IPv4 address
structure Conn where
  world : World
  kernel : Rio.Kernel
  peer : Option (Byte × Byte × Byte × Byte)

-- what main allocates for a thread
structure Cell where
  connfd : Nat
  addr : BitVec 32

-- inet_pton leaves the address as it is if it does not take the text
def inetPton (peer : Option (Byte × Byte × Byte × Byte)) (addr : BitVec 32) : BitVec 32 :=
  match peer with
  | some (a,b,c,d) => d ++ c ++ b ++ a
  | none => addr

inductive Main
  | malloc
  | accept (connfdp : Nat)
  | name (connfdp : Nat)
  | create (connfdp : Nat)

-- where a thread is, with the locals that are still to be read
inductive Thread
  | enter (p : Nat)
  | load (p : Nat) (addr : BitVec 32)
  | free (p : Nat) (addr : BitVec 32) (connfd : Nat)
  | doit (addr : BitVec 32) (connfd : Nat)
  | relay (addr : BitVec 32) (connfd clientfd : Nat)
  | format (addr : BitVec 32) (connfd : Nat) (e : LogEntry)
  | wait (connfd : Nat) (logstring : List Byte)
  | print (connfd : Nat) (left : List Byte)
  | close (connfd : Nat)
  | done

-- whose socket a descriptor is: that of the client or the server of a connection
inductive Desc
  | client (n : Nat)
  | server (n : Nat)
deriving DecidableEq

-- exited: a call of main has failed; cells: the allocated ones; served: the exchanges made;
-- fault: a cell was used that is not allocated, or a descriptor that is not open on a peer
structure State where
  main : Main
  exited : Bool
  threads : List Thread
  conns : List Conn
  cells : Nat → Option Cell
  table : Nat → Option Desc
  sem : Nat
  stdout : List Byte
  served : List (Nat × Outcome)
  fault : Bool

def start : State := ⟨.malloc,false,[],[],fun _ => none,fun _ => none,1,[],[],false⟩

def State.crash (s : State) : State := { s with fault := true }

def State.goto (i : Nat) (t : Thread) (s : State) : State :=
  { s with threads := s.threads.set i t }

-- malloc returns a block that is not in use, with any bytes in it; accept returns a free descriptor
inductive Act
  | malloc (p : Nat) (junk : Cell)
  | accept (fd : Nat) (c : Conn)
  | main
  | fail
  | thread (i : Nat)
  | connect (i : Nat) (fd : Nat)
  | clock (i : Nat) (now : List Byte)

-- getnameinfo and inet_pton, or pthread_create
def mainStep (s : State) : Option State :=
  match s.main with
  | .name p =>
    some (match s.cells p,s.conns.getLast? with
      | some c,some conn =>
        { s with
          main := .create p
          cells := Function.update s.cells p (some { c with addr := inetPton conn.peer c.addr }) }
      | _,_ => s.crash)
  | .create p => some { s with main := .malloc, threads := s.threads ++ [.enter p] }
  | _ => none

-- the connection at the other end of a descriptor
def State.conn (s : State) (fd : Nat) : Option (Nat × Conn) :=
  match s.table fd with
  | some (.client n) => s.conns[n]?.map fun c => (n,c)
  | _ => none

def Conn.trip (c : Conn) : Rio.Trip := Rio.doit c.world c.kernel

-- doit after the last close of clientfd
def afterExchange (addr : BitVec 32) (fd : Nat) (log : Option LogEntry) : Thread :=
  match log with
  | some e => .format addr fd e
  | none => .close fd

def threadStep (i : Nat) (t : Thread) (s : State) : Option State :=
  match t with
  | .enter p =>
    some (match s.cells p with
      | some c => s.goto i (.load p c.addr)
      | none => s.crash)
  | .load p addr =>
    some (match s.cells p with
      | some c => s.goto i (.free p addr c.connfd)
      | none => s.crash)
  | .free p addr fd =>
    some (match s.cells p with
      | some _ => { s with cells := Function.update s.cells p none }.goto i (.doit addr fd)
      | none => s.crash)
  | .doit _ fd =>
    match s.conn fd with
    | some (n,c) =>
      if c.trip.opened then none
      else some ({ s with served := s.served ++ [(n,c.trip.outcome)] }.goto i (.close fd))
    | none => some s.crash
  | .relay addr fd clientfd =>
    match s.conn fd,s.table clientfd with
    | some (n,c),some _ =>
      some ({ s with
        table := Function.update s.table clientfd none
        served := s.served ++ [(n,c.trip.outcome)] }.goto i
          (afterExchange addr fd c.trip.outcome.log))
    | _,_ => some s.crash
  | .wait fd logstring =>
    if 0 < s.sem then some ({ s with sem := s.sem - 1 }.goto i (.print fd (logstring ++ ascii "\n")))
    else none
  | .print fd (b :: left) => some ({ s with stdout := s.stdout ++ [b] }.goto i (.print fd left))
  | .print fd [] => some ({ s with sem := s.sem + 1 }.goto i (.close fd))
  | .close fd =>
    some (match s.table fd with
      | some _ => { s with table := Function.update s.table fd none }.goto i .done
      | none => s.crash)
  | _ => none

-- open_clientfd has succeeded
def connectStep (i : Nat) (clientfd : Nat) (t : Thread) (s : State) : Option State :=
  match t,s.table clientfd with
  | .doit addr fd,none =>
    match s.conn fd with
    | some (n,c) =>
      if c.trip.opened ∧ 0 < clientfd then
        some ({ s with table := Function.update s.table clientfd (some (.server n)) }.goto i
          (.relay addr fd clientfd))
      else none
    | none => some s.crash
  | _,_ => none

def acceptStep (fd : Nat) (conn : Conn) (s : State) : Option State :=
  match s.main,s.table fd with
  | .accept p,none =>
    some (match s.cells p with
      | some c =>
        { s with
          main := .name p
          conns := s.conns ++ [conn]
          table := Function.update s.table fd (some (.client s.conns.length))
          cells := Function.update s.cells p (some { c with connfd := fd }) }
      | none => s.crash)
  | _,_ => none

-- main and the threads interleave in any order
def step (a : Act) (s : State) : Option State :=
  if s.exited then none
  else
    match a with
    | .malloc p junk =>
      match s.main,s.cells p with
      | .malloc,none =>
        some { s with main := .accept p, cells := Function.update s.cells p (some junk) }
      | _,_ => none
    | .accept fd conn => acceptStep fd conn s
    | .main => mainStep s
    | .fail => some { s with exited := true }
    | .thread i => (s.threads[i]?).bind fun t => threadStep i t s
    | .connect i clientfd => (s.threads[i]?).bind fun t => connectStep i clientfd t s
    | .clock i now =>
      match s.threads[i]? with
      | some (.format addr fd e) => some (s.goto i (.wait fd (logText now ⟨addr⟩ e)))
      | _ => none

def run (acts : List Act) (s : State) : Option State := Runs.run step acts s

end Server

end Proxy
