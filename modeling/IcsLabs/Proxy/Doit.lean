import IcsLabs.Lib.Bytes
import IcsLabs.Lib.Libc
import Mathlib.Algebra.Ring.Int.Defs
import Mathlib.Algebra.Ring.Nat

namespace Proxy

open Bytes
open Libc (toSizeT intAdd)

def maxLine : Nat := 8192

def ascii (s : String) : List Byte := s.toList.map fun c => BitVec.ofNat 8 c.toNat

def crlf : List Byte := [13,10]

-- the bytes still to come from a peer; broken: they end in an error, not in an end of file
structure Source where
  data : List Byte
  broken : Bool

-- the bytes a peer has taken, and how many more it will take
structure Sink where
  sent : List Byte
  room : Nat

-- the value a rio function returns, the user buffer and the rest of the source
structure Read (ρ : Type) where
  result : Int
  buf : List Byte
  src : ρ

-- the loop of rio_readlineb with k turns left: the value returned, the line, the rest
def lineLoop (broken : Bool) : Nat → List Byte → List Byte → Int × List Byte × List Byte
  | 0,line,data => (line.length,line,data)
  | k + 1,line,c :: data =>
    if c = 10 then (line.length + 1,line ++ [c],data) else lineLoop broken k (line ++ [c]) data
  | _ + 1,line,[] => (if broken then -1 else line.length,line,[])

def rioReadlineb (buf : List Byte) (src : Source) : Read Source :=
  let l := lineLoop src.broken (maxLine - 1) [] src.data
  let line := l.2.1
  let buf := if l.1 > 0 then line ++ 0 :: buf.drop (line.length + 1) else line ++ buf.drop line.length
  ⟨l.1,buf,⟨l.2.2,src.broken⟩⟩

-- rio_readnb(.., buf, 1)
def rioReadnb (buf : List Byte) (src : Source) : Read Source :=
  match src.data with
  | [] => ⟨if src.broken then -1 else 0,buf,src⟩
  | b :: data => ⟨1,b :: buf.drop 1,⟨data,src.broken⟩⟩

def rioWriten (bytes : List Byte) (sink : Sink) : Int × Sink :=
  if bytes.length ≤ sink.room then (bytes.length,⟨sink.sent ++ bytes,sink.room - bytes.length⟩)
  else (-1,⟨sink.sent ++ bytes.take sink.room,0⟩)

-- the C string at the start of a buffer
def cstr (buf : List Byte) : List Byte := buf.takeWhile (· ≠ 0)

def isSpace (b : Byte) : Bool := Libc.isSpace b.toNat

def lower (b : Byte) : Byte := if 65 ≤ b.toNat ∧ b.toNat ≤ 90 then b + 32 else b

-- strncasecmp(s, t, strlen(t)) == 0
def startsWith (t s : List Byte) : Bool := ((cstr s).take t.length).map lower = t.map lower

def atoi (s : List Byte) : Int := Libc.atoi ((cstr s).map BitVec.toNat)

-- one %s of sscanf: the token and what follows it
def token (s : List Byte) : List Byte × List Byte :=
  let s := s.dropWhile isSpace
  (s.takeWhile fun b => !isSpace b,s.dropWhile fun b => !isSpace b)

structure Uri where
  hostname : List Byte
  pathname : List Byte
  port : List Byte

def endsHost (b : Byte) : Bool := b = 32 ∨ b = 58 ∨ b = 47 ∨ b = 13 ∨ b = 10

def isDigit (b : Byte) : Bool := Libc.isDigit b.toNat

-- none: the value -1
def parseUri (uri : List Byte) : Option Uri :=
  if !startsWith (ascii "http://") uri then none
  else
    let hostbegin := uri.drop 7
    match hostbegin.dropWhile fun b => !endsHost b with
    | [] => none
    | c :: rest =>
      let hostname := hostbegin.takeWhile fun b => !endsHost b
      let port := if c = 58 then rest.takeWhile isDigit else ascii "80"
      let pathname := (hostbegin.dropWhile (· ≠ 47)).drop 1
      some ⟨hostname,pathname,port⟩

-- the body size after a header line: n unless the line is a Content-Length line
def contentLength (buf : List Byte) (n : Int) : Int :=
  if startsWith (ascii "Content-Length") buf then atoi (buf.drop 15) else n

-- what format_log_entry prints of the exchange
structure LogEntry where
  uri : List Byte
  size : Nat
deriving DecidableEq

-- in network byte order
structure SockaddrIn where
  sAddr : BitVec 32

-- on a little-endian machine
def ntohl (n : BitVec 32) : BitVec 32 :=
  n.extractLsb' 0 8 ++ n.extractLsb' 8 8 ++ n.extractLsb' 16 8 ++ n.extractLsb' 24 8

-- a positive number in decimal
def decimal (n : Nat) : List Byte := (Libc.digitCodes n).map (BitVec.ofNat 8)

-- %d of an unsigned char, %zu
def printNat (n : Nat) : List Byte := if n = 0 then ascii "0" else decimal n

-- the address in dotted decimal form; host is an unsigned long
def dotted (sockaddr : SockaddrIn) : List Byte :=
  let host := (ntohl sockaddr.sAddr).setWidth 64
  let a : Byte := (host >>> 24).setWidth 8
  let b : Byte := ((host >>> 16) &&& 0xff).setWidth 8
  let c : Byte := ((host >>> 8) &&& 0xff).setWidth 8
  let d : Byte := (host &&& 0xff).setWidth 8
  printNat a.toNat ++ ascii "." ++ printNat b.toNat ++ ascii "." ++ printNat c.toNat ++ ascii "." ++
    printNat d.toNat

-- what format_log_entry prints; timeStr: the string that strftime leaves
def logText (timeStr : List Byte) (sockaddr : SockaddrIn) (e : LogEntry) : List Byte :=
  timeStr ++ ascii ": " ++ dotted sockaddr ++ ascii " " ++ e.uri ++ ascii " " ++ printNat e.size

-- head and body: written to the server as request and byte by byte
structure Outcome where
  head : List Byte
  body : List Byte
  toClient : List Byte
  log : Option LogEntry
deriving DecidableEq

-- the two peers, the result of open_clientfd, and what the buffers hold at the start
structure World where
  client : Source
  server : Source
  connects : List Byte → List Byte → Bool
  clientRoom : Nat
  serverRoom : Nat
  clientBuf : List Byte
  serverBuf : List Byte

-- the arrays of MAXLINE bytes that the bytes of the peers get into; method, uri and version hold
-- tokens of one line
inductive Buffer where
  | clientBuf
  | serverBuf
  | request
  | hostname
  | pathname
  | port
  | logstring
deriving DecidableEq

-- the calls of doit; m: what is observed besides their values, ρ and σ: a descriptor to read from
-- and one to write to. opened: open_clientfd has succeeded, close: close(clientfd). left: how many
-- bytes are to come, sent: those that went out, and mark: a descriptor with none gone out yet
structure Calls (m : Type → Type) (ρ σ : Type) where
  rioReadlineb : Buffer → List Byte → ρ → m (Read ρ)
  rioReadnb : Buffer → List Byte → ρ → m (Read ρ)
  rioWriten : List Byte → σ → m (Int × σ)
  sprintf : List Byte → m (List Byte)
  parseUri : List Byte → m (Option Uri)
  opened : m Unit
  close : m Unit
  left : ρ → Nat
  sent : σ → List Byte
  mark : σ → σ

-- the descriptors of an exchange, the result of open_clientfd, and what the buffers hold at the start
structure Ends (ρ σ : Type) where
  client : ρ
  server : ρ
  toClient : σ
  toServer : σ
  connects : List Byte → List Byte → Bool
  clientBuf : List Byte
  serverBuf : List Byte

structure Request (ρ : Type) where
  method : List Byte
  uri : List Byte
  version : List Byte
  addr : Uri
  buf : List Byte
  src : ρ

-- sprintf(request, "%s /%s %s\r\n", method, pathname, version)
def rewrite {ρ : Type} (q : Request ρ) : List Byte :=
  q.method ++ ascii " /" ++ q.addr.pathname ++ ascii " " ++ q.version ++ crlf

-- the locals of the loop over the client's header lines
structure ReqHead (ρ : Type) where
  buf : List Byte
  src : ρ
  request : List Byte
  bodysize : Int

structure ResHead (ρ σ : Type) where
  buf : List Byte
  src : ρ
  sink : σ
  bodysize : Int
  headsize : Int

namespace Calls

variable {m : Type → Type} [Monad m] {ρ σ : Type} (C : Calls m ρ σ)

-- the request line
def requestLine (buf : List Byte) (src : ρ) : m (Option (Request ρ)) := do
  let r ← C.rioReadlineb .clientBuf buf src
  if r.result ≤ 0 then return none
  else
    let m := token (cstr r.buf)
    let u := token m.2
    let v := token u.2
    if m.1 = [] ∨ u.1 = [] ∨ v.1 = [] then return none
    else
      let addr ← C.parseUri u.1
      return addr.map fun addr => ⟨m.1,u.1,v.1,addr,r.buf,r.src⟩

-- at most n turns; every turn but the last reads a byte
def reqHeadLoop : Nat → ReqHead ρ → m (ReqHead ρ)
  | 0,h => return h
  | n + 1,h => do
    let r ← C.rioReadlineb .clientBuf h.buf h.src
    if r.result > 0 then
      let bodysize := contentLength r.buf h.bodysize
      let request ← C.sprintf (h.request ++ cstr r.buf)
      if cstr r.buf = crlf then return ⟨r.buf,r.src,request,bodysize⟩
      else reqHeadLoop n ⟨r.buf,r.src,request,bodysize⟩
    else return { h with buf := r.buf, src := r.src }

-- the loop over the request body with k turns left; false: doit returns
def reqBodyLoop : Nat → List Byte → ρ → σ → m (Bool × σ)
  | 0,_,_,sink => return (true,sink)
  | k + 1,buf,src,sink => do
    let r ← C.rioReadnb .clientBuf buf src
    if r.result < 1 ∧ k = 0 then
      C.close
      return (false,sink)
    else
      let w ← C.rioWriten [r.buf.headD 0] sink
      if w.1 = 1 then reqBodyLoop k r.buf r.src w.2
      else
        C.close
        return (false,w.2)

-- the loop over the server's header lines and the test after it; false: doit returns
def resHeadLoop : Nat → ResHead ρ σ → m (Bool × ResHead ρ σ)
  | 0,h => do
    C.close
    return (false,h)
  | n + 1,h => do
    let r ← C.rioReadlineb .serverBuf h.buf h.src
    if r.result > 0 then
      let bodysize := contentLength r.buf h.bodysize
      let headsize := intAdd h.headsize r.result
      let w ← C.rioWriten (cstr r.buf) h.sink
      let h := ⟨r.buf,r.src,w.2,bodysize,headsize⟩
      if w.1 ≠ (cstr r.buf).length then
        C.close
        return (false,h)
      else if cstr r.buf = crlf then return (true,h)
      else resHeadLoop n h
    else
      C.close
      return (false,{ h with buf := r.buf, src := r.src })

def resBodyLoop : Nat → List Byte → ρ → σ → m (Bool × σ)
  | 0,_,_,sink => return (true,sink)
  | k + 1,buf,src,sink => do
    let r ← C.rioReadnb .serverBuf buf src
    if r.result ≤ 0 ∧ k ≠ 0 then
      C.close
      return (false,sink)
    else
      let w ← C.rioWriten [r.buf.headD 0] sink
      if w.1 = 1 then resBodyLoop k r.buf r.src w.2
      else
        C.close
        return (false,w.2)

-- the response, from the first read of the server on
def response (uri : List Byte) (e : Ends ρ σ) : m (List Byte × Option LogEntry) := do
  let h ← C.resHeadLoop (C.left e.server + 1) ⟨e.serverBuf,e.server,e.toClient,0,0⟩
  if h.1 then
    let b ← C.resBodyLoop h.2.bodysize.toNat h.2.buf h.2.src h.2.sink
    if b.1 then
      C.close
      return (C.sent b.2,some ⟨uri,toSizeT (intAdd h.2.bodysize h.2.headsize)⟩)
    else return (C.sent b.2,none)
  else return (C.sent h.2.sink,none)

def doit (e : Ends ρ σ) : m Outcome := do
  let q ← C.requestLine e.clientBuf e.client
  match q with
  | none => return ⟨[],[],[],none⟩
  | some q =>
    let request ← C.sprintf (rewrite q)
    let h ← C.reqHeadLoop (C.left q.src + 1) ⟨q.buf,q.src,request,0⟩
    if !e.connects q.addr.hostname q.addr.port then return ⟨[],[],[],none⟩
    else
      C.opened
      let s ← C.rioWriten h.request e.toServer
      if s.1 ≠ h.request.length then
        C.close
        return ⟨C.sent s.2,[],[],none⟩
      else
        let b ← C.reqBodyLoop h.bodysize.toNat h.buf h.src (C.mark s.2)
        if b.1 then
          let r ← C.response q.uri e
          return ⟨C.sent s.2,C.sent b.2,r.1,r.2⟩
        else return ⟨C.sent s.2,C.sent b.2,[],none⟩

end Calls

-- doit over streams: of a peer only the bytes count that it sends and takes
def streams : Calls Id Source Sink where
  rioReadlineb _ := rioReadlineb
  rioReadnb _ := rioReadnb
  rioWriten := rioWriten
  sprintf text := text
  parseUri := parseUri
  opened := ()
  close := ()
  left src := src.data.length
  sent := Sink.sent
  mark sink := ⟨[],sink.room⟩

def World.ends (w : World) : Ends Source Sink :=
  ⟨w.client,w.server,⟨[],w.clientRoom⟩,⟨[],w.serverRoom⟩,w.connects,w.clientBuf,w.serverBuf⟩

def requestLine (w : World) : Option (Request Source) :=
  (streams.requestLine w.clientBuf w.client).run

def reqHeadLoop (n : Nat) (h : ReqHead Source) : ReqHead Source := (streams.reqHeadLoop n h).run

def reqBodyLoop (k : Nat) (buf : List Byte) (src : Source) (sink : Sink) : Bool × Sink :=
  (streams.reqBodyLoop k buf src sink).run

def resHeadLoop (n : Nat) (h : ResHead Source Sink) : Bool × ResHead Source Sink :=
  (streams.resHeadLoop n h).run

def resBodyLoop (k : Nat) (buf : List Byte) (src : Source) (sink : Sink) : Bool × Sink :=
  (streams.resBodyLoop k buf src sink).run

def response (uri : List Byte) (w : World) : List Byte × Option LogEntry :=
  (streams.response uri w.ends).run

def doit (w : World) : Outcome := (streams.doit w.ends).run

section Streams

variable {w : World} {q : Request Source}

theorem requestLine_eq (w : World) : requestLine w =
    let r := rioReadlineb w.clientBuf w.client
    if r.result ≤ 0 then none
    else
      let m := token (cstr r.buf)
      let u := token m.2
      let v := token u.2
      if m.1 = [] ∨ u.1 = [] ∨ v.1 = [] then none
      else (parseUri u.1).map fun addr => ⟨m.1,u.1,v.1,addr,r.buf,r.src⟩ := rfl

@[simp] theorem reqHeadLoop_zero (h : ReqHead Source) : reqHeadLoop 0 h = h := rfl

theorem reqHeadLoop_succ (n : Nat) (h : ReqHead Source) : reqHeadLoop (n + 1) h =
    let r := rioReadlineb h.buf h.src
    if r.result > 0 then
      if cstr r.buf = crlf then
        ⟨r.buf,r.src,h.request ++ cstr r.buf,contentLength r.buf h.bodysize⟩
      else reqHeadLoop n ⟨r.buf,r.src,h.request ++ cstr r.buf,contentLength r.buf h.bodysize⟩
    else { h with buf := r.buf, src := r.src } := rfl

@[simp] theorem reqBodyLoop_zero (buf : List Byte) (src : Source) (sink : Sink) :
    reqBodyLoop 0 buf src sink = (true,sink) := rfl

theorem reqBodyLoop_succ (k : Nat) (buf : List Byte) (src : Source) (sink : Sink) :
    reqBodyLoop (k + 1) buf src sink =
      let r := rioReadnb buf src
      if r.result < 1 ∧ k = 0 then (false,sink)
      else
        let w := rioWriten [r.buf.headD 0] sink
        if w.1 = 1 then reqBodyLoop k r.buf r.src w.2 else (false,w.2) := rfl

@[simp] theorem resHeadLoop_zero (h : ResHead Source Sink) : resHeadLoop 0 h = (false,h) := rfl

theorem resHeadLoop_succ (n : Nat) (h : ResHead Source Sink) : resHeadLoop (n + 1) h =
    let r := rioReadlineb h.buf h.src
    if r.result > 0 then
      let bodysize := contentLength r.buf h.bodysize
      let headsize := intAdd h.headsize r.result
      let w := rioWriten (cstr r.buf) h.sink
      let h := ⟨r.buf,r.src,w.2,bodysize,headsize⟩
      if w.1 ≠ (cstr r.buf).length then (false,h)
      else if cstr r.buf = crlf then (true,h)
      else resHeadLoop n h
    else (false,{ h with buf := r.buf, src := r.src }) := rfl

@[simp] theorem resBodyLoop_zero (buf : List Byte) (src : Source) (sink : Sink) :
    resBodyLoop 0 buf src sink = (true,sink) := rfl

theorem resBodyLoop_succ (k : Nat) (buf : List Byte) (src : Source) (sink : Sink) :
    resBodyLoop (k + 1) buf src sink =
      let r := rioReadnb buf src
      if r.result ≤ 0 ∧ k ≠ 0 then (false,sink)
      else
        let w := rioWriten [r.buf.headD 0] sink
        if w.1 = 1 then resBodyLoop k r.buf r.src w.2 else (false,w.2) := rfl

theorem response_eq (uri : List Byte) (w : World) : response uri w =
    let h := resHeadLoop (w.server.data.length + 1) ⟨w.serverBuf,w.server,⟨[],w.clientRoom⟩,0,0⟩
    if h.1 then
      let b := resBodyLoop h.2.bodysize.toNat h.2.buf h.2.src h.2.sink
      if b.1 then (b.2.sent,some ⟨uri,toSizeT (intAdd h.2.bodysize h.2.headsize)⟩)
      else (b.2.sent,none)
    else (h.2.sink.sent,none) := rfl

theorem doit_none (h : requestLine w = none) : doit w = ⟨[],[],[],none⟩ := by
  have hq : streams.requestLine w.ends.clientBuf w.ends.client = none := h
  rw [doit,Calls.doit,hq]
  rfl

theorem doit_some (hq : requestLine w = some q) : doit w =
    let h := reqHeadLoop (q.src.data.length + 1) ⟨q.buf,q.src,rewrite q,0⟩
    if !w.connects q.addr.hostname q.addr.port then ⟨[],[],[],none⟩
    else
      let s := rioWriten h.request ⟨[],w.serverRoom⟩
      if s.1 ≠ h.request.length then ⟨s.2.sent,[],[],none⟩
      else
        let b := reqBodyLoop h.bodysize.toNat h.buf h.src ⟨[],s.2.room⟩
        if b.1 then
          let r := response q.uri w
          ⟨s.2.sent,b.2.sent,r.1,r.2⟩
        else ⟨s.2.sent,b.2.sent,[],none⟩ := by
  have h : streams.requestLine w.ends.clientBuf w.ends.client = some q := hq
  rw [doit,Calls.doit,h]
  rfl

end Streams

end Proxy
