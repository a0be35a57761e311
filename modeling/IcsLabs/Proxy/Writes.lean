import IcsLabs.Proxy.Message
import IcsLabs.Proxy.Observed

namespace Proxy

open Bytes

-- a write from the start of a buffer; bound: one past the last index
structure Write where
  buffer : Buffer
  bound : Nat
deriving DecidableEq

def Write.Fits (x : Write) : Prop := x.bound ≤ maxLine

instance (x : Write) : Decidable x.Fits := inferInstanceAs (Decidable (_ ≤ _))

-- the functions of doit with the writes they make
namespace Writes

-- a string and its NUL
def store (b : Buffer) (text : List Byte) : Traced Write (List Byte) :=
  ⟨text,[⟨b,text.length + 1⟩]⟩

-- the bytes that were read, and the NUL unless the function has returned before it
def rioReadlineb (b : Buffer) (buf : List Byte) (src : Source) : Traced Write (Read Source) :=
  let r := Proxy.rioReadlineb buf src
  ⟨r,[⟨b,if r.result > 0 then (lineOf src).length + 1 else (lineOf src).length⟩]⟩

def rioReadnb (b : Buffer) (buf : List Byte) (src : Source) : Traced Write (Read Source) :=
  let r := Proxy.rioReadnb buf src
  ⟨r,[⟨b,if r.result > 0 then 1 else 0⟩]⟩

def parseUri (uri : List Byte) : Traced Write (Option Uri) :=
  if !startsWith (ascii "http://") uri then do
    let _ ← store .hostname []
    return none
  else
    let hostbegin := uri.drop 7
    match hostbegin.dropWhile fun b => !endsHost b with
    | [] => return none
    | c :: rest => do
      let hostname ← store .hostname (hostbegin.takeWhile fun b => !endsHost b)
      let port ← store .port (if c = 58 then rest.takeWhile isDigit else ascii "80")
      let pathname ← store .pathname ((hostbegin.dropWhile (· ≠ 47)).drop 1)
      return some ⟨hostname,pathname,port⟩

@[simps] def calls : Calls (Traced Write) Source Sink where
  rioReadlineb := rioReadlineb
  rioReadnb := rioReadnb
  rioWriten bytes sink := pure (rioWriten bytes sink)
  sprintf := store .request
  parseUri := parseUri
  opened := pure ()
  close := pure ()
  left := streams.left
  sent := streams.sent
  mark := streams.mark

-- doit up to the log entry
def relay (w : World) : Traced Write Outcome := calls.doit w.ends

def formatLogEntry (timeStr : List Byte) (sockaddr : SockaddrIn) (e : LogEntry) :
    Traced Write (List Byte) :=
  store .logstring (logText timeStr sockaddr e)

-- an exchange that came to its end is logged, with its uri and size
def doit (timeStr : List Byte) (sockaddr : SockaddrIn) (w : World) : Traced Write Outcome := do
  let o ← relay w
  match o.log with
  | none => return o
  | some e =>
    let _ ← formatLogEntry timeStr sockaddr e
    return o

section Values

variable (w : World)

theorem parseUri_val (uri : List Byte) : (parseUri uri).val = Proxy.parseUri uri := by
  simp only [parseUri,Proxy.parseUri]
  split
  · rfl
  · cases (uri.drop 7).dropWhile fun b => !endsHost b <;> rfl

theorem calls_streams : calls.Streams (fun _ => True) id id where
  rioReadlineb _ _ _ _ := ⟨trivial,rfl⟩
  rioReadnb _ _ _ _ := ⟨trivial,rfl⟩
  rioWriten _ _ := rfl
  sprintf _ := rfl
  parseUri := parseUri_val
  left _ := rfl
  sent _ := rfl
  mark _ := rfl

theorem requestLine_val :
    (calls.requestLine w.ends.clientBuf w.ends.client).val = requestLine w := by
  have h := (calls_streams.requestLine_val (e := w.ends) (w := w) trivial rfl).2
  rwa [show Request.map id = (id : Request Source → Request Source) from rfl,Option.map_id] at h

theorem relay_val : (relay w).val = Proxy.doit w := calls_streams.doit_val trivial trivial rfl

theorem doit_val (timeStr : List Byte) (sockaddr : SockaddrIn) :
    (doit timeStr sockaddr w).val = Proxy.doit w := by
  simp only [doit,Traced.val_bind,relay_val]
  cases (Proxy.doit w).log <;> rfl

end Values

end Writes

end Proxy
