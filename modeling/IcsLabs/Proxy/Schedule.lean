import IcsLabs.Proxy.Rio

namespace Proxy
namespace Rio

open Bytes

-- the events on the two descriptors of an exchange, and what the rio buffers hold at the start
structure Kernel where
  clientReads : List Event
  clientWrites : List Event
  serverReads : List Event
  serverWrites : List Event
  clientBuf : List Byte
  serverBuf : List Byte
  clientSize : clientBuf.length = rioBufsize
  serverSize : serverBuf.length = rioBufsize

-- what happens to clientfd: open_clientfd has returned it, close(clientfd)
inductive FdCall where
  | opened
  | close
deriving DecidableEq

-- the calls of doit over the rio functions
def calls : Calls (Traced FdCall) RioT OutFd where
  rioReadlineb _ buf rp := pure (rioReadlineb buf rp)
  rioReadnb _ buf rp := pure (rioReadnb buf 1 rp)
  rioWriten bytes fd := pure (rioWriten bytes fd)
  sprintf text := pure text
  parseUri uri := pure (parseUri uri)
  opened := ⟨(),[.opened]⟩
  close := ⟨(),[.close]⟩
  left rp := rp.stream.data.length
  sent fd := fd.sink.sent
  mark fd := ⟨⟨[],fd.sink.room⟩,fd.sched⟩

def ends (w : World) (k : Kernel) : Ends RioT OutFd where
  client := rioReadinitb k.clientBuf ⟨w.client,k.clientReads⟩
  server := rioReadinitb k.serverBuf ⟨w.server,k.serverReads⟩
  toClient := ⟨⟨[],w.clientRoom⟩,k.clientWrites⟩
  toServer := ⟨⟨[],w.serverRoom⟩,k.serverWrites⟩
  connects := w.connects
  clientBuf := w.clientBuf
  serverBuf := w.serverBuf

-- the exchange, and what happened to clientfd
structure Trip where
  outcome : Outcome
  calls : List FdCall

def Trip.opened (t : Trip) : Bool := t.calls.contains .opened

def Trip.closes (t : Trip) : Nat := t.calls.count .close

def doit (w : World) (k : Kernel) : Trip := ⟨(calls.doit (ends w k)).val,(calls.doit (ends w k)).log⟩

theorem calls_streams : calls.Streams RioT.Inv RioT.stream OutFd.sink where
  rioReadlineb _ buf _ hi := rioReadlineb_spec hi buf
  rioReadnb _ buf _ hi := rioReadnb_spec hi buf
  rioWriten := rioWriten_spec
  sprintf _ := rfl
  parseUri _ := rfl
  left _ := rfl
  sent _ := rfl
  mark _ := rfl

theorem ends_map (w : World) (k : Kernel) : (ends w k).map RioT.stream OutFd.sink = w.ends := by
  simp only [ends,Ends.map,rioReadinitb_stream,World.ends]

section Closes

theorem requestLine_log (buf : List Byte) (rp : RioT) : (calls.requestLine buf rp).log = [] := by
  rw [Calls.requestLine,Traced.log_bind]
  dsimp only
  split
  · rfl
  split
  · rfl
  · rfl

theorem reqHeadLoop_log (n : Nat) (h : ReqHead RioT) : (calls.reqHeadLoop n h).log = [] := by
  induction n generalizing h with
  | zero => rfl
  | succ n ih =>
    rw [Calls.reqHeadLoop,Traced.log_bind]
    dsimp only
    split
    · rw [Traced.log_bind]
      split
      · rfl
      · exact ih _
    · rfl

-- clientfd is closed where the loop makes doit return
theorem reqBodyLoop_log (n : Nat) (buf : List Byte) (rp : RioT) (fd : OutFd) :
    (calls.reqBodyLoop n buf rp fd).log =
      if (calls.reqBodyLoop n buf rp fd).val.1 then [] else [.close] := by
  induction n generalizing buf rp fd with
  | zero => rfl
  | succ n ih =>
    rw [Calls.reqBodyLoop,Traced.log_bind,Traced.val_bind]
    split
    · rfl
    rw [Traced.log_bind,Traced.val_bind]
    split
    · exact ih _ _ _
    · rfl

theorem resHeadLoop_log (n : Nat) (h : ResHead RioT OutFd) : (calls.resHeadLoop n h).log =
    if (calls.resHeadLoop n h).val.1 then [] else [.close] := by
  induction n generalizing h with
  | zero => rfl
  | succ n ih =>
    rw [Calls.resHeadLoop,Traced.log_bind,Traced.val_bind]
    dsimp only
    split
    · rw [Traced.log_bind,Traced.val_bind]
      split
      · rfl
      split
      · rfl
      · exact ih _
    · rfl

theorem resBodyLoop_log (n : Nat) (buf : List Byte) (rp : RioT) (fd : OutFd) :
    (calls.resBodyLoop n buf rp fd).log =
      if (calls.resBodyLoop n buf rp fd).val.1 then [] else [.close] := by
  induction n generalizing buf rp fd with
  | zero => rfl
  | succ n ih =>
    rw [Calls.resBodyLoop,Traced.log_bind,Traced.val_bind]
    split
    · rfl
    rw [Traced.log_bind,Traced.val_bind]
    split
    · exact ih _ _ _
    · rfl

theorem response_log (uri : List Byte) (e : Ends RioT OutFd) :
    (calls.response uri e).log = [.close] := by
  rw [Calls.response,Traced.log_bind,resHeadLoop_log]
  split
  · rw [Traced.log_bind,resBodyLoop_log]
    split
    · rfl
    · rfl
  · rfl

theorem doit_log (e : Ends RioT OutFd) : (calls.doit e).log = [.opened,.close] ∨
    (calls.doit e).log = [] ∧ (calls.doit e).val = ⟨[],[],[],none⟩ := by
  rw [Calls.doit,Traced.log_bind,Traced.val_bind,requestLine_log]
  cases (calls.requestLine e.clientBuf e.client).val with
  | none => exact .inr ⟨rfl,rfl⟩
  | some q =>
    simp only [Traced.log_bind,Traced.val_bind,reqHeadLoop_log]
    split
    · exact .inr ⟨rfl,rfl⟩
    refine .inl ?_
    rw [Traced.log_bind,Traced.log_bind]
    split
    · rfl
    rw [Traced.log_bind,reqBodyLoop_log]
    split
    · rw [Traced.log_bind,response_log]
      rfl
    · rfl

end Closes

theorem doit_outcome (w : World) (k : Kernel) : (doit w k).outcome = Proxy.doit w :=
  calls_streams.doit_val (rioReadinitb_inv k.clientSize _) (rioReadinitb_inv k.serverSize _)
    (ends_map w k)

theorem doit_refused {w : World} {k : Kernel} (h : (doit w k).opened = false) :
    (Proxy.doit w).log = none := by
  obtain hl | ⟨-,hv⟩ := doit_log (ends w k)
  · simp [Trip.opened,doit,hl] at h
  · rw [← doit_outcome w k,doit,hv]

end Rio

end Proxy
