import IcsLabs.Lib.Traced
import IcsLabs.Proxy.Doit

namespace Proxy

open Bytes

variable {A ρ σ : Type}

@[simps] def Read.map (src : ρ → Source) (r : Read ρ) : Read Source := ⟨r.result,r.buf,src r.src⟩

@[simps] def Request.map (src : ρ → Source) (q : Request ρ) : Request Source :=
  ⟨q.method,q.uri,q.version,q.addr,q.buf,src q.src⟩

theorem rewrite_map (src : ρ → Source) (q : Request ρ) : rewrite (q.map src) = rewrite q := rfl

@[simps] def ReqHead.map (src : ρ → Source) (h : ReqHead ρ) : ReqHead Source :=
  ⟨h.buf,src h.src,h.request,h.bodysize⟩

@[simps] def ResHead.map (src : ρ → Source) (sink : σ → Sink) (h : ResHead ρ σ) :
    ResHead Source Sink :=
  ⟨h.buf,src h.src,sink h.sink,h.bodysize,h.headsize⟩

@[simps] def Ends.map (src : ρ → Source) (sink : σ → Sink) (e : Ends ρ σ) : Ends Source Sink :=
  ⟨src e.client,src e.server,sink e.toClient,sink e.toServer,e.connects,e.clientBuf,e.serverBuf⟩

-- calls that come to what they come to over streams, whatever is observed of them
structure Calls.Streams (C : Calls (Traced A) ρ σ) (inv : ρ → Prop) (src : ρ → Source)
    (sink : σ → Sink) : Prop where
  rioReadlineb : ∀ b buf {fd}, inv fd → inv (C.rioReadlineb b buf fd).val.src ∧
    (C.rioReadlineb b buf fd).val.map src = Proxy.rioReadlineb buf (src fd)
  rioReadnb : ∀ b buf {fd}, inv fd → inv (C.rioReadnb b buf fd).val.src ∧
    (C.rioReadnb b buf fd).val.map src = Proxy.rioReadnb buf (src fd)
  rioWriten : ∀ bytes fd, (C.rioWriten bytes fd).val.map id sink = Proxy.rioWriten bytes (sink fd)
  sprintf : ∀ text, (C.sprintf text).val = text
  parseUri : ∀ uri, (C.parseUri uri).val = Proxy.parseUri uri
  left : ∀ fd, C.left fd = (src fd).data.length
  sent : ∀ fd, C.sent fd = (sink fd).sent
  mark : ∀ fd, sink (C.mark fd) = ⟨[],(sink fd).room⟩

namespace Calls.Streams

variable {C : Calls (Traced A) ρ σ} {inv : ρ → Prop} {src : ρ → Source} {sink : σ → Sink}
  (hC : C.Streams inv src sink)

include hC

theorem reqHeadLoop_val (n : Nat) (h : ReqHead ρ) (hi : inv h.src) :
    inv (C.reqHeadLoop n h).val.src ∧
      (C.reqHeadLoop n h).val.map src = Proxy.reqHeadLoop n (h.map src) := by
  induction n generalizing h with
  | zero => exact ⟨hi,rfl⟩
  | succ n ih =>
    obtain ⟨hi',hr⟩ := hC.rioReadlineb .clientBuf h.buf hi
    rw [reqHeadLoop_succ,ReqHead.map_buf,ReqHead.map_src,← hr]
    simp only [Calls.reqHeadLoop,Traced.val_bind,Traced.val_ite,Traced.val_pure,hC.sprintf,
      Read.map_result,Read.map_buf,Read.map_src]
    split
    · split
      · exact ⟨hi',rfl⟩
      · exact ih _ hi'
    · exact ⟨hi',rfl⟩

theorem reqBodyLoop_val (n : Nat) (buf : List Byte) {fd : ρ} (hi : inv fd) (out : σ) :
    (C.reqBodyLoop n buf fd out).val.map id sink =
      Proxy.reqBodyLoop n buf (src fd) (sink out) := by
  induction n generalizing buf fd out with
  | zero => rfl
  | succ n ih =>
    obtain ⟨hi',hr⟩ := hC.rioReadnb .clientBuf buf hi
    rw [reqBodyLoop_succ,← hr]
    simp only [Calls.reqBodyLoop,Traced.val_bind,Traced.val_ite,Traced.val_pure,
      Read.map_result,Read.map_buf,Read.map_src,← hC.rioWriten,Prod.map_fst,Prod.map_snd,id]
    split
    · rfl
    split
    · exact ih _ hi' _
    · rfl

theorem resHeadLoop_val (n : Nat) (h : ResHead ρ σ) (hi : inv h.src) :
    inv (C.resHeadLoop n h).val.2.src ∧
      (C.resHeadLoop n h).val.map id (ResHead.map src sink) =
        Proxy.resHeadLoop n (h.map src sink) := by
  induction n generalizing h with
  | zero => exact ⟨hi,rfl⟩
  | succ n ih =>
    obtain ⟨hi',hr⟩ := hC.rioReadlineb .serverBuf h.buf hi
    rw [resHeadLoop_succ,ResHead.map_buf,ResHead.map_src,← hr]
    simp only [Calls.resHeadLoop,Traced.val_bind,Traced.val_ite,Traced.val_pure,
      Read.map_result,Read.map_buf,Read.map_src,ResHead.map_sink,← hC.rioWriten,Prod.map_fst,
      Prod.map_snd,id]
    split
    · split
      · exact ⟨hi',rfl⟩
      split
      · exact ⟨hi',rfl⟩
      · exact ih _ hi'
    · exact ⟨hi',rfl⟩

theorem resBodyLoop_val (n : Nat) (buf : List Byte) {fd : ρ} (hi : inv fd) (out : σ) :
    (C.resBodyLoop n buf fd out).val.map id sink =
      Proxy.resBodyLoop n buf (src fd) (sink out) := by
  induction n generalizing buf fd out with
  | zero => rfl
  | succ n ih =>
    obtain ⟨hi',hr⟩ := hC.rioReadnb .serverBuf buf hi
    rw [resBodyLoop_succ,← hr]
    simp only [Calls.resBodyLoop,Traced.val_bind,Traced.val_ite,Traced.val_pure,
      Read.map_result,Read.map_buf,Read.map_src,← hC.rioWriten,Prod.map_fst,Prod.map_snd,id]
    split
    · rfl
    split
    · exact ih _ hi' _
    · rfl

variable {e : Ends ρ σ} {w : World}

theorem requestLine_val (hi : inv e.client) (he : e.map src sink = w.ends) :
    (∀ q ∈ (C.requestLine e.clientBuf e.client).val, inv q.src) ∧
      (C.requestLine e.clientBuf e.client).val.map (Request.map src) = Proxy.requestLine w := by
  have hcl : src e.client = w.client := congrArg Ends.client he
  have hbuf : e.clientBuf = w.clientBuf := congrArg Ends.clientBuf he
  obtain ⟨hi',hr⟩ := hC.rioReadlineb .clientBuf e.clientBuf hi
  rw [requestLine_eq,← hbuf,← hcl,← hr]
  simp only [Calls.requestLine,Traced.val_bind,Traced.val_ite,Traced.val_pure,hC.parseUri,
    Read.map_result,Read.map_buf,Read.map_src]
  split
  · simp
  split
  · simp
  cases Proxy.parseUri
    (token (token (cstr (C.rioReadlineb .clientBuf e.clientBuf e.client).val.buf)).2).1 with
  | none => simp
  | some addr => simpa [Request.map] using hi'

theorem response_val (uri : List Byte) (hi : inv e.server) (he : e.map src sink = w.ends) :
    (C.response uri e).val = Proxy.response uri w := by
  have hsrv : src e.server = w.server := congrArg Ends.server he
  have hout : sink e.toClient = ⟨[],w.clientRoom⟩ := congrArg Ends.toClient he
  have hbuf : e.serverBuf = w.serverBuf := congrArg Ends.serverBuf he
  obtain ⟨hi',hh⟩ := hC.resHeadLoop_val (C.left e.server + 1)
    ⟨e.serverBuf,e.server,e.toClient,0,0⟩ hi
  rw [ResHead.map,hsrv,hout,hbuf,hC.left,hsrv] at hh
  rw [response_eq,← hh]
  simp only [Calls.response,Traced.val_bind,Traced.val_ite,Traced.val_pure,hC.left,hC.sent,hsrv,
    hbuf,Prod.map_fst,Prod.map_snd,ResHead.map_bodysize,ResHead.map_buf,ResHead.map_src,
    ResHead.map_sink,ResHead.map_headsize,id]
  rw [hC.left,hbuf,hsrv] at hi'
  rw [← hC.resBodyLoop_val _ _ hi']
  rfl

theorem doit_val (hc : inv e.client) (hs : inv e.server) (he : e.map src sink = w.ends) :
    (C.doit e).val = Proxy.doit w := by
  have hout : sink e.toServer = ⟨[],w.serverRoom⟩ := congrArg Ends.toServer he
  have hcon : e.connects = w.connects := congrArg Ends.connects he
  obtain ⟨hi,hq⟩ := hC.requestLine_val hc he
  rw [Calls.doit,Traced.val_bind]
  cases hx : (C.requestLine e.clientBuf e.client).val with
  | none =>
    rw [hx] at hq
    rw [doit_none hq.symm]
    rfl
  | some q =>
    rw [hx] at hq hi
    obtain ⟨hi',hh⟩ := hC.reqHeadLoop_val (C.left q.src + 1) ⟨q.buf,q.src,rewrite q,0⟩
      (hi q rfl)
    simp only [ReqHead.map,hC.left] at hh hi'
    rw [doit_some hq.symm]
    simp only [Traced.val_bind,Traced.val_ite,Traced.val_pure,hC.left,hC.sprintf,hC.sent,
      hC.response_val _ hs he,Request.map_src,Request.map_buf,Request.map_addr,Request.map_uri,
      rewrite_map,hcon,← hh,← hout,← hC.rioWriten,Prod.map_fst,Prod.map_snd,id]
    generalize (C.reqHeadLoop ((src q.src).data.length + 1) ⟨q.buf,q.src,rewrite q,0⟩).val = h at *
    simp only [← hC.mark,← hC.reqBodyLoop_val _ _ hi',Prod.map_fst,Prod.map_snd,id]

end Calls.Streams

end Proxy
