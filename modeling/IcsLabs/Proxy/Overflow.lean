import IcsLabs.Proxy.Exchange
import IcsLabs.Proxy.Writes

namespace Proxy

open Bytes
open Libc (toSizeT intAdd)

theorem length_cstr_le (buf : List Byte) : (cstr buf).length ≤ buf.length :=
  (List.takeWhile_prefix _).length_le

theorem token_length (s : List Byte) : (token s).1.length + (token s).2.length ≤ s.length := by
  have h := (List.dropWhile_suffix isSpace (l := s)).length_le
  rw [← List.length_append,token,List.takeWhile_append_dropWhile]
  exact h

theorem pathname_length {uri : List Byte} {a : Uri} (h : parseUri uri = some a) :
    a.pathname.length + 8 ≤ uri.length := by
  simp only [parseUri] at h
  split at h
  · simp at h
  · cases hd : (uri.drop 7).dropWhile fun b => !endsHost b with
    | nil => simp [hd] at h
    | cons c rest =>
      rw [hd] at h
      obtain rfl := Option.some.inj h
      have h1 := (List.dropWhile_suffix (fun b => !endsHost b) (l := uri.drop 7)).length_le
      have h2 := (List.dropWhile_suffix (fun b : Byte => decide (b ≠ 47)) (l := uri.drop 7)).length_le
      rw [hd,List.length_cons,List.length_drop] at h1
      rw [List.length_drop] at h2
      rw [List.length_drop]
      omega

section RequestLine

variable {w : World} {q : Request Source}

theorem requestLine_line (h : requestLine w = some q) :
    q.method.length + q.uri.length + q.version.length < maxLine ∧ parseUri q.uri = some q.addr := by
  simp only [requestLine_eq] at h
  split at h
  · simp at h
  · rename_i hr
    split at h
    · simp at h
    · obtain ⟨addr,ha,rfl⟩ := Option.map_eq_some_iff.mp h
      refine ⟨?_,ha⟩
      have hline := lineOf_lt w.client
      have hcstr := length_cstr_le (lineOf w.client)
      rw [← cstr_lineOf (by omega : (rioReadlineb w.clientBuf w.client).result > 0)] at hcstr
      have h1 := token_length (cstr (rioReadlineb w.clientBuf w.client).buf)
      have h2 := token_length (token (cstr (rioReadlineb w.clientBuf w.client).buf)).2
      have h3 := token_length (token (token (cstr (rioReadlineb w.clientBuf w.client).buf)).2).2
      simp only
      omega

-- the scheme that is dropped makes room for what the new line adds
theorem rewrite_lt (h : requestLine w = some q) : (rewrite q).length < maxLine := by
  obtain ⟨hline,ha⟩ := requestLine_line h
  have hpath := pathname_length ha
  have h2 : (ascii " /").length = 2 := by decide
  have h1 : (ascii " ").length = 1 := by decide
  simp only [rewrite,List.length_append,h2,h1,crlf,List.length_cons,List.length_nil]
  omega

end RequestLine

namespace Writes

@[simp] theorem store_fits (b : Buffer) (text : List Byte) :
    (store b text).All Write.Fits ↔ text.length < maxLine :=
  Traced.all_mk _ _

variable {w : World} {timeStr : List Byte} {sockaddr : SockaddrIn}

theorem rioReadlineb_fits (b : Buffer) (buf : List Byte) (src : Source) :
    (rioReadlineb b buf src).All Write.Fits := by
  have h := lineOf_lt src
  refine (Traced.all_mk _ _).mpr ?_
  rw [Write.Fits]
  simp only
  split <;> omega

theorem rioReadnb_fits (b : Buffer) (buf : List Byte) (src : Source) :
    (rioReadnb b buf src).All Write.Fits := by
  refine (Traced.all_mk _ _).mpr ?_
  rw [Write.Fits,maxLine]
  simp only
  split <;> omega

theorem parseUri_fits {uri : List Byte} (h : uri.length < maxLine) :
    (parseUri uri).All Write.Fits := by
  have hm : maxLine = 8192 := rfl
  have hbegin : (uri.drop 7).length ≤ uri.length := by
    rw [List.length_drop]
    omega
  refine Traced.all_ite (fun _ => ?_) fun _ => ?_
  · simp only [Traced.all_bind,store_fits,Traced.all_pure,and_true,List.length_nil]
    omega
  · dsimp only
    cases hd : (uri.drop 7).dropWhile fun b => !endsHost b with
    | nil => exact Traced.all_pure _
    | cons c rest =>
      have hrest := (List.dropWhile_suffix (fun b => !endsHost b) (l := uri.drop 7)).length_le
      have hhost := (List.takeWhile_prefix (fun b => !endsHost b) (l := uri.drop 7)).length_le
      have hpath := (List.dropWhile_suffix (fun b : Byte => decide (b ≠ 47)) (l := uri.drop 7)).length_le
      have hport := (List.takeWhile_prefix isDigit (l := rest)).length_le
      rw [hd,List.length_cons] at hrest
      simp only [Traced.all_bind,store_fits,Traced.all_pure,and_true]
      refine ⟨by omega,?_,by rw [List.length_drop]; omega⟩
      split
      · omega
      · decide

theorem requestLine_fits (buf : List Byte) (src : Source) :
    (calls.requestLine buf src).All Write.Fits := by
  refine (Traced.all_bind _ _).mpr ⟨rioReadlineb_fits _ _ _,?_⟩
  refine Traced.all_ite (fun _ => Traced.all_pure _) fun hr => ?_
  refine Traced.all_ite (fun _ => Traced.all_pure _) fun _ => ?_
  refine (Traced.all_bind _ _).mpr ⟨parseUri_fits ?_,Traced.all_pure _⟩
  have hr : ¬ (Proxy.rioReadlineb buf src).result ≤ 0 := hr
  have hline := lineOf_lt src
  have hcstr := length_cstr_le (lineOf src)
  rw [← cstr_lineOf (by omega : (Proxy.rioReadlineb buf src).result > 0)] at hcstr
  have h1 := token_length (cstr (Proxy.rioReadlineb buf src).buf)
  have h2 := token_length (token (cstr (Proxy.rioReadlineb buf src).buf)).2
  simp only [calls_rioReadlineb,rioReadlineb]
  omega

theorem reqHeadLoop_fits (n : Nat) (h : ReqHead Source) (hr : h.request.length < maxLine) :
    (calls.reqHeadLoop n h).All Write.Fits ↔
      (h.request ++ (readHead n h.buf h.src h.bodysize).forwarded).length < maxLine := by
  induction n generalizing h with
  | zero => simpa [Calls.reqHeadLoop,readHead,Head.forwarded] using hr
  | succ n ih =>
    rw [Calls.reqHeadLoop,readHead,Traced.all_bind]
    refine (and_iff_right (rioReadlineb_fits _ _ _)).trans ?_
    by_cases hpos : (Proxy.rioReadlineb h.buf h.src).result > 0
    · simp only [calls_rioReadlineb,calls_sprintf,rioReadlineb,if_pos hpos,Traced.all_bind,store_fits]
      by_cases hblank : cstr (Proxy.rioReadlineb h.buf h.src).buf = crlf
      · simp only [if_pos hblank,Traced.all_pure,and_true]
        simp [Head.forwarded,cstr_lineOf hpos]
      · simp only [if_neg hblank,store]
        by_cases hfit : (h.request ++ cstr (Proxy.rioReadlineb h.buf h.src).buf).length < maxLine
        · rw [and_iff_right hfit,ih _ hfit]
          simp [Head.forwarded,cstr_lineOf hpos]
        · refine iff_of_false (fun h => hfit h.1) fun hsum => hfit ?_
          simp only [Head.forwarded,List.map_cons,List.flatten_cons,List.length_append,
            ← cstr_lineOf hpos] at hsum ⊢
          omega
    · simpa [rioReadlineb,if_neg hpos,Head.forwarded] using hr

theorem reqBodyLoop_fits (k : Nat) (buf : List Byte) (src : Source) (sink : Sink) :
    (calls.reqBodyLoop k buf src sink).All Write.Fits := by
  induction k generalizing buf src sink with
  | zero => exact Traced.all_pure _
  | succ k ih =>
    refine (Traced.all_bind _ _).mpr ⟨rioReadnb_fits _ _ _,?_⟩
    refine Traced.all_ite (fun _ => Traced.all_pure _) fun _ => ?_
    exact Traced.all_ite (fun _ => ih _ _ _) fun _ => Traced.all_pure _

theorem resHeadLoop_fits (n : Nat) (h : ResHead Source Sink) :
    (calls.resHeadLoop n h).All Write.Fits := by
  induction n generalizing h with
  | zero => exact Traced.all_pure _
  | succ n ih =>
    refine (Traced.all_bind _ _).mpr ⟨rioReadlineb_fits _ _ _,?_⟩
    refine Traced.all_ite (fun _ => ?_) fun _ => Traced.all_pure _
    refine Traced.all_ite (fun _ => Traced.all_pure _) fun _ => ?_
    exact Traced.all_ite (fun _ => Traced.all_pure _) fun _ => ih _

theorem resBodyLoop_fits (k : Nat) (buf : List Byte) (src : Source) (sink : Sink) :
    (calls.resBodyLoop k buf src sink).All Write.Fits := by
  induction k generalizing buf src sink with
  | zero => exact Traced.all_pure _
  | succ k ih =>
    refine (Traced.all_bind _ _).mpr ⟨rioReadnb_fits _ _ _,?_⟩
    refine Traced.all_ite (fun _ => Traced.all_pure _) fun _ => ?_
    exact Traced.all_ite (fun _ => ih _ _ _) fun _ => Traced.all_pure _

theorem response_fits (uri : List Byte) (e : Ends Source Sink) :
    (calls.response uri e).All Write.Fits := by
  refine (Traced.all_bind _ _).mpr ⟨resHeadLoop_fits _ _,?_⟩
  refine Traced.all_ite (fun _ => ?_) fun _ => Traced.all_pure _
  refine (Traced.all_bind _ _).mpr ⟨resBodyLoop_fits _ _ _ _,?_⟩
  exact Traced.all_ite (fun _ => Traced.all_pure _) fun _ => Traced.all_pure _

theorem relay_fits (w : World) : (relay w).All Write.Fits ↔
    ∀ q, requestLine w = some q → (rewrite q ++ (clientHead q).forwarded).length < maxLine := by
  rw [relay,Calls.doit,Traced.all_bind,and_iff_right (requestLine_fits _ _),requestLine_val]
  cases hq : requestLine w with
  | none => exact iff_of_true (Traced.all_pure _) fun q h => by simp at h
  | some q =>
    have hrw := rewrite_lt hq
    dsimp only
    rw [Traced.all_bind,Traced.all_bind,calls_sprintf,and_iff_right ((store_fits _ _).mpr hrw)]
    rw [and_iff_left,reqHeadLoop_fits _ _ hrw]
    · exact ⟨fun h q' he => Option.some.inj he ▸ h,fun h => h q rfl⟩
    -- from the connection to the server on only client_buf and server_buf are written
    · refine Traced.all_ite (fun _ => Traced.all_pure _) fun _ => ?_
      refine (Traced.all_bind _ _).mpr ⟨Traced.all_pure _,?_⟩
      refine (Traced.all_bind _ _).mpr ⟨Traced.all_pure _,?_⟩
      refine Traced.all_ite (fun _ => Traced.all_pure _) fun _ => ?_
      refine (Traced.all_bind _ _).mpr ⟨reqBodyLoop_fits _ _ _ _,?_⟩
      refine Traced.all_ite (fun _ => ?_) fun _ => Traced.all_pure _
      exact (Traced.all_bind _ _).mpr ⟨response_fits _ _,Traced.all_pure _⟩

theorem doit_fits (timeStr : List Byte) (sockaddr : SockaddrIn) (w : World) :
    (doit timeStr sockaddr w).All Write.Fits ↔ (relay w).All Write.Fits ∧
      ∀ e, (Proxy.doit w).log = some e → (logText timeStr sockaddr e).length < maxLine := by
  rw [doit,Traced.all_bind,relay_val]
  refine and_congr_right fun _ => ?_
  cases (Proxy.doit w).log with
  | none => simp
  | some e => simp [formatLogEntry]

end Writes

section Overflow

variable {w : World} {e : LogEntry} {timeStr : List Byte} {sockaddr : SockaddrIn}

-- the response got out whole, its last byte perhaps made up
structure Completes (w : World) : Prop where
  head : (serverHead w).complete = true
  body : (serverHead w).bodysize ≤ (serverHead w).src.data.length + 1
  room : (serverHead w).forwarded.length + (serverHead w).bodysize ≤ w.clientRoom

-- as the ints of doit and the size_t of format_log_entry have it
def responseSize (w : World) : Nat :=
  toSizeT (intAdd (serverHead w).announced (headSize (serverHead w)))

theorem response_log (uri : List Byte) (w : World) :
    (response uri w).2 = some e ↔ Completes w ∧ e = ⟨uri,responseSize w⟩ := by
  by_cases hroom : (serverHead w).forwarded.length ≤ w.clientRoom
  · cases hc : (serverHead w).complete with
    | false =>
      rw [response_cut uri w hroom hc]
      exact iff_of_false (by simp) fun h => by simp [h.1.head] at hc
    | true =>
      obtain ⟨-,-,-,hlog⟩ := response_whole uri w hroom hc
      rw [hlog,Option.ite_none_right_eq_some,Option.some.injEq,eq_comm (b := e)]
      refine and_congr_left fun _ => ⟨fun h => ⟨hc,h.1,by omega⟩,fun h => ⟨h.body,?_⟩⟩
      have := h.room
      omega
  · rw [response_short uri w (by omega)]
    refine iff_of_false (by simp) fun h => ?_
    have := h.1.room
    omega

theorem doit_log (w : World) : (doit w).log = some e ↔ ∃ q, requestLine w = some q ∧
    w.connects q.addr.hostname q.addr.port = true ∧ Forwarded w q ∧ Completes w ∧
      e = ⟨q.uri,responseSize w⟩ := by
  cases hq : requestLine w with
  | none =>
    rw [doit_none hq]
    simp
  | some q =>
    simp only [Option.some.injEq,exists_eq_left']
    cases hc : w.connects q.addr.hostname q.addr.port with
    | false =>
      rw [doit_unconnected hq hc]
      simp
    | true =>
      obtain ⟨-,-,-,-,hyes,hno⟩ := doit_connected hq hc
      by_cases hf : Forwarded w q
      · rw [show (doit w).log = (response q.uri w).2 from congrArg Prod.snd (hyes hf),response_log]
        simp [hf]
      · rw [show (doit w).log = none from congrArg Prod.snd (hno hf)]
        simp [hf]

-- of each header line counts what comes before its first NUL
def RequestFits (w : World) : Prop :=
  ∀ q, requestLine w = some q →
    q.method.length + q.addr.pathname.length + q.version.length + 5 +
      ((clientHead q).lines.map fun line => (cstr line).length).sum < maxLine

def LogFits (timeStr : List Byte) (sockaddr : SockaddrIn) (w : World) : Prop :=
  ∀ q, requestLine w = some q → w.connects q.addr.hostname q.addr.port = true →
    Forwarded w q → Completes w →
      timeStr.length + (dotted sockaddr).length + q.uri.length +
        (printNat (responseSize w)).length + 4 < maxLine

theorem length_request (q : Request Source) : (rewrite q ++ (clientHead q).forwarded).length =
    q.method.length + q.addr.pathname.length + q.version.length + 5 +
      ((clientHead q).lines.map fun line => (cstr line).length).sum := by
  have h2 : (ascii " /").length = 2 := by decide
  have h1 : (ascii " ").length = 1 := by decide
  have hsum : (clientHead q).forwarded.length =
      ((clientHead q).lines.map fun line => (cstr line).length).sum := by
    rw [Head.forwarded,List.length_flatten,List.map_map]
    rfl
  simp only [rewrite,List.length_append,hsum,h2,h1,crlf,List.length_cons,List.length_nil]
  omega

theorem length_logText (timeStr : List Byte) (sockaddr : SockaddrIn) (e : LogEntry) :
    (logText timeStr sockaddr e).length = timeStr.length + (dotted sockaddr).length +
      e.uri.length + (printNat e.size).length + 4 := by
  have h2 : (ascii ": ").length = 2 := by decide
  have h1 : (ascii " ").length = 1 := by decide
  simp only [logText,List.length_append,h2,h1]
  omega

theorem requestFits_iff (w : World) : (Writes.relay w).All Write.Fits ↔ RequestFits w := by
  rw [Writes.relay_fits]
  exact forall₂_congr fun q _ => by rw [length_request]

theorem logFits_iff : (∀ e, (doit w).log = some e → (logText timeStr sockaddr e).length < maxLine) ↔
    LogFits timeStr sockaddr w := by
  simp only [doit_log,length_logText]
  constructor
  · intro h q hq hc hf hr
    exact h ⟨q.uri,responseSize w⟩ ⟨q,hq,hc,hf,hr,rfl⟩
  · rintro h e ⟨q,hq,hc,hf,hr,rfl⟩
    exact h q hq hc hf hr

theorem no_overflow_iff (timeStr : List Byte) (sockaddr : SockaddrIn) (w : World) :
    (Writes.doit timeStr sockaddr w).val = doit w ∧
      ((Writes.doit timeStr sockaddr w).All Write.Fits ↔
        RequestFits w ∧ LogFits timeStr sockaddr w) := by
  refine ⟨Writes.doit_val w timeStr sockaddr,?_⟩
  rw [Writes.doit_fits,requestFits_iff,logFits_iff]

end Overflow

-- two header lines of 5000 bytes
def flood : Exchange where
  method := ascii "GET"
  target := ⟨ascii "h",none,[]⟩
  version := ascii "V"
  headers := List.replicate 2 (List.replicate 5000 97)
  body := []
  resHead := []
  resBody := []

theorem readable_replicate {n : Nat} (hn : n + 2 < maxLine - 1) :
    Readable (List.replicate n (97 : Byte)) := by
  refine ⟨fun h => ?_,fun h => ?_,by rwa [List.length_replicate]⟩
  · exact absurd (List.eq_of_mem_replicate h) (by decide)
  · exact absurd (List.eq_of_mem_replicate h) (by decide)

theorem startsWith_replicate {n : Nat} (hn : 14 ≤ n) :
    startsWith (ascii "Content-Length") (List.replicate n 97) = false := by
  have hnul : (0 : Byte) ∉ List.replicate n 97 := fun h =>
    absurd (List.eq_of_mem_replicate h) (by decide)
  rw [startsWith,cstr_of_nulFree hnul,List.take_replicate,
    show min (ascii "Content-Length").length n = 14 from Nat.min_eq_left hn]
  decide

theorem flood_valid : flood.Valid where
  method := by decide
  target := ⟨by decide,fun p hp => absurd hp.symm (Option.some_ne_none p),by decide⟩
  version := by decide
  firstLine := by decide
  headers := fun line hl => by
    rw [List.eq_of_mem_replicate hl]
    exact ⟨readable_replicate (by decide),List.cons_ne_nil _ _⟩
  body := .inl ⟨rfl,fun line hl => by
    rw [List.eq_of_mem_replicate hl]
    exact startsWith_replicate (by decide)⟩
  resHead := fun line hl => absurd hl List.not_mem_nil
  resBody := .inl ⟨rfl,fun line hl => absurd hl List.not_mem_nil⟩

theorem length_headBytes_replicate (k n : Nat) (b : Byte) :
    (headBytes (List.replicate k (List.replicate n b))).length = k * (n + 2) + 2 := by
  simp only [headBytes,List.map_replicate,List.length_append,List.length_flatten,
    List.sum_replicate_nat,List.length_replicate,crlf,List.length_cons,List.length_nil]

theorem flood_carries : Carries (peers flood.request flood.response) flood where
  client := rfl
  server := rfl
  connects := rfl
  serverRoom := by
    have hline : (flood.method ++ ascii " /" ++ flood.target.path ++ ascii " " ++ flood.version ++
        crlf).length = 9 := by decide
    rw [Exchange.rewritten,List.length_append,List.length_append,hline,
      show flood.headers = List.replicate 2 (List.replicate 5000 97) from rfl,
      length_headBytes_replicate]
    decide
  clientRoom := by decide

theorem header_flood_overflows : ¬ (Writes.doit (ascii "Mon 01 Jan 2024 00:00:00 UTC") ⟨0x0100007f⟩
    (peers flood.request flood.response)).All Write.Fits := by
  rw [Writes.doit_fits,Writes.relay_fits]
  rintro ⟨hfit,-⟩
  obtain ⟨q,hq,-,-,-,hf,-⟩ := request_exchange flood_valid flood_carries
  have hlen := hfit q hq
  rw [List.length_append,hf,show flood.headers = List.replicate 2 (List.replicate 5000 97) from rfl,
    length_headBytes_replicate] at hlen
  have hmax : maxLine = 8192 := rfl
  omega

end Proxy
