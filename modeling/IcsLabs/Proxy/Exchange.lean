import IcsLabs.Proxy.Message

namespace Proxy

open Bytes
open Libc (toSizeT intAdd toInt_bmod)

structure Exchange where
  method : List Byte
  target : Target
  version : List Byte
  headers : List (List Byte)
  body : List Byte
  resHead : List (List Byte)
  resBody : List Byte

variable {e : Exchange} {w : World}

def Exchange.firstLine (e : Exchange) : List Byte :=
  e.method ++ ascii " " ++ e.target.uri ++ ascii " " ++ e.version

def Exchange.request (e : Exchange) : List Byte :=
  e.firstLine ++ crlf ++ headBytes e.headers ++ e.body

def Exchange.response (e : Exchange) : List Byte := headBytes e.resHead ++ e.resBody

-- the request as the server is to see it
def Exchange.rewritten (e : Exchange) : List Byte :=
  e.method ++ ascii " /" ++ e.target.path ++ ascii " " ++ e.version ++ crlf ++
    headBytes e.headers ++ e.body

structure Exchange.Valid (e : Exchange) : Prop where
  method : Word e.method
  target : e.target.Valid
  version : Word e.version
  firstLine : e.firstLine.length + 2 < maxLine - 1
  headers : ∀ line ∈ e.headers, Readable line ∧ line ≠ []
  body : Announces e.headers e.body
  resHead : ∀ line ∈ e.resHead, Readable line ∧ line ≠ []
  resBody : Announces e.resHead e.resBody

-- the peers of the exchange: they send its two messages and take what they are sent
structure Carries (w : World) (e : Exchange) : Prop where
  client : w.client.data = e.request
  server : w.server.data = e.response
  connects : w.connects e.target.host (e.target.port.getD (ascii "80")) = true
  serverRoom : e.rewritten.length ≤ w.serverRoom
  clientRoom : e.response.length ≤ w.clientRoom

theorem readable_of_words {s : List Byte} (h : ∀ b ∈ s, isSpace b = false ∧ b ≠ 0 ∨ b = 32)
    (hs : s.length + 2 < maxLine - 1) : Readable s := by
  refine ⟨fun h0 => ?_,fun h10 => ?_,hs⟩
  · obtain ⟨-,hne⟩ | he := h 0 h0
    · exact hne rfl
    · exact absurd he (by decide)
  · obtain ⟨hsp,-⟩ | he := h 10 h10
    · exact absurd hsp (by decide)
    · exact absurd he (by decide)

theorem firstLine_readable (he : e.Valid) : Readable e.firstLine := by
  refine readable_of_words (fun b hb => ?_) he.firstLine
  have hsp : ∀ b ∈ ascii " ", b = 32 := by decide
  simp only [Exchange.firstLine,List.mem_append] at hb
  rcases hb with (((hb | hb) | hb) | hb) | hb
  · exact .inl (he.method.word b hb)
  · exact .inr (hsp b hb)
  · exact .inl (he.target.uri.word b hb)
  · exact .inr (hsp b hb)
  · exact .inl (he.version.word b hb)

theorem requestLine_exchange (he : e.Valid) (hw : Carries w e) :
    ∃ buf, requestLine w = some ⟨e.method,e.target.uri,e.version,
      ⟨e.target.host,e.target.path,e.target.port.getD (ascii "80")⟩,buf,
      ⟨headBytes e.headers ++ e.body,w.client.broken⟩⟩ := by
  have hl := firstLine_readable he
  have hc : w.client = ⟨e.firstLine ++ crlf ++ (headBytes e.headers ++ e.body),w.client.broken⟩ := by
    rw [← List.append_assoc,show e.firstLine ++ crlf ++ headBytes e.headers ++ e.body =
      w.client.data from hw.client.symm]
  obtain ⟨-,hpos,hsrc⟩ := rioReadlineb_line hl w.clientBuf (headBytes e.headers ++ e.body)
    w.client.broken
  obtain ⟨more,hbuf⟩ := rioReadlineb_buf hl w.clientBuf (headBytes e.headers ++ e.body)
    w.client.broken
  rw [← hc] at hpos hsrc hbuf
  have hline : e.firstLine ++ crlf =
      e.method ++ 32 :: (e.target.uri ++ 32 :: (e.version ++ crlf)) := by
    simp [Exchange.firstLine,show ascii " " = [32] by decide]
  have hm : token (e.method ++ 32 :: (e.target.uri ++ 32 :: (e.version ++ crlf))) =
      (e.method,32 :: (e.target.uri ++ 32 :: (e.version ++ crlf))) :=
    token_word he.method (by decide) [] (by simp)
  have hu : token (32 :: (e.target.uri ++ 32 :: (e.version ++ crlf))) =
      (e.target.uri,32 :: (e.version ++ crlf)) :=
    token_word he.target.uri (by decide) [32] (by decide)
  have hv : token (32 :: (e.version ++ crlf)) = (e.version,crlf) :=
    token_word he.version (by decide) [32] (by decide)
  have hres : ¬ (rioReadlineb w.clientBuf w.client).result ≤ 0 := by omega
  have hsome : ¬ (e.method = [] ∨ e.target.uri = [] ∨ e.version = []) := by
    simp [he.method.ne_nil,he.target.uri.ne_nil,he.version.ne_nil]
  have hstr := (cstr_line_crlf hl more).trans hline
  refine ⟨e.firstLine ++ crlf ++ 0 :: more,?_⟩
  simp only [requestLine_eq,hbuf,hsrc,hstr,if_neg hres,hm,hu,hv,if_neg hsome,
    parseUri_uri he.target,Option.map_some]

theorem request_exchange (he : e.Valid) (hw : Carries w e) : ∃ q, requestLine w = some q ∧
    w.connects q.addr.hostname q.addr.port = true ∧ q.uri = e.target.uri ∧
    rewrite q ++ headBytes e.headers ++ e.body = e.rewritten ∧
    (clientHead q).forwarded = headBytes e.headers ∧ (clientHead q).bodysize = e.body.length ∧
    (clientHead q).src.data = e.body := by
  obtain ⟨buf,hq⟩ := requestLine_exchange he hw
  obtain ⟨q,hqe⟩ : ∃ q : Request Source, q = ⟨e.method,e.target.uri,e.version,
      ⟨e.target.host,e.target.path,e.target.port.getD (ascii "80")⟩,buf,
      ⟨headBytes e.headers ++ e.body,w.client.broken⟩⟩ := ⟨_,rfl⟩
  rw [← hqe] at hq
  obtain ⟨-,hf,-,hn,hd,-⟩ := readHead_message buf e.body w.client.broken he.headers he.body
    (h := clientHead q) (by rw [hqe]; rfl)
  refine ⟨q,hq,hqe ▸ hw.connects,hqe ▸ rfl,?_,hf,?_,hd⟩
  · rw [hqe]
    rfl
  · rw [Head.bodysize,hn]
    rfl

theorem doit_exchange (he : e.Valid) (hw : Carries w e) :
    (doit w).head ++ (doit w).body = e.rewritten ∧ (doit w).toClient = e.response ∧
      (doit w).log = some ⟨e.target.uri,toSizeT ((e.response.length : Int).bmod (2 ^ 32))⟩ := by
  obtain ⟨q,hq,hc,huri,hrw,hf,hsize,hd⟩ := request_exchange he hw
  obtain ⟨stale,hstale,hhead,hbody,hres,-⟩ := doit_connected hq hc
  rw [hf] at hhead hbody
  rw [hsize,hd] at hstale hbody
  have hroom := hw.serverRoom
  rw [← hrw,List.length_append] at hroom
  have hnil : stale = [] := List.length_eq_zero_iff.mp (by omega)
  have hfor : Forwarded w q := by
    rw [Forwarded,hf,hsize,hd]
    exact ⟨hroom,le_refl _⟩
  have hserver : w.server = ⟨headBytes e.resHead ++ e.resBody,w.server.broken⟩ := by
    rw [show headBytes e.resHead ++ e.resBody = w.server.data from hw.server.symm]
  obtain ⟨gc,gf,gb,gn,gd,gs⟩ := readHead_message w.serverBuf e.resBody w.server.broken he.resHead
    he.resBody (h := serverHead w) (by rw [serverHead,hserver])
  have gsize : (serverHead w).bodysize = e.resBody.length := by rw [Head.bodysize,gn]; rfl
  have groom := hw.clientRoom
  rw [Exchange.response,List.length_append] at groom
  obtain ⟨more,hmore,hsent,hlog⟩ := response_whole q.uri w (by rw [gf]; omega) gc
  rw [gsize,gd,if_neg (by omega)] at hmore
  rw [List.length_eq_zero_iff.mp hmore,gf,gd,gsize,List.append_nil] at hsent
  rw [gsize,gd,gf,if_pos ⟨by omega,by omega⟩,gn,gs] at hlog
  have h1 : (doit w).toClient = (response q.uri w).1 := congrArg Prod.fst (hres hfor)
  have h2 : (doit w).log = (response q.uri w).2 := congrArg Prod.snd (hres hfor)
  refine ⟨?_,?_,?_⟩
  · rw [hhead,hbody,hnil,List.append_nil,List.take_of_length_le (by omega),
      List.take_of_length_le (by simp only [List.length_take]; omega),List.take_length,hrw]
  · rw [h1,hsent,List.take_of_length_le (by simp only [List.length_take]; omega),List.take_length]
    rfl
  · rw [h2,hlog,huri,intAdd,toInt_bmod,Int.add_bmod_bmod,Exchange.response,List.length_append]
    push_cast
    rw [Int.add_comm]

def Relayed (w : World) (e : Exchange) : Prop :=
  (doit w).head ++ (doit w).body = e.rewritten ∧ (doit w).toClient = e.response ∧
    (doit w).log = some ⟨e.target.uri,e.response.length⟩

-- the ints that add up the size hold it up to 2^31, or where sign extension gives it back
theorem exchange_relayed_iff (he : e.Valid) (hw : Carries w e) :
    Relayed w e ↔ e.response.length < 2 ^ 31 ∨
      2 ^ 64 - 2 ^ 31 ≤ e.response.length ∧ e.response.length < 2 ^ 64 := by
  obtain ⟨hserver,hclient,hlog⟩ := doit_exchange he hw
  have hsize : toSizeT ((e.response.length : Int).bmod (2 ^ 32)) = e.response.length ↔
      e.response.length < 2 ^ 31 ∨
        2 ^ 64 - 2 ^ 31 ≤ e.response.length ∧ e.response.length < 2 ^ 64 := by
    rw [toSizeT,Int.bmod]
    split <;> omega
  rw [← hsize,Relayed,hlog]
  simp [hserver,hclient]

def post : Exchange where
  method := ascii "POST"
  target := ⟨ascii "h",some (ascii "8080"),ascii "p"⟩
  version := ascii "V"
  headers := [ascii "Host: h",ascii "Content-Length: " ++ decimal 3]
  body := ascii "a\x00b"
  resHead := [ascii "V 200 OK"]
  resBody := []

theorem post_valid : post.Valid where
  method := by decide +kernel
  target := ⟨by decide +kernel,fun p hp => Option.some.inj hp ▸ by decide +kernel,by decide +kernel⟩
  version := by decide +kernel
  firstLine := by decide +kernel
  headers := by decide +kernel
  body := .inr ⟨by decide +kernel,by decide +kernel,[ascii "Host: h"],[],by decide +kernel,by decide +kernel⟩
  resHead := by decide +kernel
  resBody := .inl ⟨rfl,by decide +kernel⟩

theorem post_carries : Carries (peers post.request post.response) post where
  client := rfl
  server := rfl
  connects := rfl
  serverRoom := by decide +kernel
  clientRoom := by decide +kernel

theorem exchange_relayed_post : Relayed (peers post.request post.response) post :=
  (exchange_relayed_iff post_valid post_carries).mpr (.inl (by decide))

-- a response of more than 2^31 bytes
def big : Exchange where
  method := ascii "GET"
  target := ⟨ascii "h",none,[]⟩
  version := ascii "V"
  headers := []
  body := []
  resHead := [ascii "V 200 OK",ascii "Content-Length: " ++ decimal 2147483647]
  resBody := List.replicate 2147483647 0

theorem big_length : big.response.length = 2147483687 := by
  have hhead : (headBytes big.resHead).length = 40 := by decide
  rw [Exchange.response,List.length_append,hhead,show big.resBody = List.replicate 2147483647 0 from rfl,
    List.length_replicate]

theorem big_valid : big.Valid where
  method := by decide +kernel
  target := ⟨by decide +kernel,(fun p hp => by cases hp),by decide +kernel⟩
  version := by decide +kernel
  firstLine := by decide +kernel
  headers := by decide +kernel
  body := .inl ⟨rfl,by decide +kernel⟩
  resHead := by decide +kernel
  resBody := by
    have hl : big.resBody.length = 2147483647 := List.length_replicate
    refine .inr ⟨fun h => ?_,by omega,[ascii "V 200 OK"],[],by rw [hl]; rfl,by decide⟩
    rw [h] at hl
    cases hl

theorem big_carries : Carries (peers big.request big.response) big where
  client := rfl
  server := rfl
  connects := rfl
  serverRoom := by decide +kernel
  clientRoom := by
    rw [big_length]
    decide

theorem big_size_wraps :
    (doit (peers big.request big.response)).log = some ⟨ascii "http://h/",18446744071562068007⟩ ∧
      big.response.length = 2147483687 ∧
        ¬ Relayed (peers big.request big.response) big := by
  have hlen := big_length
  have hlog := (doit_exchange big_valid big_carries).2.2
  rw [hlen] at hlog
  have huri : big.target.uri = ascii "http://h/" := by decide
  have hsize : toSizeT ((2147483687 : Int).bmod (2 ^ 32)) = 18446744071562068007 := by decide
  rw [huri,show ((2147483687 : Nat) : Int) = 2147483687 from rfl,hsize] at hlog
  refine ⟨hlog,hlen,fun h => ?_⟩
  have hrel := h.2.2
  rw [hlog,hlen] at hrel
  simp at hrel

end Proxy
