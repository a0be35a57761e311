import IcsLabs.Proxy.Head

namespace Proxy

open Bytes
open Libc (toSizeT intAdd)

variable {w : World} {q : Request Source}

def clientHead (q : Request Source) : Head := readHead (q.src.data.length + 1) q.buf q.src 0

def serverHead (w : World) : Head := readHead (w.server.data.length + 1) w.serverBuf w.server 0

-- the length of the body that a head announces
def Head.bodysize (h : Head) : Nat := h.announced.toNat

theorem nul_notMem_flatten (lines : List (List Byte)) : 0 ∉ (lines.map cstr).flatten := by
  simp only [List.mem_flatten,List.mem_map,not_exists,not_and]
  rintro _ ⟨line,-,rfl⟩
  exact nul_notMem_cstr line

theorem flatten_cstr (lines : List (List Byte)) :
    cstr lines.flatten <+: (lines.map cstr).flatten := by
  induction lines with
  | nil => simp [cstr]
  | cons line lines ih =>
    by_cases hn : 0 ∈ line
    · have he : cstr (line ++ lines.flatten) = cstr line := by
        rw [cstr,List.takeWhile_append,if_neg]
        · rfl
        · intro hlen
          have heq := List.IsPrefix.eq_of_length (List.takeWhile_prefix _) hlen
          exact nul_notMem_cstr line (by rw [cstr,heq]; exact hn)
      simp only [List.flatten_cons,List.map_cons,he]
      exact List.prefix_append _ _
    · have he : cstr (line ++ lines.flatten) = line ++ cstr lines.flatten := by
        rw [cstr,List.takeWhile_append_of_pos]
        · rfl
        · intro b hb
          simp only [decide_eq_true_eq]
          rintro rfl
          exact hn hb
      simp only [List.flatten_cons,List.map_cons,he,cstr_of_nulFree hn]
      exact List.prefix_append_right_inj _ |>.mpr ih

theorem cstr_split (bytes : List Byte) :
    0 ∉ bytes ∧ cstr bytes = bytes ∨ ∃ zs, bytes = cstr bytes ++ 0 :: zs := by
  induction bytes with
  | nil => exact .inl ⟨by simp,rfl⟩
  | cons b bytes ih =>
    by_cases hb : b = 0
    · exact .inr ⟨bytes,by simp [hb,cstr]⟩
    · have he : cstr (b :: bytes) = b :: cstr bytes :=
        List.takeWhile_cons_of_pos (by simpa using hb)
      obtain ⟨hn,heq⟩ | ⟨zs,hz⟩ := ih
      · refine .inl ⟨fun h0 => ?_,by rw [he,heq]⟩
        exact (List.mem_cons.mp h0).elim (fun h => hb h.symm) hn
      · exact .inr ⟨zs,by rw [he,List.cons_append,← hz]⟩

theorem forwarded_of_nulFree (h : Head) (hn : 0 ∉ h.bytes) : h.forwarded = h.bytes := by
  have hlines : ∀ line ∈ h.lines, cstr line = line := fun line hl =>
    cstr_of_nulFree fun h0 => hn (List.mem_flatten.mpr ⟨line,hl,h0⟩)
  rw [Head.forwarded,List.map_congr_left hlines,List.map_id',Head.bytes]

-- the head goes out as far as its first NUL, or past it with a byte that is not there
theorem forwarded_cases (h : Head) : h.forwarded = h.clean ∨
    ∃ x ys zs, x ≠ 0 ∧ h.forwarded = h.clean ++ x :: ys ∧ h.bytes = h.clean ++ 0 :: zs := by
  obtain ⟨more,hmore⟩ := flatten_cstr h.lines
  obtain ⟨hn,heq⟩ | ⟨zs,hz⟩ := cstr_split h.bytes
  · exact .inl ((forwarded_of_nulFree h hn).trans heq.symm)
  · cases more with
    | nil => exact .inl (by rw [Head.forwarded,Head.clean,Head.bytes,← hmore,List.append_nil])
    | cons x ys =>
      refine .inr ⟨x,ys,zs,?_,hmore.symm,hz⟩
      rintro rfl
      exact nul_notMem_flatten h.lines (by rw [← hmore]; simp)

theorem bytes_of_complete {k : Nat} {buf : List Byte} {src : Source} {n : Int}
    (hc : (readHead k buf src n).complete = true)
    (hf : (readHead k buf src n).forwarded = (readHead k buf src n).clean) :
    (readHead k buf src n).forwarded = (readHead k buf src n).bytes := by
  refine forwarded_of_nulFree _ fun hn => ?_
  obtain ⟨lines,hl⟩ := complete_lines hc
  have hn : 0 ∈ lines.flatten := by
    rw [Head.bytes,hl,List.flatten_append,List.mem_append] at hn
    exact hn.resolve_right (by decide)
  have hclean : cstr (lines.flatten ++ crlf) = cstr lines.flatten := by
    obtain ⟨h0,-⟩ | ⟨zs,hz⟩ := cstr_split lines.flatten
    · exact absurd hn h0
    · rw [hz,List.append_assoc,List.cons_append,cstr_line,cstr_line]
  have hle := (flatten_cstr lines).length_le
  have hlen := congrArg List.length hf
  rw [Head.forwarded,Head.clean,Head.bytes,hl,List.map_append,List.flatten_append,
    List.flatten_append,show ([crlf] : List (List Byte)).flatten = crlf from rfl,hclean] at hlen
  simp only [List.length_append] at hlen
  have hcrlf : ([crlf].map cstr).flatten.length = 2 := by decide
  omega

theorem not_prefix_of_ne {c ys zs : List Byte} {x y : Byte} {m : Nat} (hxy : x ≠ y)
    (hm : c.length < m) : ¬ (c ++ x :: ys).take m <+: c ++ y :: zs := by
  obtain ⟨r,rfl⟩ := Nat.exists_eq_add_of_lt hm
  rw [List.take_append,List.take_of_length_le (by omega),show c.length + r + 1 - c.length = r + 1 by omega,
    List.take_succ_cons,List.prefix_append_right_inj]
  intro h
  exact hxy (List.cons_prefix_cons.mp h).1

theorem body_prefix_iff (d stale : List Byte) (m r : Nat) (hs : stale ≠ [] → d.length ≤ m) :
    (d.take m ++ stale).take r <+: d ↔ stale = [] ∨ r ≤ d.length := by
  constructor
  · intro h
    by_contra hne
    rw [not_or] at hne
    have hl := h.length_le
    have hd := hs hne.1
    have hpos := List.length_pos_iff.mpr hne.1
    simp only [List.length_take,List.length_append] at hl
    omega
  · rintro (rfl | hr)
    · rw [List.append_nil]
      exact (List.take_prefix _ _).trans (List.take_prefix _ _)
    · by_cases hst : stale = []
      · rw [hst,List.append_nil]
        exact (List.take_prefix _ _).trans (List.take_prefix _ _)
      · rw [List.take_of_length_le (hs hst),List.take_append_of_le_length hr]
        exact List.take_prefix _ _

theorem response_short (uri : List Byte) (w : World)
    (h : w.clientRoom < (serverHead w).forwarded.length) :
    response uri w = ((serverHead w).forwarded.take w.clientRoom,none) := by
  obtain ⟨hok,hsent⟩ := resHeadLoop_fails _ w.serverBuf w.server ⟨[],w.clientRoom⟩ 0 0 h
  simp only [response_eq,hok,Bool.false_eq_true,if_false,hsent,List.nil_append]
  rfl

theorem response_cut (uri : List Byte) (w : World)
    (h : (serverHead w).forwarded.length ≤ w.clientRoom) (hc : (serverHead w).complete = false) :
    response uri w = ((serverHead w).forwarded,none) := by
  have he := resHeadLoop_fits _ w.serverBuf w.server ⟨[],w.clientRoom⟩ 0 0 h
  rw [show (readHead (w.server.data.length + 1) w.serverBuf w.server 0).complete = false from hc] at he
  simp only [response_eq,he,Bool.false_eq_true,if_false,List.nil_append]
  rfl

def headSize (h : Head) : Int := h.lines.foldl (fun size line => intAdd size line.length) 0

theorem response_whole (uri : List Byte) (w : World)
    (h : (serverHead w).forwarded.length ≤ w.clientRoom) (hc : (serverHead w).complete = true) :
    ∃ stale : List Byte,
      stale.length =
        (if (serverHead w).src.data.length + 1 = (serverHead w).bodysize then 1 else 0) ∧
      (response uri w).1 = (serverHead w).forwarded ++
        ((serverHead w).src.data.take (serverHead w).bodysize ++ stale).take
          (w.clientRoom - (serverHead w).forwarded.length) ∧
      (response uri w).2 =
        if (serverHead w).bodysize ≤ (serverHead w).src.data.length + 1 ∧
            (serverHead w).bodysize ≤ w.clientRoom - (serverHead w).forwarded.length then
          some ⟨uri,toSizeT (intAdd (serverHead w).announced (headSize (serverHead w)))⟩
        else none := by
  have he := resHeadLoop_fits _ w.serverBuf w.server ⟨[],w.clientRoom⟩ 0 0 h
  rw [show (readHead (w.server.data.length + 1) w.serverBuf w.server 0).complete = true from hc] at he
  obtain ⟨stale,hl,hsent,hok⟩ := resBodyLoop_spec (serverHead w).bodysize (serverHead w).buf
    (serverHead w).src ⟨[] ++ (serverHead w).forwarded,w.clientRoom - (serverHead w).forwarded.length⟩
  refine ⟨stale,hl,?_,?_⟩
  all_goals simp only [response_eq,he,if_true]
  · split
    all_goals exact hsent
  · split
    · rename_i hb
      rw [if_pos (hok.mp hb)]
      rfl
    · rename_i hb
      rw [if_neg fun hcond => hb (hok.mpr hcond)]

-- the lines of a head up to the blank one, each with its newline; line: the bytes of the
-- present line so far
def headLines (line : List Byte) : List Byte → Option (List (List Byte))
  | [] => none
  | c :: data =>
    if c = 10 then
      if line = [13] then some [crlf] else (headLines [] data).map ((line ++ [c]) :: ·)
    else headLines (line ++ [c]) data

-- the length of the body after a header line, a decimal number of any size
def fieldLength (n : Nat) (line : List Byte) : Nat :=
  if (line.take 15).map lower = ascii "content-length:" then
    Libc.decimal (((line.drop 15).dropWhile fun b => b = 32 ∨ b = 9).map BitVec.toNat)
  else n

-- how many bytes the response at the start of a stream has by its own head
def responseLength (data : List Byte) : Option Nat :=
  (headLines [] data).map fun lines => lines.flatten.length + lines.foldl fieldLength 0

-- the client gets a prefix of the server's bytes; a log entry follows a whole response only
def ResponseKept (w : World) (sent : List Byte) (log : Option LogEntry) : Prop :=
  sent <+: w.server.data ∧
    (log ≠ none → ∃ n ∈ responseLength w.server.data, n ≤ sent.length)

-- no byte of the head goes out after a NUL; a head that does not have one is not followed by
-- one byte less than doit waits for, nor by a body that is longer than that
def ResponseSafe (w : World) : Prop :=
  (w.clientRoom ≤ (serverHead w).clean.length ∨
      (serverHead w).forwarded = (serverHead w).clean) ∧
    ((serverHead w).forwarded = (serverHead w).clean → (serverHead w).complete = true →
      ((serverHead w).src.data.length + 1 = (serverHead w).bodysize →
        w.clientRoom ≤ (serverHead w).clean.length + (serverHead w).src.data.length) ∧
      ((serverHead w).bodysize ≤ (serverHead w).src.data.length →
        (serverHead w).clean.length + (serverHead w).bodysize ≤ w.clientRoom →
          ∃ n ∈ responseLength w.server.data,
            n ≤ (serverHead w).clean.length + (serverHead w).bodysize))

theorem serverHead_append (w : World) : (serverHead w).bytes ++ (serverHead w).src.data <+: w.server.data :=
  (readHead_append ..).1

theorem clean_start (h : Head) : h.clean <+: h.bytes := List.takeWhile_prefix _

theorem forwarded_start (uri : List Byte) (w : World) :
    (serverHead w).forwarded.take w.clientRoom <+: (response uri w).1 := by
  by_cases hroom : (serverHead w).forwarded.length ≤ w.clientRoom
  · rw [List.take_of_length_le hroom]
    cases hc : (serverHead w).complete with
    | false =>
      exact ⟨[],by rw [response_cut uri w hroom hc,List.append_nil]⟩
    | true =>
      obtain ⟨stale,-,hsent,-⟩ := response_whole uri w hroom hc
      exact hsent ▸ List.prefix_append _ _
  · exact ⟨[],by rw [response_short uri w (by omega),List.append_nil]⟩

theorem response_kept_clean (uri : List Byte) (w : World)
    (hT : (serverHead w).forwarded = (serverHead w).clean)
    (hroom : (serverHead w).forwarded.length ≤ w.clientRoom)
    (hc : (serverHead w).complete = true) :
    ResponseKept w (response uri w).1 (response uri w).2 ↔
      ((serverHead w).src.data.length + 1 = (serverHead w).bodysize →
          w.clientRoom ≤ (serverHead w).forwarded.length + (serverHead w).src.data.length) ∧
        ((serverHead w).bodysize ≤ (serverHead w).src.data.length →
          (serverHead w).forwarded.length + (serverHead w).bodysize ≤ w.clientRoom →
            ∃ n ∈ responseLength w.server.data,
              n ≤ (serverHead w).forwarded.length + (serverHead w).bodysize) := by
  obtain ⟨stale,hstale,hsent,hlog⟩ := response_whole uri w hroom hc
  have hbytes : (serverHead w).forwarded = (serverHead w).bytes := bytes_of_complete hc hT
  have hdata : (serverHead w).bytes ++ (serverHead w).src.data = w.server.data :=
    (readHead_append (w.server.data.length + 1) w.serverBuf w.server 0).2.1 hc
  have hnil : stale = [] ↔ (serverHead w).src.data.length + 1 ≠ (serverHead w).bodysize := by
    rw [← List.length_eq_zero_iff,hstale]
    split <;> simp_all
  have hbody := body_prefix_iff (serverHead w).src.data stale (serverHead w).bodysize
    (w.clientRoom - (serverHead w).forwarded.length)
    (fun hne => by have := mt hnil.mpr hne; omega)
  have hpre : (response uri w).1 <+: w.server.data ↔
      ((serverHead w).src.data.length + 1 = (serverHead w).bodysize →
        w.clientRoom ≤ (serverHead w).forwarded.length + (serverHead w).src.data.length) := by
    rw [hsent,← hdata,← hbytes,List.prefix_append_right_inj,hbody,hnil]
    omega
  rw [ResponseKept,hpre]
  refine and_congr_right fun hsafe => ?_
  have hlogged : (response uri w).2 ≠ none ↔
      (serverHead w).bodysize ≤ (serverHead w).src.data.length ∧
        (serverHead w).forwarded.length + (serverHead w).bodysize ≤ w.clientRoom := by
    rw [hlog]
    split
    · simp only [ne_eq,reduceCtorEq,not_false_eq_true,true_iff]
      omega
    · simp only [ne_eq,not_true,false_iff]
      omega
  -- a logged response went out with just the body that doit waited for
  have hlen (hl : (serverHead w).bodysize ≤ (serverHead w).src.data.length ∧
      (serverHead w).forwarded.length + (serverHead w).bodysize ≤ w.clientRoom) :
      (response uri w).1.length = (serverHead w).forwarded.length + (serverHead w).bodysize := by
    rw [hsent,hnil.mpr (by omega)]
    simp only [List.append_nil,List.length_append,List.length_take]
    omega
  rw [hlogged]
  constructor
  · intro h h1 h2
    exact hlen ⟨h1,h2⟩ ▸ h ⟨h1,h2⟩
  · rintro h hl
    exact hlen hl ▸ h hl.1 hl.2

theorem response_kept_iff (uri : List Byte) (w : World) :
    ResponseKept w (response uri w).1 (response uri w).2 ↔ ResponseSafe w := by
  have hdata := serverHead_append w
  have hclean := (clean_start (serverHead w)).trans ((List.prefix_append _ _).trans hdata)
  obtain hT | ⟨x,ys,zs,hx,hf,hb⟩ := forwarded_cases (serverHead w)
  · simp only [ResponseSafe,hT,or_true,true_and,true_implies]
    by_cases hroom : (serverHead w).forwarded.length ≤ w.clientRoom
    · cases hc : (serverHead w).complete with
      | false =>
        rw [response_cut uri w hroom hc]
        exact iff_of_true ⟨hT ▸ hclean,fun h => absurd rfl h⟩ fun h => by simp at h
      | true =>
        rw [response_kept_clean uri w hT hroom hc,← hT]
        simp only [true_implies]
    · rw [response_short uri w (by omega)]
      rw [hT] at hroom ⊢
      exact iff_of_true ⟨(List.take_prefix _ _).trans hclean,fun h => absurd rfl h⟩
        fun _ => ⟨by omega,by omega⟩
  · have hlen := congrArg List.length hf
    simp only [List.length_append,List.length_cons] at hlen
    have hne : (serverHead w).forwarded ≠ (serverHead w).clean := fun h => by
      rw [h] at hlen
      omega
    simp only [ResponseSafe,hne,or_false,false_implies,and_true]
    by_cases hroom : w.clientRoom ≤ (serverHead w).clean.length
    · rw [response_short uri w (by omega),hf,List.take_append_of_le_length hroom]
      exact iff_of_true ⟨(List.take_prefix _ _).trans hclean,fun h => absurd rfl h⟩ hroom
    · refine iff_of_false (fun h => ?_) hroom
      obtain ⟨rest,hrest⟩ := hdata
      have hpre := (forwarded_start uri w).trans h.1
      rw [← hrest,hf,hb,List.append_assoc,List.append_assoc,List.cons_append] at hpre
      exact not_prefix_of_ne hx (by omega) hpre

theorem doit_unconnected (h : requestLine w = some q)
    (hc : w.connects q.addr.hostname q.addr.port = false) : doit w = ⟨[],[],[],none⟩ := by
  simp [doit_some h,hc]

-- doit goes on to the response: the request got out whole
def Forwarded (w : World) (q : Request Source) : Prop :=
  (rewrite q ++ (clientHead q).forwarded).length + (clientHead q).bodysize ≤ w.serverRoom ∧
    (clientHead q).bodysize ≤ (clientHead q).src.data.length

theorem doit_connected (h : requestLine w = some q)
    (hc : w.connects q.addr.hostname q.addr.port = true) :
    ∃ stale : List Byte,
      stale.length = (clientHead q).bodysize - 1 - (clientHead q).src.data.length ∧
      (doit w).head = (rewrite q ++ (clientHead q).forwarded).take w.serverRoom ∧
      (doit w).body = ((clientHead q).src.data.take (clientHead q).bodysize ++ stale).take
        (w.serverRoom - (rewrite q ++ (clientHead q).forwarded).length) ∧
      (Forwarded w q → ((doit w).toClient,(doit w).log) = response q.uri w) ∧
      (¬ Forwarded w q → ((doit w).toClient,(doit w).log) = ([],none)) := by
  have hloop := reqHeadLoop_eq (q.src.data.length + 1) q.buf q.src (rewrite q) 0
  change _ = (⟨(clientHead q).buf,(clientHead q).src,rewrite q ++ (clientHead q).forwarded,
    (clientHead q).announced⟩ : ReqHead Source) at hloop
  by_cases hroom : (rewrite q ++ (clientHead q).forwarded).length ≤ w.serverRoom
  · obtain ⟨stale,hl,hsent,hok⟩ := reqBodyLoop_spec (clientHead q).bodysize (clientHead q).buf
      (clientHead q).src ⟨[],w.serverRoom - (rewrite q ++ (clientHead q).forwarded).length⟩
    have hw := rioWriten_fits (rewrite q ++ (clientHead q).forwarded)
      ⟨[],w.serverRoom⟩ hroom
    have hfor : Forwarded w q ↔ (clientHead q).bodysize ≤ (clientHead q).src.data.length ∧
        (clientHead q).bodysize ≤
          w.serverRoom - (rewrite q ++ (clientHead q).forwarded).length := by
      unfold Forwarded
      omega
    rw [← hfor] at hok
    refine ⟨stale,hl,?_,?_,fun hf => ?_,fun hf => ?_⟩
    all_goals simp only [doit_some h,hc,hloop,hw,Bool.not_true,Bool.false_eq_true,if_false,ne_eq,not_true]
    · split <;> rw [List.take_of_length_le hroom] <;> rfl
    · split <;> exact hsent
    · rw [if_pos (show (reqBodyLoop (clientHead q).announced.toNat _ _ _).1 = true from hok.mpr hf)]
    · rw [if_neg (show ¬ (reqBodyLoop (clientHead q).announced.toNat _ _ _).1 = true from mt hok.mp hf)]
  · have hw := rioWriten_fails (rewrite q ++ (clientHead q).forwarded)
      ⟨[],w.serverRoom⟩ (by simp only; omega)
    have hne : ((-1 : Int) ≠ (rewrite q ++ (clientHead q).forwarded).length) := by omega
    refine ⟨List.replicate ((clientHead q).bodysize - 1 - (clientHead q).src.data.length) 0,
      by simp,?_,?_,fun hf => absurd hf.1 (by omega),fun hf => ?_⟩
    all_goals simp only [doit_some h,hc,hloop,hw,Bool.not_true,Bool.false_eq_true,if_false,hne,
      ne_eq,not_false_eq_true,if_true]
    · rfl
    · rw [show w.serverRoom - (rewrite q ++ (clientHead q).forwarded).length = 0 by omega,
        List.take_zero]

-- the exchange gets to the response
def Reaches (w : World) : Prop :=
  ∃ q, requestLine w = some q ∧ w.connects q.addr.hostname q.addr.port = true ∧ Forwarded w q

theorem response_kept_nil (w : World) : ResponseKept w [] none :=
  ⟨List.nil_prefix,fun h => absurd rfl h⟩

-- the server gets a prefix of the rewritten request line and what the client sent after its
-- own, and as body bytes only body bytes of the client
def RequestKept (w : World) (o : Outcome) : Prop :=
  match requestLine w with
  | none => o.head = [] ∧ o.body = []
  | some q =>
    o.head ++ o.body <+: rewrite q ++ q.src.data ∧ o.body <+: (clientHead q).src.data

-- at most the last byte of the body is missing (as long as the int that doit's atoi makes), and
-- no byte of the head goes out after a NUL
def RequestSafe (w : World) : Prop :=
  ∀ q, requestLine w = some q → w.connects q.addr.hostname q.addr.port = true →
    w.serverRoom ≤ (rewrite q).length + (clientHead q).clean.length ∨
      (clientHead q).forwarded = (clientHead q).clean ∧
        ((clientHead q).bodysize ≤ (clientHead q).src.data.length + 1 ∨
          w.serverRoom ≤
            (rewrite q).length + (clientHead q).clean.length + (clientHead q).src.data.length)

theorem clean_append_prefix (q : Request Source) (hT : (clientHead q).forwarded = (clientHead q).clean)
    {body : List Byte} (hb : body <+: (clientHead q).src.data) :
    (clientHead q).forwarded ++ body <+: q.src.data := by
  have hread := readHead_append (q.src.data.length + 1) q.buf q.src 0
  cases hc : (clientHead q).complete with
  | true =>
    rw [show (clientHead q).forwarded = (clientHead q).bytes from bytes_of_complete hc hT]
    exact (List.prefix_append_right_inj _ |>.mpr hb).trans hread.1
  | false =>
    have hnil : (clientHead q).src.data = [] := hread.2.2 (by omega) hc
    rw [hnil,List.prefix_nil] at hb
    rw [hb,List.append_nil,hT]
    exact (clean_start _).trans ((List.prefix_append _ _).trans hread.1)

theorem request_kept_clean (hq : requestLine w = some q)
    (hc : w.connects q.addr.hostname q.addr.port = true)
    (hT : (clientHead q).forwarded = (clientHead q).clean) :
    RequestKept w (doit w) ↔
      ((clientHead q).bodysize ≤ (clientHead q).src.data.length + 1 ∨
        w.serverRoom ≤
          (rewrite q).length + (clientHead q).clean.length + (clientHead q).src.data.length) := by
  obtain ⟨stale,hstale,hhead,hbody,-,-⟩ := doit_connected hq hc
  have hnil : stale = [] ↔ (clientHead q).bodysize ≤ (clientHead q).src.data.length + 1 := by
    rw [← List.length_eq_zero_iff,hstale]
    omega
  have hiff := body_prefix_iff (clientHead q).src.data stale (clientHead q).bodysize
    (w.serverRoom - (rewrite q ++ (clientHead q).forwarded).length)
    (fun hne => by have := mt hnil.mpr hne; omega)
  simp only [RequestKept,hq]
  rw [hbody,hhead,hiff,hnil,← hT]
  simp only [List.length_append]
  constructor
  · rintro ⟨-,h⟩
    omega
  · intro h
    have hcond : (clientHead q).bodysize ≤ (clientHead q).src.data.length + 1 ∨
        w.serverRoom - ((rewrite q).length + (clientHead q).forwarded.length) ≤
          (clientHead q).src.data.length := by
      omega
    refine ⟨?_,hcond⟩
    rw [← List.length_append,← hnil,← hiff] at hcond
    have hpre := clean_append_prefix q hT hcond
    by_cases hroom : (rewrite q ++ (clientHead q).forwarded).length ≤ w.serverRoom
    · rw [List.take_of_length_le hroom,List.append_assoc,List.prefix_append_right_inj]
      simpa only [List.length_append] using hpre
    · rw [show w.serverRoom - ((rewrite q).length + (clientHead q).forwarded.length) = 0 by
        simp only [List.length_append] at hroom; omega,List.take_zero,List.append_nil]
      refine (List.take_prefix _ _).trans (List.prefix_append_right_inj _ |>.mpr ?_)
      exact (List.prefix_append _ _).trans hpre

theorem no_invented_request (w : World) : RequestKept w (doit w) ↔ RequestSafe w := by
  cases hq : requestLine w with
  | none =>
    refine iff_of_true ?_ fun q h => by simp [hq] at h
    simp [RequestKept,hq,doit_none hq]
  | some q =>
    have hsafe : RequestSafe w ↔ (w.connects q.addr.hostname q.addr.port = true →
        w.serverRoom ≤ (rewrite q).length + (clientHead q).clean.length ∨
          (clientHead q).forwarded = (clientHead q).clean ∧
            ((clientHead q).bodysize ≤ (clientHead q).src.data.length + 1 ∨
              w.serverRoom ≤ (rewrite q).length + (clientHead q).clean.length +
                (clientHead q).src.data.length)) := by
      constructor
      · exact fun h => h q hq
      · intro h q' hq'
        obtain rfl := Option.some.inj (hq.symm.trans hq')
        exact h
    rw [hsafe]
    cases hc : w.connects q.addr.hostname q.addr.port with
    | false =>
      refine iff_of_true ?_ fun h => by simp at h
      simp [RequestKept,hq,doit_unconnected hq hc]
    | true =>
      obtain hT | ⟨x,ys,zs,hx,hf,hb⟩ := forwarded_cases (clientHead q)
      · rw [request_kept_clean hq hc hT]
        simp only [hT,true_and,true_implies]
        omega
      · have hlen := congrArg List.length hf
        simp only [List.length_append,List.length_cons] at hlen
        obtain ⟨stale,hstale,hhead,hbody,-,-⟩ := doit_connected hq hc
        obtain ⟨rest,hrest⟩ := (readHead_append (q.src.data.length + 1) q.buf q.src 0).1
        have hrest : (clientHead q).bytes ++ (clientHead q).src.data ++ rest = q.src.data := hrest
        simp only [RequestKept,hq,true_implies]
        by_cases hroom : w.serverRoom ≤ (rewrite q).length + (clientHead q).clean.length
        · refine iff_of_true ⟨?_,?_⟩ (.inl hroom)
          all_goals rw [hbody,show w.serverRoom -
            (rewrite q ++ (clientHead q).forwarded).length = 0 by
              simp only [List.length_append]; omega,List.take_zero]
          · rw [hhead,List.append_nil,hf,← List.append_assoc,
              List.take_append_of_le_length (by simpa using hroom)]
            refine (List.take_prefix _ _).trans (List.prefix_append_right_inj _ |>.mpr ?_)
            rw [← hrest,hb,List.append_assoc,List.append_assoc]
            exact List.prefix_append _ _
          · exact List.nil_prefix
        · refine iff_of_false (fun h => ?_) ?_
          · have hpre := (List.prefix_append _ _).trans h.1
            rw [hhead,hf,← hrest,hb,List.append_assoc,List.append_assoc,← List.append_assoc,
              ← List.append_assoc (rewrite q),List.cons_append] at hpre
            exact not_prefix_of_ne hx (by simp only [List.length_append]; omega) hpre
          · rintro (h | ⟨h,-⟩)
            · exact hroom h
            · rw [h] at hlen
              omega

instance (w : World) (o : Outcome) : Decidable (RequestKept w o) := by
  unfold RequestKept
  split <;> infer_instance

instance (w : World) (sent : List Byte) (log : Option LogEntry) :
    Decidable (ResponseKept w sent log) :=
  inferInstanceAs (Decidable (_ ∧ _))

-- two peers that take whatever they are sent
def peers (client server : List Byte) : World where
  client := ⟨client,false⟩
  server := ⟨server,false⟩
  connects := fun _ _ => true
  clientRoom := 2 ^ 32
  serverRoom := 2 ^ 32
  clientBuf := List.replicate maxLine 0
  serverBuf := List.replicate maxLine 0

-- three of the five body bytes never come: two are made up
def cutRequest : World := peers (ascii "POST http://h/ V\r\nContent-Length: 5\r\n\r\nab") []

theorem cut_request_padded : (doit cutRequest).body = ascii "abbb" ∧
    ¬ RequestKept cutRequest (doit cutRequest) := by
  decide +kernel

-- the last of the five body bytes never comes: it is made up, and the exchange is logged
def cutResponse : World :=
  peers (ascii "GET http://h/ V\r\n\r\n") (ascii "V 200 OK\r\nContent-Length: 5\r\n\r\nabcd")

-- a length that fits no int: doit waits for two bytes only
example :
    let w := peers (ascii "GET http://h/ V\r\n\r\n")
      (ascii "V 200 OK\r\nContent-Length: 4294967298\r\n\r\nab")
    (doit w).log = some ⟨ascii "http://h/",42⟩ ∧ ¬ ResponseKept w (doit w).toClient (doit w).log := by
  decide +kernel

end Proxy
