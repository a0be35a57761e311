import IcsLabs.Proxy.Url

namespace Proxy

open Bytes
open Libc (intAdd toInt_bmod)

-- a head from its lines, each given without its CRLF
def headBytes (lines : List (List Byte)) : List Byte := (lines.map (· ++ crlf)).flatten ++ crlf

-- the body size after a header line that is in a buffer with its CRLF
def lineLength (n : Int) (line : List Byte) : Int :=
  if startsWith (ascii "Content-Length") line then atoi ((line ++ crlf).drop 15) else n

variable {buf data rest line : List Byte} {lines : List (List Byte)} {src : Source} {n : Int}

theorem lineLoop_line (broken : Bool) (k : Nat) (line l rest : List Byte) (hl : 10 ∉ l)
    (hk : l.length < k) : lineLoop broken k line (l ++ 10 :: rest) =
      (((line.length + l.length + 1 : Nat) : Int),line ++ l ++ [10],rest) := by
  induction l generalizing line k with
  | nil =>
    obtain ⟨k,rfl⟩ := Nat.exists_eq_succ_of_ne_zero (show k ≠ 0 by simp at hk; omega)
    simp [lineLoop]
  | cons c l ih =>
    obtain ⟨k,rfl⟩ := Nat.exists_eq_succ_of_ne_zero (show k ≠ 0 by simp at hk; omega)
    have hc : c ≠ 10 := fun h => hl (by simp [h])
    rw [List.cons_append,Nat.succ_eq_add_one,lineLoop,if_neg hc,
      ih k (line ++ [c]) (fun h => hl (List.mem_cons_of_mem _ h)) (by simp at hk; omega)]
    simp only [List.length_append,List.length_cons,List.length_nil,List.append_assoc,
      List.cons_append,List.nil_append,Prod.mk.injEq,and_true]
    omega

-- a line short enough for the buffer is read whole
structure Readable (line : List Byte) : Prop where
  nul : 0 ∉ line
  newline : 10 ∉ line
  short : line.length + 2 < maxLine - 1

instance (line : List Byte) : Decidable (Readable line) :=
  decidable_of_iff (0 ∉ line ∧ 10 ∉ line ∧ line.length + 2 < maxLine - 1)
    ⟨fun h => ⟨h.1,h.2.1,h.2.2⟩,fun h => ⟨h.nul,h.newline,h.short⟩⟩

theorem rioReadlineb_line (hl : Readable line) (buf rest : List Byte) (broken : Bool) :
    lineOf ⟨line ++ crlf ++ rest,broken⟩ = line ++ crlf ∧
      (rioReadlineb buf ⟨line ++ crlf ++ rest,broken⟩).result > 0 ∧
        (rioReadlineb buf ⟨line ++ crlf ++ rest,broken⟩).src = ⟨rest,broken⟩ := by
  have hloop := lineLoop_line broken (maxLine - 1) [] (line ++ [13]) rest
    (fun h => (List.mem_append.mp h).elim hl.newline (by decide))
    (by have := hl.short; simp; omega)
  rw [show line ++ [13] ++ 10 :: rest = line ++ crlf ++ rest by simp [crlf]] at hloop
  refine ⟨?_,?_,?_⟩
  · simp only [lineOf,hloop]
    simp [crlf]
  · simp only [rioReadlineb,hloop]
    simp
    omega
  · simp only [rioReadlineb,hloop]

theorem notMem_crlf : (0 : Byte) ∉ crlf := by decide

theorem rioReadlineb_buf (hl : Readable line) (buf rest : List Byte) (broken : Bool) :
    ∃ more, (rioReadlineb buf ⟨line ++ crlf ++ rest,broken⟩).buf = line ++ crlf ++ 0 :: more := by
  obtain ⟨hline,hpos,-⟩ := rioReadlineb_line hl buf rest broken
  obtain ⟨-,-,more,hb⟩ := rioReadlineb_pos hpos
  exact ⟨more,by rw [hb,hline]⟩

theorem cstr_line_crlf (hl : Readable line) (more : List Byte) :
    cstr (line ++ crlf ++ 0 :: more) = line ++ crlf := by
  rw [cstr_line,cstr_of_nulFree]
  rw [List.mem_append]
  rintro (h | h)
  · exact hl.nul h
  · exact notMem_crlf h

-- CR and LF do not complete a field name
theorem startsWith_crlf (t : List Byte) (ht : ∀ b ∈ t, lower b ≠ 13) (hl : Readable line)
    (more : List Byte) : startsWith t (line ++ crlf ++ 0 :: more) = startsWith t line := by
  rw [startsWith,startsWith,cstr_line_crlf hl,cstr_of_nulFree hl.nul]
  by_cases hlen : t.length ≤ line.length
  · rw [List.take_append_of_le_length hlen]
  · have h1 : ((line ++ crlf).take t.length).map lower ≠ t.map lower := by
      intro h
      have hm : (13 : Byte) ∈ ((line ++ crlf).take t.length).map lower := by
        obtain ⟨r,hr⟩ := Nat.exists_eq_add_of_lt (Nat.lt_of_not_le hlen)
        rw [hr,List.take_append,List.mem_map]
        refine ⟨13,List.mem_append.mpr (.inr ?_),by decide⟩
        rw [show line.length + r + 1 - line.length = r + 1 by omega,crlf,List.take_succ_cons]
        exact List.mem_cons_self
      rw [h,List.mem_map] at hm
      obtain ⟨b,hb,h13⟩ := hm
      exact ht b hb h13
    have h2 : (line.take t.length).map lower ≠ t.map lower := by
      intro h
      have hl := congrArg List.length h
      simp only [List.length_map,List.length_take] at hl
      omega
    rw [decide_eq_false h1,decide_eq_false h2]

theorem contentLength_line (hl : Readable line) (more : List Byte) (n : Int) :
    contentLength (line ++ crlf ++ 0 :: more) n = lineLength n line := by
  rw [contentLength,lineLength,startsWith_crlf _ (by decide) hl]
  split
  · rename_i hs
    have hlen : 14 ≤ line.length := by
      by_contra hlt
      have h := congrArg List.length (of_decide_eq_true hs)
      rw [cstr_of_nulFree hl.nul] at h
      simp only [List.length_map,List.length_take] at h
      have h14 : (ascii "Content-Length").length = 14 := by decide
      omega
    rw [List.drop_append_of_le_length (by simp [crlf]; omega),atoi,atoi,cstr_line]
  · rfl

theorem headBytes_cons (line : List Byte) (lines : List (List Byte)) :
    headBytes (line :: lines) = line ++ crlf ++ headBytes lines := by
  simp [headBytes]

theorem readHead_head (k : Nat) (buf rest : List Byte) (broken : Bool) (n : Int)
    (hlines : ∀ line ∈ lines, Readable line ∧ line ≠ []) (hk : lines.length < k) :
    (readHead k buf ⟨headBytes lines ++ rest,broken⟩ n).lines = lines.map (· ++ crlf) ++ [crlf] ∧
      (readHead k buf ⟨headBytes lines ++ rest,broken⟩ n).complete = true ∧
      (readHead k buf ⟨headBytes lines ++ rest,broken⟩ n).announced = lines.foldl lineLength n ∧
      (readHead k buf ⟨headBytes lines ++ rest,broken⟩ n).src = ⟨rest,broken⟩ := by
  induction lines generalizing k buf n with
  | nil =>
    obtain ⟨k,rfl⟩ := Nat.exists_eq_succ_of_ne_zero (show k ≠ 0 by simp at hk; omega)
    have hr : Readable [] := ⟨by simp,by simp,by decide⟩
    obtain ⟨hline,hpos,hsrc⟩ := rioReadlineb_line hr buf rest broken
    obtain ⟨more,hbuf⟩ := rioReadlineb_buf hr buf rest broken
    have hblank := cstr_line_crlf hr more
    have hlen := contentLength_line hr more n
    simp only [List.nil_append] at hline hpos hsrc hbuf hblank hlen
    rw [show headBytes [] ++ rest = crlf ++ rest by simp [headBytes],readHead]
    simp only [if_pos hpos,hbuf,hblank,hlen,hline,hsrc,if_true]
    exact ⟨rfl,trivial,rfl,trivial⟩
  | cons line lines ih =>
    obtain ⟨k,rfl⟩ := Nat.exists_eq_succ_of_ne_zero (show k ≠ 0 by simp at hk; omega)
    obtain ⟨hr,hne⟩ := hlines line (by simp)
    obtain ⟨hline,hpos,hsrc⟩ := rioReadlineb_line hr buf (headBytes lines ++ rest) broken
    obtain ⟨more,hbuf⟩ := rioReadlineb_buf hr buf (headBytes lines ++ rest) broken
    have hblank : cstr (line ++ crlf ++ 0 :: more) ≠ crlf := by
      rw [cstr_line_crlf hr]
      simpa using hne
    rw [headBytes_cons,List.append_assoc (line ++ crlf),readHead]
    simp only [if_pos hpos,hbuf,contentLength_line hr,if_neg hblank,hline,hsrc]
    obtain ⟨h1,h2,h3,h4⟩ := ih k (line ++ crlf ++ 0 :: more) (lineLength n line)
      (fun l hl => hlines l (by simp [hl])) (by simp at hk; omega)
    exact ⟨by rw [h1]; rfl,h2,h3,h4⟩

theorem decimal_codes (m : Nat) : (decimal m).map BitVec.toNat = Libc.digitCodes m := by
  rw [decimal,List.map_map]
  refine (List.map_congr_left fun c hc => ?_).trans (List.map_id _)
  have hlt := Libc.digitCodes_lt hc
  simp only [Function.comp_apply,BitVec.toNat_ofNat,id]
  omega

theorem atoi_decimal {m : Nat} (h0 : 0 < m) (hm : m < 2 ^ 31) :
    atoi (32 :: decimal m ++ crlf) = m := by
  have hcodes : ((32 :: decimal m ++ crlf).map BitVec.toNat) = 32 :: Libc.digitCodes m ++ [13,10] := by
    simp [decimal_codes,crlf]
  have hnul : cstr (32 :: decimal m ++ crlf) = 32 :: decimal m ++ crlf := by
    refine cstr_of_nulFree fun h => ?_
    have hz : 0 ∈ (32 :: decimal m ++ crlf).map BitVec.toNat := List.mem_map.mpr ⟨0,h,rfl⟩
    rw [hcodes] at hz
    simp only [List.cons_append,List.mem_cons,List.mem_append,List.not_mem_nil,or_false] at hz
    rcases hz with h | h | h | h
    · omega
    · have hge := Libc.digitCodes_ge h
      omega
    · omega
    · omega
  rw [atoi,hnul,hcodes]
  exact Libc.atoi_digitCodes h0 hm 32 [13,10] (by decide) (by decide)

-- the body of a message is announced by its only Content-Length line
def Announces (lines : List (List Byte)) (body : List Byte) : Prop :=
  body = [] ∧ (∀ line ∈ lines, startsWith (ascii "Content-Length") line = false) ∨
    body ≠ [] ∧ body.length < 2 ^ 31 ∧ ∃ before after,
      lines = before ++ (ascii "Content-Length: " ++ decimal body.length) :: after ∧
        ∀ line ∈ before ++ after, startsWith (ascii "Content-Length") line = false

theorem foldl_lineLength (lines : List (List Byte)) (n : Int)
    (h : ∀ line ∈ lines, startsWith (ascii "Content-Length") line = false) :
    lines.foldl lineLength n = n := by
  induction lines generalizing n with
  | nil => rfl
  | cons line lines ih =>
    rw [List.foldl_cons,lineLength,h line (by simp)]
    exact ih n fun l hl => h l (by simp [hl])

theorem announced_length {lines : List (List Byte)} {body : List Byte} (h : Announces lines body) :
    lines.foldl lineLength 0 = body.length := by
  obtain ⟨rfl,hno⟩ | ⟨hne,hlt,before,after,rfl,hno⟩ := h
  · exact foldl_lineLength lines 0 hno
  · have hpos := List.length_pos_iff.mpr hne
    have hname : ascii "Content-Length: " = ascii "Content-Length" ++ [58,32] := by decide
    have hnul : 0 ∉ ascii "Content-Length: " ++ decimal body.length := by
      rw [List.mem_append]
      rintro (h | h)
      · exact absurd h (by decide)
      · obtain ⟨c,hc,h0⟩ := List.mem_map.mp h
        have hge := Libc.digitCodes_ge hc
        have hlt := Libc.digitCodes_lt hc
        have hz := congrArg BitVec.toNat h0
        simp at hz
        omega
    have hline : lineLength 0 (ascii "Content-Length: " ++ decimal body.length) = body.length := by
      have hs : startsWith (ascii "Content-Length")
          (ascii "Content-Length: " ++ decimal body.length) = true := by
        rw [startsWith,cstr_of_nulFree hnul,decide_eq_true_eq,hname,List.append_assoc]
        exact congrArg _ (List.take_left' rfl)
      have hd : ((ascii "Content-Length: " ++ decimal body.length) ++ crlf).drop 15 =
          32 :: decimal body.length ++ crlf := by
        rw [List.append_assoc,show ascii "Content-Length: " = ascii "Content-Length:" ++ [32] by decide,
          List.append_assoc]
        exact List.drop_left' rfl
      rw [lineLength,if_pos hs,hd]
      exact atoi_decimal hpos hlt
    rw [List.foldl_append,foldl_lineLength before 0 fun l hl => hno l (by simp [hl]),List.foldl_cons,
      hline,foldl_lineLength after _ fun l hl => hno l (by simp [hl])]

theorem headSize_eq (lines : List (List Byte)) (a : Int) :
    lines.foldl (fun size line => intAdd size line.length) (a.bmod (2 ^ 32)) =
      (a + lines.flatten.length).bmod (2 ^ 32) := by
  induction lines generalizing a with
  | nil => simp
  | cons line lines ih =>
    rw [List.foldl_cons,intAdd,toInt_bmod,Int.bmod_add_bmod,ih,List.flatten_cons,List.length_append]
    congr 1
    push_cast
    omega

theorem headBytes_eq (lines : List (List Byte)) :
    headBytes lines = (lines.map (· ++ crlf) ++ [crlf]).flatten := by
  simp [headBytes]

theorem length_headBytes (lines : List (List Byte)) : lines.length ≤ (headBytes lines).length := by
  induction lines with
  | nil => simp
  | cons line lines ih =>
    rw [headBytes_cons]
    simp only [List.length_cons,List.length_append,crlf]
    omega

theorem nul_notMem_headBytes (h : ∀ line ∈ lines, Readable line ∧ line ≠ []) :
    0 ∉ headBytes lines := by
  rw [headBytes,List.mem_append]
  rintro (h0 | h0)
  · obtain ⟨_,hm,h0⟩ := List.mem_flatten.mp h0
    obtain ⟨line,hl,rfl⟩ := List.mem_map.mp hm
    exact (List.mem_append.mp h0).elim (h line hl).1.nul notMem_crlf
  · exact notMem_crlf h0

theorem readHead_message (buf rest : List Byte) (broken : Bool) {body : List Byte}
    (hlines : ∀ line ∈ lines, Readable line ∧ line ≠ []) (ha : Announces lines body)
    {h : Head} (he : readHead ((headBytes lines ++ rest).length + 1) buf
      ⟨headBytes lines ++ rest,broken⟩ 0 = h) :
    h.complete = true ∧ h.forwarded = headBytes lines ∧ h.bytes = headBytes lines ∧
      h.announced = body.length ∧ h.src.data = rest ∧
        headSize h = ((headBytes lines).length : Int).bmod (2 ^ 32) := by
  have hk : lines.length < (headBytes lines ++ rest).length + 1 := by
    have := length_headBytes lines
    rw [List.length_append]
    omega
  obtain ⟨h1,h2,h3,h4⟩ := readHead_head _ buf rest broken 0 hlines hk
  rw [he] at h1 h2 h3 h4
  have hb : h.bytes = headBytes lines := by rw [Head.bytes,h1,headBytes_eq]
  refine ⟨h2,?_,hb,h3.trans (announced_length ha),by rw [h4],?_⟩
  · rw [forwarded_of_nulFree h (hb ▸ nul_notMem_headBytes hlines),hb]
  · have hs := headSize_eq h.lines 0
    rw [show (0 : Int).bmod (2 ^ 32) = 0 from rfl,Int.zero_add] at hs
    rw [headSize,hs,← hb]
    rfl

theorem headLines_line (line l data : List Byte) (hl : 10 ∉ l) :
    headLines line (l ++ 10 :: data) =
      if line ++ l = [13] then some [crlf]
      else (headLines [] data).map ((line ++ l ++ [10]) :: ·) := by
  induction l generalizing line with
  | nil => simp [headLines]
  | cons c l ih =>
    rw [List.cons_append,headLines,if_neg fun h => hl (by simp [h]),
      ih _ fun h => hl (List.mem_cons_of_mem _ h)]
    simp

theorem headLines_head (hlines : ∀ line ∈ lines, Readable line ∧ line ≠ []) (rest : List Byte) :
    headLines [] (headBytes lines ++ rest) = some (lines.map (· ++ crlf) ++ [crlf]) := by
  induction lines with
  | nil => simp [headBytes,crlf,headLines]
  | cons line lines ih =>
    obtain ⟨hr,hne⟩ := hlines line (by simp)
    rw [headBytes_cons,List.append_assoc,show line ++ crlf ++ (headBytes lines ++ rest) =
      line ++ [13] ++ 10 :: (headBytes lines ++ rest) by simp [crlf],
      headLines_line _ _ _ fun h => (List.mem_append.mp h).elim hr.newline (by decide),
      if_neg (by simpa using hne),ih fun l hl => hlines l (by simp [hl])]
    simp [crlf]

theorem fieldLength_other (n : Nat) (hr : Readable line)
    (h : startsWith (ascii "Content-Length") line = false) : fieldLength n (line ++ crlf) = n := by
  rw [fieldLength,if_neg]
  intro heq
  have hs := startsWith_crlf (ascii "Content-Length") (by decide) hr []
  rw [h,startsWith,cstr_line_crlf hr,decide_eq_false_iff_not] at hs
  have h14 := congrArg (List.take 14) heq
  rw [← List.map_take,List.take_take] at h14
  exact hs h14

theorem fieldLength_decimal (n : Nat) {m : Nat} (hm : 0 < m) :
    fieldLength n (ascii "Content-Length: " ++ decimal m ++ crlf) = m := by
  have hsplit : ascii "Content-Length: " ++ decimal m ++ crlf =
      ascii "Content-Length:" ++ 32 :: (decimal m ++ crlf) := by
    rw [show ascii "Content-Length: " = ascii "Content-Length:" ++ [32] by decide]
    simp
  rw [hsplit,fieldLength,List.take_left' (by decide),if_pos (by decide),List.drop_left' (by decide),
    List.dropWhile_cons_of_pos (by decide)]
  cases hd : Libc.digitCodes m with
  | nil => exact absurd hd (Libc.digitCodes_ne_nil hm)
  | cons d ds =>
    have hblank : (decimal m ++ crlf).dropWhile (fun b => decide (b = 32 ∨ b = 9)) =
        decimal m ++ crlf := by
      have hge : 48 ≤ d := Libc.digitCodes_ge (n := m) (by simp [hd])
      have hlt : d < 58 := Libc.digitCodes_lt (n := m) (by simp [hd])
      rw [decimal,hd,List.map_cons,List.cons_append,List.dropWhile_cons_of_neg]
      rw [decide_eq_true_eq,not_or]
      constructor
      all_goals
        intro h
        have hn := congrArg BitVec.toNat h
        simp at hn
        omega
    rw [hblank,List.map_append,decimal_codes]
    exact Libc.decimal_digitCodes m _ (by decide)

theorem foldl_fieldLength (n : Nat) (hlines : ∀ line ∈ lines, Readable line)
    (h : ∀ line ∈ lines, startsWith (ascii "Content-Length") line = false) :
    (lines.map (· ++ crlf)).foldl fieldLength n = n := by
  induction lines generalizing n with
  | nil => rfl
  | cons line lines ih =>
    rw [List.map_cons,List.foldl_cons,fieldLength_other n (hlines line (by simp)) (h line (by simp))]
    exact ih n (fun l hl => hlines l (by simp [hl])) fun l hl => h l (by simp [hl])

theorem responseLength_message {body : List Byte} (rest : List Byte)
    (hlines : ∀ line ∈ lines, Readable line ∧ line ≠ []) (ha : Announces lines body) :
    responseLength (headBytes lines ++ rest) = some ((headBytes lines).length + body.length) := by
  have hcrlf (n : Nat) : fieldLength n crlf = n := if_neg (by decide)
  rw [responseLength,headLines_head hlines,Option.map_some,← headBytes_eq,List.foldl_append]
  simp only [List.foldl_cons,List.foldl_nil,hcrlf]
  congr 2
  obtain ⟨rfl,hno⟩ | ⟨hne,-,before,after,rfl,hno⟩ := ha
  · exact foldl_fieldLength 0 (fun l hl => (hlines l hl).1) hno
  · rw [List.map_append,List.map_cons,List.foldl_append,List.foldl_cons,
      fieldLength_decimal _ (List.length_pos_iff.mpr hne)]
    exact foldl_fieldLength _ (fun l hl => (hlines l (by simp [hl])).1)
      fun l hl => hno l (by simp [hl])

-- an ordinary response is spoilt only by a cut just before the last byte of its body
theorem responseSafe_message {w : World} {body rest : List Byte}
    (hlines : ∀ line ∈ lines, Readable line ∧ line ≠ []) (ha : Announces lines body)
    (hw : w.server.data = headBytes lines ++ rest) :
    ResponseSafe w ↔ (rest.length + 1 = body.length →
      w.clientRoom ≤ (headBytes lines).length + rest.length) := by
  obtain ⟨hc,hf,hb,hn,hsrc,-⟩ := readHead_message w.serverBuf rest w.server.broken hlines ha
    (h := serverHead w) (by rw [serverHead,← hw])
  have hclean : (serverHead w).clean = headBytes lines := by
    rw [Head.clean,hb,cstr_of_nulFree (nul_notMem_headBytes hlines)]
  have hsize : (serverHead w).bodysize = body.length := by
    rw [Head.bodysize,hn,Int.toNat_natCast]
  simp only [ResponseSafe,hf,hclean,hc,hsrc,hsize,hw,responseLength_message rest hlines ha]
  simp

-- a token of the request line
structure Word (s : List Byte) : Prop where
  ne_nil : s ≠ []
  word : ∀ b ∈ s, isSpace b = false ∧ b ≠ 0

instance (s : List Byte) : Decidable (Word s) :=
  decidable_of_iff (s ≠ [] ∧ ∀ b ∈ s, isSpace b = false ∧ b ≠ 0)
    ⟨fun h => ⟨h.1,h.2⟩,fun h => ⟨h.ne_nil,h.word⟩⟩

theorem token_word {s rest : List Byte} {b : Byte} (hs : Word s) (hb : isSpace b = true)
    (blanks : List Byte) (hblanks : ∀ c ∈ blanks, isSpace c = true) :
    token (blanks ++ (s ++ b :: rest)) = (s,b :: rest) := by
  have hdrop : (blanks ++ (s ++ b :: rest)).dropWhile isSpace = s ++ b :: rest := by
    rw [List.dropWhile_append_of_pos hblanks]
    cases s with
    | nil => exact absurd rfl hs.ne_nil
    | cons c s =>
      rw [List.cons_append,List.dropWhile_cons_of_neg]
      simp [(hs.word c (by simp)).1]
  have hall : ∀ c ∈ s, (!isSpace c) = true := fun c hc => by simp [(hs.word c hc).1]
  simp only [token,hdrop]
  rw [List.takeWhile_append_of_pos hall,List.dropWhile_append_of_pos hall,
    List.takeWhile_cons_of_neg (by simp [hb]),List.dropWhile_cons_of_neg (by simp [hb]),
    List.append_nil]

-- host, port and path of a request, the port optional
structure Target where
  host : List Byte
  port : Option (List Byte)
  path : List Byte

def Target.uri (t : Target) : List Byte :=
  ascii "http://" ++ t.host ++ (t.port.elim [] fun p => 58 :: p) ++ 47 :: t.path

structure Target.Valid (t : Target) : Prop where
  host : ∀ b ∈ t.host, endsHost b = false
  port : ∀ p, t.port = some p → ∀ b ∈ p, isDigit b = true
  uri : Word t.uri

theorem Target.uri_eq (t : Target) : t.uri = formatUri (ascii "http://") t.host t.port (some t.path) := by
  simp [Target.uri,formatUri]

theorem parseUri_uri {t : Target} (ht : t.Valid) :
    parseUri t.uri = some ⟨t.host,t.path,t.port.getD (ascii "80")⟩ := by
  have hnul : 0 ∉ t.uri := fun h => (ht.uri.word 0 h).2 rfl
  rw [t.uri_eq] at hnul ⊢
  rw [parseUri_formatUri (by decide) hnul ht.host ht.port]
  exact if_pos (Or.inr rfl)

end Proxy
