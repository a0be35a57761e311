import IcsLabs.Proxy.Relay

namespace Proxy

open Bytes
open Libc (intAdd)

-- a head as rio_readlineb delivers it, up to the blank line if there is one; announced: the
-- number that the last Content-Length line gives; src: what follows the head
structure Head where
  lines : List (List Byte)
  complete : Bool
  announced : Int
  buf : List Byte
  src : Source

def readHead : Nat → List Byte → Source → Int → Head
  | 0,buf,src,n => ⟨[],false,n,buf,src⟩
  | k + 1,buf,src,n =>
    let r := rioReadlineb buf src
    if r.result > 0 then
      let n := contentLength r.buf n
      if cstr r.buf = crlf then ⟨[lineOf src],true,n,r.buf,r.src⟩
      else
        let h := readHead k r.buf r.src n
        { h with lines := lineOf src :: h.lines }
    else ⟨[],false,n,r.buf,r.src⟩

def Head.bytes (h : Head) : List Byte := h.lines.flatten

-- what the loops pass on: of each line the bytes before its first NUL
def Head.forwarded (h : Head) : List Byte := (h.lines.map cstr).flatten

-- the bytes of a head before its first NUL
def Head.clean (h : Head) : List Byte := cstr h.bytes

variable {k : Nat} {n : Int} {buf request : List Byte} {src : Source} {sink : Sink} {h : Head}

theorem cstr_lineOf (h : (rioReadlineb buf src).result > 0) :
    cstr (rioReadlineb buf src).buf = cstr (lineOf src) := by
  obtain ⟨-,-,rest,hb⟩ := rioReadlineb_pos h
  rw [hb,cstr_line]

theorem readHead_append (k : Nat) (buf : List Byte) (src : Source) (n : Int) :
    (readHead k buf src n).bytes ++ (readHead k buf src n).src.data <+: src.data ∧
      ((readHead k buf src n).complete = true →
        (readHead k buf src n).bytes ++ (readHead k buf src n).src.data = src.data) ∧
      (src.data.length < k → (readHead k buf src n).complete = false →
        (readHead k buf src n).src.data = []) := by
  induction k generalizing buf src n with
  | zero => exact ⟨by simp [readHead,Head.bytes],by simp [readHead],by simp⟩
  | succ k ih =>
    have happ := rioReadlineb_append buf src
    rw [readHead]
    by_cases hr : (rioReadlineb buf src).result > 0
    · simp only [if_pos hr]
      obtain ⟨-,hlen,-⟩ := rioReadlineb_pos hr
      by_cases hblank : cstr (rioReadlineb buf src).buf = crlf
      · simp only [if_pos hblank]
        exact ⟨by simp [Head.bytes,happ],fun _ => by simp [Head.bytes,happ],fun _ h => by simp at h⟩
      · simp only [if_neg hblank]
        obtain ⟨hpre,heq,hend⟩ := ih (rioReadlineb buf src).buf (rioReadlineb buf src).src
          (contentLength (rioReadlineb buf src).buf n)
        simp only [Head.bytes,List.flatten_cons,List.append_assoc] at hpre heq ⊢
        refine ⟨?_,fun hc => ?_,fun hk hc => hend ?_ hc⟩
        · obtain ⟨rest,hrest⟩ := hpre
          exact ⟨rest,by rw [List.append_assoc,hrest,happ]⟩
        · rw [heq hc,happ]
        · have hl := congrArg List.length happ
          rw [List.length_append] at hl
          omega
    · simp only [if_neg hr]
      have hnil := rioReadlineb_end hr
      simp [Head.bytes,hnil]

theorem complete_lines (hc : (readHead k buf src n).complete = true) :
    ∃ lines, (readHead k buf src n).lines = lines ++ [crlf] := by
  induction k generalizing buf src n with
  | zero => simp [readHead] at hc
  | succ k ih =>
    rw [readHead] at hc ⊢
    by_cases hr : (rioReadlineb buf src).result > 0
    · simp only [if_pos hr] at hc ⊢
      by_cases hblank : cstr (rioReadlineb buf src).buf = crlf
      · simp only [if_pos hblank]
        exact ⟨[],by rw [lineOf_blank (cstr_lineOf hr ▸ hblank),List.nil_append]⟩
      · simp only [if_neg hblank] at hc ⊢
        obtain ⟨lines,hl⟩ := ih hc
        exact ⟨lineOf src :: lines,by rw [hl,List.cons_append]⟩
    · simp [if_neg hr] at hc

theorem reqHeadLoop_eq (k : Nat) (buf : List Byte) (src : Source) (request : List Byte) (n : Int) :
    reqHeadLoop k ⟨buf,src,request,n⟩ =
      ⟨(readHead k buf src n).buf,(readHead k buf src n).src,
        request ++ (readHead k buf src n).forwarded,(readHead k buf src n).announced⟩ := by
  induction k generalizing buf src request n with
  | zero => simp [readHead,Head.forwarded]
  | succ k ih =>
    rw [reqHeadLoop_succ,readHead]
    by_cases hr : (rioReadlineb buf src).result > 0
    · simp only [if_pos hr]
      by_cases hblank : cstr (rioReadlineb buf src).buf = crlf
      · simp only [if_pos hblank]
        simp [Head.forwarded,cstr_lineOf hr]
      · simp only [if_neg hblank,ih]
        simp [Head.forwarded,cstr_lineOf hr]
    · simp [if_neg hr,Head.forwarded]

theorem resHeadLoop_fits (k : Nat) (buf : List Byte) (src : Source) (sink : Sink) (n size : Int)
    (h : (readHead k buf src n).forwarded.length ≤ sink.room) :
    resHeadLoop k ⟨buf,src,sink,n,size⟩ =
      ((readHead k buf src n).complete,⟨(readHead k buf src n).buf,(readHead k buf src n).src,
        ⟨sink.sent ++ (readHead k buf src n).forwarded,
          sink.room - (readHead k buf src n).forwarded.length⟩,
        (readHead k buf src n).announced,
        (readHead k buf src n).lines.foldl (fun size line => intAdd size line.length) size⟩) := by
  induction k generalizing buf src sink n size with
  | zero => simp [readHead,Head.forwarded]
  | succ k ih =>
    rw [readHead] at h
    rw [resHeadLoop_succ,readHead]
    by_cases hr : (rioReadlineb buf src).result > 0
    · simp only [if_pos hr] at h ⊢
      obtain ⟨hlen,-,-⟩ := rioReadlineb_pos hr
      by_cases hblank : cstr (rioReadlineb buf src).buf = crlf
      · simp only [if_pos hblank,Head.forwarded,List.map_cons,List.map_nil,List.flatten_cons,
          List.flatten_nil,List.append_nil,← cstr_lineOf hr] at h ⊢
        rw [rioWriten_fits _ _ h]
        simp [hlen]
      · simp only [if_neg hblank,Head.forwarded,List.map_cons,List.flatten_cons,
          ← cstr_lineOf hr,List.length_append] at h ⊢
        rw [rioWriten_fits _ _ (by omega)]
        simp only [ne_eq,not_true,if_false]
        rw [ih _ _ _ _ _ (by simp only [Head.forwarded]; omega)]
        simp [hlen,Head.forwarded,Nat.sub_sub]
    · simp [if_neg hr,Head.forwarded]

theorem resHeadLoop_fails (k : Nat) (buf : List Byte) (src : Source) (sink : Sink) (n size : Int)
    (h : sink.room < (readHead k buf src n).forwarded.length) :
    (resHeadLoop k ⟨buf,src,sink,n,size⟩).1 = false ∧
      (resHeadLoop k ⟨buf,src,sink,n,size⟩).2.sink.sent =
        sink.sent ++ (readHead k buf src n).forwarded.take sink.room := by
  induction k generalizing buf src sink n size with
  | zero => simp [readHead,Head.forwarded] at h
  | succ k ih =>
    rw [readHead] at h
    rw [resHeadLoop_succ,readHead]
    by_cases hr : (rioReadlineb buf src).result > 0
    · simp only [if_pos hr] at h ⊢
      by_cases hw : (cstr (rioReadlineb buf src).buf).length ≤ sink.room
      · by_cases hblank : cstr (rioReadlineb buf src).buf = crlf
        · simp only [if_pos hblank,Head.forwarded,List.map_cons,List.map_nil,List.flatten_cons,
            List.flatten_nil,List.append_nil,← cstr_lineOf hr] at h
          omega
        · simp only [if_neg hblank,Head.forwarded,List.map_cons,List.flatten_cons,
            ← cstr_lineOf hr,List.length_append] at h ⊢
          rw [rioWriten_fits _ _ hw]
          simp only [ne_eq,not_true,if_false]
          obtain ⟨hok,hsent⟩ := ih (rioReadlineb buf src).buf (rioReadlineb buf src).src
            ⟨sink.sent ++ cstr (rioReadlineb buf src).buf,
              sink.room - (cstr (rioReadlineb buf src).buf).length⟩
            (contentLength (rioReadlineb buf src).buf n)
            (intAdd size (rioReadlineb buf src).result) (by simp only [Head.forwarded]; omega)
          refine ⟨hok,hsent.trans ?_⟩
          rw [List.take_append,List.take_of_length_le hw,List.append_assoc,Head.forwarded]
      · rw [rioWriten_fails _ _ (by omega)]
        have hne : ((-1 : Int) ≠ (cstr (rioReadlineb buf src).buf).length) := by omega
        simp only [if_pos hne,true_and]
        split
        · simp [Head.forwarded,← cstr_lineOf hr]
        · simp only [Head.forwarded,List.map_cons,List.flatten_cons,← cstr_lineOf hr]
          rw [List.take_append_of_le_length (by omega)]
    · simp [if_neg hr,Head.forwarded] at h

end Proxy
