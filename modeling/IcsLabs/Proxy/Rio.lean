import IcsLabs.Proxy.Observed
import IcsLabs.Proxy.Relay

namespace Proxy
namespace Rio

open Bytes

-- what the kernel makes of one read or write: a count of at most k + 1 bytes, or EINTR
inductive Event where
  | short (k : Nat)
  | interrupted

-- a descriptor to read: what its peer sends and the events to come; after them every count is full
structure InFd where
  src : Source
  sched : List Event

structure OutFd where
  sink : Sink
  sched : List Event

inductive Reply where
  | bytes (l : List Byte)
  | eintr
  | failed

-- up to n bytes now; no byte is the end of file
def deliver (n : Nat) (src : Source) : Reply × Source :=
  if src.data = [] then (if src.broken then .failed else .bytes [],src)
  else (.bytes (src.data.take n),⟨src.data.drop n,src.broken⟩)

def sysRead (n : Nat) (fd : InFd) : Reply × InFd :=
  match fd.sched with
  | .interrupted :: sched => (.eintr,⟨fd.src,sched⟩)
  | .short k :: sched => ((deliver (min n (k + 1)) fd.src).1,⟨(deliver (min n (k + 1)) fd.src).2,sched⟩)
  | [] => ((deliver n fd.src).1,⟨(deliver n fd.src).2,[]⟩)

-- how many of the bytes a peer takes now; none: the write fails
def accept (n : Nat) (bytes : List Byte) (sink : Sink) : Option Nat × Sink :=
  if sink.room = 0 then (none,sink)
  else
    let taken := bytes.take (min n sink.room)
    (some taken.length,⟨sink.sent ++ taken,sink.room - taken.length⟩)

-- none: EINTR
def sysWrite (bytes : List Byte) (fd : OutFd) : Option (Option Nat) × OutFd :=
  match fd.sched with
  | .interrupted :: sched => (none,⟨fd.sink,sched⟩)
  | .short k :: sched => (some (accept (k + 1) bytes fd.sink).1,⟨(accept (k + 1) bytes fd.sink).2,sched⟩)
  | [] => (some (accept bytes.length bytes fd.sink).1,⟨(accept bytes.length bytes fd.sink).2,[]⟩)

def rioBufsize : Nat := 8192

structure RioT where
  fd : InFd
  cnt : Int
  bufptr : Nat
  buf : List Byte

-- the bytes of buf are what the memory holds
def rioReadinitb (buf : List Byte) (fd : InFd) : RioT := ⟨fd,0,0,buf⟩

-- the loop of rio_read with at most n turns; some: rio_read returns that
def refill : Nat → RioT → Option Int × RioT
  | 0,rp => (none,rp)
  | n + 1,rp =>
    if rp.cnt > 0 then (none,rp)
    else
      let r := sysRead rioBufsize rp.fd
      match r.1 with
      | .eintr => refill n { rp with fd := r.2, cnt := -1 }
      | .failed => (some (-1),{ rp with fd := r.2, cnt := -1 })
      | .bytes [] => (some 0,{ rp with fd := r.2, cnt := 0 })
      | .bytes (b :: l) =>
        refill n ⟨r.2,(b :: l).length,0,(b :: l) ++ rp.buf.drop (b :: l).length⟩

-- the value returned, the bytes copied to the user buffer, the state left
def rioRead (n : Nat) (rp : RioT) : Int × List Byte × RioT :=
  let f := refill (rp.fd.sched.length + 2) rp
  match f.1 with
  | some r => (r,[],f.2)
  | none =>
    let rp := f.2
    let cnt : Int := if rp.cnt < n then rp.cnt else n
    (cnt,(rp.buf.drop rp.bufptr).take cnt.toNat,
      { rp with bufptr := rp.bufptr + cnt.toNat, cnt := rp.cnt - cnt })

-- the loop of rio_readlineb with k turns left, as lineLoop
def lineTurns : Nat → List Byte → RioT → Int × List Byte × RioT
  | 0,line,rp => (line.length,line,rp)
  | k + 1,line,rp =>
    let r := rioRead 1 rp
    if r.1 = 1 then
      let c := r.2.1.headD 0
      if c = 10 then (line.length + 1,line ++ [c],r.2.2) else lineTurns k (line ++ [c]) r.2.2
    else if r.1 = 0 then (line.length,line,r.2.2)
    else (-1,line,r.2.2)

def rioReadlineb (buf : List Byte) (rp : RioT) : Read RioT :=
  let l := lineTurns (maxLine - 1) [] rp
  let line := l.2.1
  let buf := if l.1 > 0 then line ++ 0 :: buf.drop (line.length + 1) else line ++ buf.drop line.length
  ⟨l.1,buf,l.2.2⟩

-- the loop of rio_readnb, each turn of which reads a byte
def readnbLoop : Nat → Nat → List Byte → RioT → Int × List Byte × RioT
  | 0,_,got,rp => (got.length,got,rp)
  | turns + 1,nleft,got,rp =>
    if nleft = 0 then (got.length,got,rp)
    else
      let r := rioRead nleft rp
      if r.1 < 0 then (-1,got,r.2.2)
      else if r.1 = 0 then (got.length,got,r.2.2)
      else readnbLoop turns (nleft - r.1.toNat) (got ++ r.2.1) r.2.2

def rioReadnb (buf : List Byte) (n : Nat) (rp : RioT) : Read RioT :=
  let l := readnbLoop n n [] rp
  ⟨l.1,l.2.1 ++ buf.drop l.2.1.length,l.2.2⟩

-- the loop of rio_writen: a turn uses up an event or writes a byte
def writenLoop : Nat → List Byte → OutFd → Bool × OutFd
  | 0,left,fd => (left.isEmpty,fd)
  | turns + 1,left,fd =>
    if left = [] then (true,fd)
    else
      let w := sysWrite left fd
      match w.1 with
      | none => writenLoop turns left w.2
      | some none => (false,w.2)
      | some (some k) => writenLoop turns (left.drop k) w.2

def rioWriten (bytes : List Byte) (fd : OutFd) : Int × OutFd :=
  let w := writenLoop (fd.sched.length + bytes.length + 1) bytes fd
  (if w.1 then bytes.length else -1,w.2)

section Reads

variable {n : Nat} {fd : InFd} {rp : RioT} {buf : List Byte}

theorem sysRead_cases (fd : InFd) (hn : 0 < n) :
    ((sysRead n fd).1 = .eintr ∧ (sysRead n fd).2.src = fd.src ∧
        (sysRead n fd).2.sched.length + 1 = fd.sched.length) ∨
      ∃ m, 0 < m ∧ m ≤ n ∧ (sysRead n fd).1 = (deliver m fd.src).1 ∧
        (sysRead n fd).2.src = (deliver m fd.src).2 := by
  rw [sysRead]
  split
  · rename_i h
    exact .inl ⟨rfl,rfl,by rw [h]; rfl⟩
  · exact .inr ⟨_,by omega,by omega,rfl,rfl⟩
  · exact .inr ⟨n,hn,Nat.le_refl n,rfl,rfl⟩

-- the unread bytes lie in rio_buf
structure RioT.Inv (rp : RioT) : Prop where
  inside : rp.bufptr + rp.cnt.toNat ≤ rp.buf.length
  size : rp.buf.length = rioBufsize

theorem RioT.Inv.empty {c : Int} (hi : rp.Inv) (hc : ¬ c > 0) (fd : InFd) :
    ({ rp with fd := fd, cnt := c } : RioT).Inv :=
  ⟨by have := hi.inside; simp only; omega,hi.size⟩

def RioT.unread (rp : RioT) : List Byte := (rp.buf.drop rp.bufptr).take rp.cnt.toNat

-- what the program has yet to be given
def RioT.stream (rp : RioT) : Source := ⟨rp.unread ++ rp.fd.src.data,rp.fd.src.broken⟩

theorem rioReadinitb_inv (hb : buf.length = rioBufsize) (fd : InFd) : (rioReadinitb buf fd).Inv :=
  ⟨Nat.zero_le _,hb⟩

theorem rioReadinitb_stream (buf : List Byte) (fd : InFd) : (rioReadinitb buf fd).stream = fd.src :=
  rfl

theorem RioT.unread_nil (h : ¬ rp.cnt > 0) : rp.unread = [] := by
  rw [RioT.unread,Int.toNat_of_nonpos (by omega),List.take_zero]

theorem refill_spec (hi : rp.Inv) (hn : (if rp.cnt > 0 then 1 else rp.fd.sched.length + 2) ≤ n) :
    (refill n rp).2.Inv ∧ (refill n rp).2.stream = rp.stream ∧
      ((refill n rp).1 = none ∧ 0 < (refill n rp).2.cnt ∨
        (refill n rp).1 = some (if rp.stream.broken then -1 else 0) ∧ rp.stream.data = []) := by
  induction n generalizing rp with
  | zero => split at hn <;> omega
  | succ n ih =>
    rw [refill]
    by_cases hc : rp.cnt > 0
    · rw [if_pos hc]
      exact ⟨hi,rfl,.inl ⟨rfl,hc⟩⟩
    rw [if_neg hc]
    rw [if_neg hc] at hn
    have hu := RioT.unread_nil hc
    obtain ⟨h1,h2,h3⟩ | ⟨m,h0,hm,h1,h2⟩ := sysRead_cases rp.fd (n := rioBufsize) (by decide)
    · simp only [h1]
      have hs : ({ rp with fd := (sysRead rioBufsize rp.fd).2, cnt := -1 } : RioT).stream =
          rp.stream := by
        rw [RioT.stream,RioT.stream,RioT.unread_nil (by simp),hu,h2]
      have hr := @ih { rp with fd := (sysRead rioBufsize rp.fd).2, cnt := -1 }
        (hi.empty (by simp) _) (by rw [if_neg (by simp)]; simp only; omega)
      rw [hs] at hr
      exact hr
    · rw [deliver] at h1 h2
      by_cases hd : rp.fd.src.data = []
      · rw [if_pos hd] at h1 h2
        have hdata : rp.stream.data = [] := by rw [RioT.stream,hu,hd]; rfl
        have hs (c : Int) (hc : ¬ c > 0) :
            ({ rp with fd := (sysRead rioBufsize rp.fd).2, cnt := c } : RioT).stream = rp.stream := by
          rw [RioT.stream,RioT.stream,RioT.unread_nil hc,hu,h2]
        cases hb : rp.fd.src.broken with
        | true =>
          rw [hb,if_pos rfl] at h1
          simp only [h1]
          exact ⟨hi.empty (by simp) _,hs _ (by simp),.inr ⟨by simp [RioT.stream,hb],hdata⟩⟩
        | false =>
          rw [hb,if_neg (by simp)] at h1
          simp only [h1]
          exact ⟨hi.empty (by simp) _,hs _ (by simp),.inr ⟨by simp [RioT.stream,hb],hdata⟩⟩
      · rw [if_neg hd] at h1 h2
        obtain ⟨b,l,hl⟩ := List.exists_cons_of_ne_nil
          (fun h => hd ((List.take_eq_nil_iff.mp h).resolve_left (by omega)) :
            rp.fd.src.data.take m ≠ [])
        rw [hl] at h1
        simp only [h1]
        have hlen : (b :: l).length ≤ rioBufsize := by
          rw [← hl,List.length_take]
          omega
        have hsize := hi.size
        have hi' : (⟨(sysRead rioBufsize rp.fd).2,(b :: l).length,0,
            (b :: l) ++ rp.buf.drop (b :: l).length⟩ : RioT).Inv := by
          refine ⟨?_,?_⟩
          · simp only [Int.toNat_natCast,List.length_append,List.length_drop]
            omega
          · simp only [List.length_append,List.length_drop]
            omega
        have hs : (⟨(sysRead rioBufsize rp.fd).2,(b :: l).length,0,
            (b :: l) ++ rp.buf.drop (b :: l).length⟩ : RioT).stream = rp.stream := by
          rw [RioT.stream,RioT.stream,hu,h2,RioT.unread,List.drop_zero,Int.toNat_natCast,
            List.take_left,← hl,List.take_append_drop]
          rfl
        have hr := ih hi' (by rw [if_pos (by simp only [List.length_cons]; omega)]; omega)
        rw [hs] at hr
        exact hr

theorem rioRead_spec (hi : rp.Inv) (hn : 0 < n) : (rioRead n rp).2.2.Inv ∧
    (rp.stream.data = [] ∧ (rioRead n rp).1 = (if rp.stream.broken then -1 else 0) ∧
        (rioRead n rp).2.2.stream = rp.stream ∨
      ∃ m, 0 < m ∧ m ≤ n ∧ m ≤ rp.stream.data.length ∧ (rioRead n rp).1 = m ∧
        (rioRead n rp).2.1 = rp.stream.data.take m ∧
        (rioRead n rp).2.2.stream = ⟨rp.stream.data.drop m,rp.stream.broken⟩) := by
  obtain ⟨h1,h2,⟨h3,h4⟩ | ⟨h3,h4⟩⟩ := refill_spec hi (n := rp.fd.sched.length + 2)
    (by split <;> omega)
  · rw [← h2]
    simp only [rioRead,h3]
    generalize (refill (rp.fd.sched.length + 2) rp).2 = r at h1 h4
    obtain ⟨m,hm⟩ : ∃ m : Nat, (if r.cnt < n then r.cnt else (n : Int)) = m :=
      ⟨(if r.cnt < n then r.cnt else (n : Int)).toNat,by split <;> omega⟩
    have hmn : 0 < m ∧ m ≤ n ∧ m ≤ r.cnt.toNat := by split at hm <;> omega
    have hin := h1.inside
    rw [hm,Int.toNat_natCast]
    have hlen : r.unread.length = r.cnt.toNat := by
      rw [RioT.unread,List.length_take,List.length_drop]
      omega
    have hcnt : (r.cnt - m).toNat = r.cnt.toNat - m := by omega
    refine ⟨⟨by simp only; omega,h1.size⟩,.inr ⟨m,hmn.1,hmn.2.1,?_,rfl,?_,?_⟩⟩
    · rw [RioT.stream,List.length_append]
      omega
    · rw [RioT.stream,List.take_append_of_le_length (by omega),RioT.unread,List.take_take,
        Nat.min_eq_left hmn.2.2]
    · rw [RioT.stream,RioT.stream,List.drop_append_of_le_length (by omega),RioT.unread,RioT.unread,
        List.drop_take,List.drop_drop,hcnt]
  · simp only [rioRead,h3]
    exact ⟨h1,.inl ⟨h4,trivial,h2⟩⟩

theorem lineTurns_spec (hi : rp.Inv) (k : Nat) (line : List Byte) : ∃ rp', rp'.Inv ∧
    rp'.stream = ⟨(lineLoop rp.stream.broken k line rp.stream.data).2.2,rp.stream.broken⟩ ∧
    lineTurns k line rp = ((lineLoop rp.stream.broken k line rp.stream.data).1,
      (lineLoop rp.stream.broken k line rp.stream.data).2.1,rp') := by
  induction k generalizing line rp with
  | zero => exact ⟨rp,hi,rfl,rfl⟩
  | succ k ih =>
    obtain ⟨h1,⟨h2,h3,h4⟩ | ⟨m,h0,hm,hml,h2,h3,h4⟩⟩ := rioRead_spec hi Nat.one_pos
    · refine ⟨_,h1,?_,?_⟩
      · rw [h4,h2,lineLoop,← h2]
      · rw [lineTurns,h2,lineLoop,h3]
        cases rp.stream.broken <;> rfl
    · obtain rfl : m = 1 := by omega
      obtain ⟨c,data,hd⟩ := List.exists_cons_of_ne_nil
        (List.ne_nil_of_length_pos (by omega) : rp.stream.data ≠ [])
      rw [hd] at h3 h4
      replace h2 : (rioRead 1 rp).1 = 1 := h2
      have hhead : (rioRead 1 rp).2.1.headD 0 = c := by rw [h3]; rfl
      rw [hd,lineLoop,lineTurns]
      simp only [h2,hhead,if_true]
      by_cases hc : c = 10
      · simp only [if_pos hc]
        exact ⟨_,h1,h4,rfl⟩
      · simp only [if_neg hc]
        obtain ⟨rp',hi',hs,hl⟩ := ih h1 (line ++ [c])
        rw [h4] at hs hl
        exact ⟨rp',hi',hs,hl⟩

theorem rioReadlineb_spec (hi : rp.Inv) (buf : List Byte) : (rioReadlineb buf rp).src.Inv ∧
    (rioReadlineb buf rp).map RioT.stream = Proxy.rioReadlineb buf rp.stream := by
  obtain ⟨rp',hi',hs,hl⟩ := lineTurns_spec hi (maxLine - 1) []
  rw [rioReadlineb,hl]
  exact ⟨hi',congrArg (Read.mk _ _) hs⟩

-- rio_readnb stops short of n bytes at the end of the stream only
theorem readnbLoop_spec (hi : rp.Inv) (nleft : Nat) {turns : Nat} (ht : nleft ≤ turns)
    (got : List Byte) : ∃ rp', rp'.Inv ∧
      rp'.stream = ⟨rp.stream.data.drop nleft,rp.stream.broken⟩ ∧
      readnbLoop turns nleft got rp =
        (if rp.stream.data.length < nleft ∧ rp.stream.broken then (-1 : Int)
          else ((got ++ rp.stream.data.take nleft).length : Nat),
          got ++ rp.stream.data.take nleft,rp') := by
  induction turns generalizing nleft got rp with
  | zero =>
    obtain rfl := Nat.le_zero.mp ht
    exact ⟨rp,hi,rfl,by rw [readnbLoop,if_neg (by omega),List.take_zero,List.append_nil]⟩
  | succ turns ih =>
    rw [readnbLoop]
    by_cases h0 : nleft = 0
    · subst h0
      rw [if_pos rfl]
      exact ⟨rp,hi,rfl,by rw [if_neg (by omega),List.take_zero,List.append_nil]⟩
    rw [if_neg h0]
    dsimp only
    obtain ⟨h1,⟨h2,h3,h4⟩ | ⟨m,hm0,hm,hml,h2,h3,h4⟩⟩ := rioRead_spec hi (Nat.pos_of_ne_zero h0)
    · refine ⟨_,h1,by rw [h4,h2,List.drop_nil,← h2],?_⟩
      rw [h3,h2,List.length_nil,List.take_nil,List.append_nil]
      cases rp.stream.broken with
      | true => simp [Nat.pos_of_ne_zero h0]
      | false => simp
    · obtain ⟨rp',hi',hs,hl⟩ := ih h1 (nleft - m) (by omega) (got ++ (rioRead nleft rp).2.1)
      rw [h2]
      simp only [Int.toNat_natCast]
      rw [if_neg (by omega),if_neg (by omega),hl]
      rw [h4] at hs ⊢
      refine ⟨rp',hi',?_,?_⟩
      · rw [hs,List.drop_drop]
        congr 2
        omega
      · have htake : got ++ (rioRead nleft rp).2.1 ++ (rp.stream.data.drop m).take (nleft - m) =
            got ++ rp.stream.data.take nleft := by
          rw [h3,List.append_assoc,← List.take_add]
          congr 2
          omega
        simp only [htake,List.length_drop]
        congr 2
        rw [eq_iff_iff]
        exact and_congr_left fun _ => by omega

theorem rioReadnb_spec (hi : rp.Inv) (buf : List Byte) : (rioReadnb buf 1 rp).src.Inv ∧
    (rioReadnb buf 1 rp).map RioT.stream = Proxy.rioReadnb buf rp.stream := by
  obtain ⟨rp',hi',hs,hl⟩ := readnbLoop_spec hi 1 (Nat.le_refl 1) []
  rw [rioReadnb,hl,Proxy.rioReadnb,Read.map]
  refine ⟨hi',?_⟩
  dsimp only
  rw [hs]
  cases hd : rp.stream.data with
  | nil =>
    have he : (⟨[],rp.stream.broken⟩ : Source) = rp.stream :=
      congrArg (Source.mk · rp.stream.broken) hd.symm
    simp [he]
  | cons b data => simp

end Reads

section Writes

variable {bytes left : List Byte} {sink : Sink} {fd : OutFd} {n turns : Nat}

theorem accept_none (h : sink.room = 0) (n : Nat) (bytes : List Byte) :
    accept n bytes sink = (none,sink) := if_pos h

theorem accept_some (h : sink.room ≠ 0) (hn : 0 < n) (hb : bytes ≠ []) : ∃ j, 0 < j ∧
    j ≤ bytes.length ∧ j ≤ sink.room ∧
      accept n bytes sink = (some j,⟨sink.sent ++ bytes.take j,sink.room - j⟩) := by
  have hlen := List.length_pos_iff.mpr hb
  refine ⟨min (min n sink.room) bytes.length,by omega,by omega,by omega,?_⟩
  rw [accept,if_neg h]
  simp only [List.length_take]
  congr 3
  rw [List.take_eq_take_iff]
  omega

-- a write takes nothing from an interrupted call, and else at least a byte while there is room
theorem sysWrite_cases (fd : OutFd) (hb : bytes ≠ []) :
    ((sysWrite bytes fd).1 = none ∧ (sysWrite bytes fd).2.sink = fd.sink ∧
        (sysWrite bytes fd).2.sched.length < fd.sched.length) ∨
      ∃ n, 0 < n ∧ (sysWrite bytes fd).1 = some (accept n bytes fd.sink).1 ∧
        (sysWrite bytes fd).2.sink = (accept n bytes fd.sink).2 ∧
        (sysWrite bytes fd).2.sched.length ≤ fd.sched.length := by
  rw [sysWrite]
  split
  · rename_i h
    exact .inl ⟨rfl,rfl,by rw [h]; exact Nat.lt_succ_self _⟩
  · rename_i h
    exact .inr ⟨_,Nat.succ_pos _,rfl,rfl,by rw [h]; exact Nat.le_succ _⟩
  · exact .inr ⟨_,List.length_pos_iff.mpr hb,rfl,rfl,Nat.zero_le _⟩

theorem writenLoop_spec (ht : fd.sched.length + left.length < turns) : ∃ fd',
    fd'.sink = (Proxy.rioWriten left fd.sink).2 ∧
      writenLoop turns left fd = (decide (left.length ≤ fd.sink.room),fd') := by
  induction turns generalizing left fd with
  | zero => omega
  | succ turns ih =>
    rw [writenLoop]
    by_cases hl : left = []
    · subst hl
      rw [if_pos rfl]
      exact ⟨fd,by simp [rioWriten_fits],by simp⟩
    rw [if_neg hl]
    dsimp only
    have hlen := List.length_pos_iff.mpr hl
    obtain ⟨h1,h2,h3⟩ | ⟨n,hn,h1,h2,h3⟩ := sysWrite_cases fd hl
    · rw [h1]
      dsimp only
      obtain ⟨fd',hs,hw⟩ := @ih left (sysWrite left fd).2 (by omega)
      rw [h2] at hs hw
      exact ⟨fd',hs,hw⟩
    · by_cases hroom : fd.sink.room = 0
      · rw [accept_none hroom] at h1 h2
        rw [h1]
        refine ⟨_,?_,by rw [decide_eq_false (by omega)]⟩
        rw [h2,rioWriten_fails _ _ (by omega),hroom,List.take_zero,List.append_nil]
        exact congrArg (Sink.mk fd.sink.sent) hroom
      · obtain ⟨j,h0,hj,hjr,ha⟩ := accept_some hroom hn hl
        rw [ha] at h1 h2
        rw [h1]
        dsimp only
        obtain ⟨fd',hs,hw⟩ := @ih (left.drop j) (sysWrite left fd).2
          (by rw [List.length_drop]; omega)
        rw [h2] at hs hw
        refine ⟨fd',?_,?_⟩
        · rw [hs]
          by_cases hfit : left.length ≤ fd.sink.room
          · rw [rioWriten_fits _ _ (by rw [List.length_drop]; simp only; omega),rioWriten_fits _ _ hfit]
            simp only [List.append_assoc,List.take_append_drop,List.length_drop]
            congr 1
            omega
          · rw [rioWriten_fails _ _ (by rw [List.length_drop]; simp only; omega),
              rioWriten_fails _ _ (by omega)]
            simp only [List.append_assoc]
            congr 2
            rw [← List.take_add]
            congr 1
            omega
        · rw [hw]
          congr 1
          rw [decide_eq_decide,List.length_drop]
          simp only
          omega

theorem rioWriten_spec (bytes : List Byte) (fd : OutFd) :
    (rioWriten bytes fd).map id OutFd.sink = Proxy.rioWriten bytes fd.sink := by
  obtain ⟨fd',hs,hw⟩ := @writenLoop_spec bytes fd _ (Nat.lt_succ_self _)
  rw [rioWriten,hw,Prod.map_apply,hs,Proxy.rioWriten]
  by_cases h : bytes.length ≤ fd.sink.room
  · simp only [decide_eq_true h,if_true,if_pos h,id]
  · simp only [decide_eq_false h,if_neg h,Bool.false_eq_true,if_false,id]

end Writes

end Rio

end Proxy
