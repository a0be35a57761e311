import IcsLabs.Proxy.Resources

namespace Proxy
namespace Server

open Bytes Owners

variable {s u : State} {a : Act} {i n p fd clientfd : Nat} {t t' : Thread} {c : Conn}
variable {logs : List (Nat × List Byte)}

section Address

variable (a b c d : Byte)

theorem toNat_bytes : (a ++ b ++ c ++ d).toNat =
    ((a.toNat * 256 + b.toNat) * 256 + c.toNat) * 256 + d.toNat := by
  have h {n : Nat} (x : BitVec n) (y : Byte) : (x ++ y).toNat = x.toNat * 256 + y.toNat := by
    rw [BitVec.toNat_append,← Nat.shiftLeft_add_eq_or_of_lt y.isLt,Nat.shiftLeft_eq]
  rw [h,h,h]

theorem ntohl_inetPton (addr : BitVec 32) :
    ntohl (inetPton (some (a,b,c,d)) addr) = a ++ b ++ c ++ d := by
  have ha := a.isLt
  have hb := b.isLt
  have hc := c.isLt
  have hd := d.isLt
  have h0 : (d ++ c ++ b ++ a).extractLsb' 0 8 = a := by
    refine BitVec.eq_of_toNat_eq ?_
    simp only [BitVec.extractLsb'_toNat,toNat_bytes,Nat.shiftRight_eq_div_pow]
    omega
  have h1 : (d ++ c ++ b ++ a).extractLsb' 8 8 = b := by
    refine BitVec.eq_of_toNat_eq ?_
    simp only [BitVec.extractLsb'_toNat,toNat_bytes,Nat.shiftRight_eq_div_pow]
    omega
  have h2 : (d ++ c ++ b ++ a).extractLsb' 16 8 = c := by
    refine BitVec.eq_of_toNat_eq ?_
    simp only [BitVec.extractLsb'_toNat,toNat_bytes,Nat.shiftRight_eq_div_pow]
    omega
  have h3 : (d ++ c ++ b ++ a).extractLsb' 24 8 = d := by
    refine BitVec.eq_of_toNat_eq ?_
    simp only [BitVec.extractLsb'_toNat,toNat_bytes,Nat.shiftRight_eq_div_pow]
    omega
  rw [inetPton,ntohl,h0,h1,h2,h3]

def quad (peer : Byte × Byte × Byte × Byte) : List Byte :=
  printNat peer.1.toNat ++ ascii "." ++ printNat peer.2.1.toNat ++ ascii "." ++
    printNat peer.2.2.1.toNat ++ ascii "." ++ printNat peer.2.2.2.toNat

theorem dotted_inetPton (addr : BitVec 32) :
    dotted ⟨inetPton (some (a,b,c,d)) addr⟩ = quad (a,b,c,d) := by
  have ha := a.isLt
  have hb := b.isLt
  have hc := c.isLt
  have hd := d.isLt
  have hm (n : Nat) : n &&& 255 = n % 256 := Nat.and_two_pow_sub_one_eq_mod n 8
  have h0 : ((((a ++ b ++ c ++ d).setWidth 64 : BitVec 64) >>> 24).setWidth 8).toNat = a.toNat := by
    simp only [BitVec.toNat_setWidth,BitVec.toNat_ushiftRight,toNat_bytes,Nat.shiftRight_eq_div_pow]
    omega
  have h1 : (((((a ++ b ++ c ++ d).setWidth 64 : BitVec 64) >>> 16) &&& 0xff).setWidth 8).toNat =
      b.toNat := by
    simp [hm,toNat_bytes,Nat.shiftRight_eq_div_pow]
    omega
  have h2 : (((((a ++ b ++ c ++ d).setWidth 64 : BitVec 64) >>> 8) &&& 0xff).setWidth 8).toNat =
      c.toNat := by
    simp [hm,toNat_bytes,Nat.shiftRight_eq_div_pow]
    omega
  have h3 : ((((a ++ b ++ c ++ d).setWidth 64 : BitVec 64) &&& 0xff).setWidth 8).toNat =
      d.toNat := by
    simp [hm,toNat_bytes]
    omega
  simp only [dotted,ntohl_inetPton,h0,h1,h2,h3,quad]

end Address

-- addr is the IPv4 address of the client
def Conn.Addressed (c : Conn) (addr : BitVec 32) : Prop :=
  ∀ peer, c.peer = some peer → addr = inetPton (some peer) 0

-- a log line for the connection
def Conn.Line (c : Conn) (line : List Byte) : Prop :=
  ∃ now shown e, (∀ peer, c.peer = some peer → shown = quad peer) ∧
    (Proxy.doit c.world).log = some e ∧
    line = now ++ ascii ": " ++ shown ++ ascii " " ++ e.uri ++ ascii " " ++ printNat e.size ++ ascii "\n"

theorem line_logText {addr : BitVec 32} {e : LogEntry} (h : c.Addressed addr)
    (he : (Proxy.doit c.world).log = some e) (now : List Byte) :
    c.Line (logText now ⟨addr⟩ e ++ ascii "\n") := by
  refine ⟨now,dotted ⟨addr⟩,e,fun peer hpeer => ?_,he,by rw [logText]⟩
  rw [h peer hpeer,dotted_inetPton]

namespace Thread

-- what a thread holds is about its own connection
def Right (c : Conn) (cells : Nat → Option Cell) : Thread → Prop
  | .enter p => ∀ cell, cells p = some cell → c.Addressed cell.addr
  | .load _ addr | .free _ addr _ | .doit addr _ | .relay addr _ _ => c.Addressed addr
  | .format addr _ e => c.Addressed addr ∧ (Proxy.doit c.world).log = some e
  | .wait _ logstring => c.Line (logstring ++ ascii "\n")
  | _ => True

-- the exchange is over
def exchanged : Thread → Bool
  | .enter _ | .load _ _ | .free _ _ _ | .doit _ _ | .relay _ _ _ => false
  | _ => true

-- doit has returned
def returned : Thread → Bool
  | .close _ | .done => true
  | _ => false

def inside : Thread → Bool
  | .print _ _ => true
  | _ => false

end Thread

def State.Line (s : State) (i : Nat) (line : List Byte) : Prop :=
  ∃ c, s.conns[i]? = some c ∧ c.Line line

-- threads that have returned and logged
def State.Logged (s : State) (i : Nat) : Prop :=
  ∃ t c, s.threads[i]? = some t ∧ s.conns[i]? = some c ∧ t.returned = true ∧
    (Proxy.doit c.world).log.isSome = true

def allLines (logs : List (Nat × List Byte)) : List Byte := (logs.map Prod.snd).flatten

-- nobody prints, or one thread does and what it has printed of its line comes last
inductive Prints (s : State) (logs : List (Nat × List Byte)) : Prop
  | idle (hs : s.sem = 1) (hn : ∀ (j : Nat) (t : Thread), s.threads[j]? = some t → t.inside = false)
      (ho : s.stdout = allLines logs)
  | busy (i fd : Nat) (sofar left : List Byte) (hs : s.sem = 0)
      (ht : s.threads[i]? = some (.print fd left))
      (hn : ∀ (j : Nat) (t : Thread), s.threads[j]? = some t → t.inside = true → j = i)
      (ho : s.stdout = allLines logs ++ sofar) (hl : s.Line i (sofar ++ left))

structure Logs (s : State) (logs : List (Nat × List Byte)) : Prop where
  keys : (logs.map Prod.fst).Nodup
  mem : ∀ n, n ∈ logs.map Prod.fst ↔ s.Logged n
  line : ∀ e ∈ logs, s.Line e.1 e.2
  out : Prints s logs

structure Served (s : State) : Prop where
  keys : (s.served.map Prod.fst).Nodup
  mem : ∀ n, n ∈ s.served.map Prod.fst ↔ ∃ t, s.threads[n]? = some t ∧ t.exchanged = true
  outcome : ∀ e ∈ s.served, ∃ c, s.conns[e.1]? = some c ∧ e.2 = Proxy.doit c.world

structure Right (s : State) : Prop where
  threads : ∀ (i : Nat) (t : Thread) (c : Conn), s.threads[i]? = some t → s.conns[i]? = some c → t.Right c s.cells
  main : ∀ p cell c, s.main = .create p → s.cells p = some cell → s.conns.getLast? = some c →
    c.Addressed cell.addr

theorem trip_outcome (c : Conn) : c.trip.outcome = Proxy.doit c.world :=
  Rio.doit_outcome c.world c.kernel

theorem trip_refused (h : c.trip.opened = false) : (Proxy.doit c.world).log = none :=
  Rio.doit_refused h

section Served

theorem Served.goto (h : Served s) (ht : s.threads[i]? = some t) (he : t'.exchanged = t.exchanged) :
    Served (s.goto i t') := by
  refine ⟨h.keys,fun n => (h.mem n).trans ?_,h.outcome⟩
  simp only [State.goto,goto_threads ht]
  by_cases hn : n = i
  · simp [hn,ht,he]
  · rw [if_neg hn]

theorem Served.exchange (h : Served s) (ht : s.threads[i]? = some t) (hc : s.conns[i]? = some c)
    (h0 : t.exchanged = false) (h1 : t'.exchanged = true) :
    Served ({ s with served := s.served ++ [(i,c.trip.outcome)] }.goto i t') := by
  have hi : i ∉ s.served.map Prod.fst := by
    rw [h.mem,ht]
    rintro ⟨t,ht',he⟩
    obtain rfl := Option.some.inj ht'
    rw [h0] at he
    cases he
  refine ⟨?_,fun n => ?_,fun e he => ?_⟩
  · simp only [State.goto,List.map_append,List.map_cons,List.map_nil]
    refine List.nodup_append.mpr ⟨h.keys,List.pairwise_singleton ..,fun a ha b hb => ?_⟩
    rintro rfl
    exact hi (List.mem_singleton.mp hb ▸ ha)
  · simp only [State.goto,goto_threads ht,List.map_append,List.map_cons,List.map_nil,
      List.mem_append,List.mem_singleton,h.mem n]
    by_cases hn : n = i
    · simp [hn,h1]
    · simp [hn]
  · rcases List.mem_append.mp he with he | he
    · exact h.outcome e he
    · obtain rfl := List.mem_singleton.mp he
      exact ⟨c,hc,trip_outcome c⟩

theorem Served.accept (h : Served s) (conn : Conn) (main : Main) (table : Nat → Option Desc)
    (cells : Nat → Option Cell) : Served { s with
      main := main, conns := s.conns ++ [conn], table := table, cells := cells } :=
  ⟨h.keys,h.mem,fun e he => by
    obtain ⟨c,hc,ho⟩ := h.outcome e he
    exact ⟨c,List.getElem?_append_left (List.getElem?_eq_some_iff.mp hc).1 ▸ hc,ho⟩⟩

theorem create_thread (s : State) (p n : Nat) (q : Thread → Prop) (hq : ¬ q (.enter p)) :
    (∃ t, (s.threads ++ [.enter p])[n]? = some t ∧ q t) ↔ ∃ t, s.threads[n]? = some t ∧ q t := by
  rw [List.getElem?_append]
  split
  · rfl
  · rename_i hn
    rw [List.getElem?_eq_none (by omega : s.threads.length ≤ n)]
    cases h : n - s.threads.length <;> simp [hq]

theorem served_steps (h : Served s) (hs : Steps s u) : Served u := by
  cases hs with
  | malloc hm hp => exact ⟨h.keys,h.mem,h.outcome⟩
  | accept hm hf hp => exact h.accept ..
  | name hm hp hc => exact ⟨h.keys,h.mem,h.outcome⟩
  | @create p hm =>
    exact ⟨h.keys,fun n => (h.mem n).trans
      (create_thread s p n (fun t => t.exchanged = true) (by simp [Thread.exchanged])).symm,h.outcome⟩
  | fail => exact ⟨h.keys,h.mem,h.outcome⟩
  | enter ht hp => exact h.goto ht rfl
  | load ht hp => exact h.goto ht rfl
  | free ht => exact Served.goto ⟨h.keys,h.mem,h.outcome⟩ ht rfl
  | refuse ht hc ho => exact h.exchange ht hc rfl rfl
  | connect ht hf hc => exact Served.goto ⟨h.keys,h.mem,h.outcome⟩ ht rfl
  | @relay i addr fd clientfd c ht hc =>
    refine Served.exchange (s := { s with table := Function.update s.table clientfd none })
      ⟨h.keys,h.mem,h.outcome⟩ ht hc rfl ?_
    unfold afterExchange
    split <;> rfl
  | format ht => exact h.goto ht rfl
  | wait ht hs => exact Served.goto ⟨h.keys,h.mem,h.outcome⟩ ht rfl
  | byte ht => exact Served.goto ⟨h.keys,h.mem,h.outcome⟩ ht rfl
  | post ht => exact Served.goto ⟨h.keys,h.mem,h.outcome⟩ ht rfl
  | close ht => exact Served.goto ⟨h.keys,h.mem,h.outcome⟩ ht rfl

end Served

section Right

theorem right_update (hp : t.cell ≠ some p) (x : Option Cell) (h : t.Right c s.cells) :
    t.Right c (Function.update s.cells p x) := by
  cases t with
  | enter q =>
    intro cell hc
    rw [Function.update_of_ne (fun hq => hp (congrArg some hq))] at hc
    exact h cell hc
  | _ => exact h

theorem Right.goto (h : Right s) (ht : s.threads[i]? = some t)
    (hr : ∀ c, s.conns[i]? = some c → t.Right c s.cells → t'.Right c s.cells) :
    Right (s.goto i t') := by
  refine ⟨fun j t2 c h2 hc => ?_,h.main⟩
  simp only [State.goto,goto_threads ht] at h2
  split at h2
  · obtain rfl := Option.some.inj h2
    subst j
    exact hr c hc (h.threads i t c ht hc)
  · exact h.threads j t2 c h2 hc

theorem right_steps (hi : Inv s) (h : Right s) (hs : Steps s u) : Right u := by
  have hlen := hi.conns
  cases hs with
  | @malloc p junk hm hp =>
    refine ⟨fun j t c ht hc => right_update
      (fun hcell => hi.cell_fresh hp (some j) (by rw [State.cell,ht]; exact hcell)) _
        (h.threads j t c ht hc),fun _ _ _ hm' => ?_⟩
    cases hm'
  | @accept p fd c conn hm hf hp =>
    have hk : s.cell none = some p := by rw [State.cell,hm]; rfl
    refine ⟨fun j t c ht hc => ?_,fun _ _ _ hm' => by cases hm'⟩
    have hlt : j < s.conns.length := by
      have hlt : j < s.threads.length := lt_of_thread ht
      omega
    rw [List.getElem?_append_left hlt] at hc
    refine right_update (fun hcell => ?_) _ (h.threads j t c ht hc)
    cases hi.cell_unique (k := some j) (by rw [State.cell,ht]; exact hcell) hk
  | @name p c conn hm hp hc =>
    have hk : s.cell none = some p := by rw [State.cell,hm]; rfl
    refine ⟨fun j t c ht hc => ?_,fun q cell conn' hm' hcell hl peer hpeer => ?_⟩
    · refine right_update (fun hcell => ?_) _ (h.threads j t c ht hc)
      cases hi.cell_unique (k := some j) (by rw [State.cell,ht]; exact hcell) hk
    · obtain rfl := Main.create.inj hm'
      obtain rfl := Option.some.inj (hc.symm.trans hl)
      simp only [Function.update_self,Option.some.injEq] at hcell
      rw [← hcell,hpeer]
      rfl
  | @create p hm =>
    rw [State.pending,hm] at hlen
    refine ⟨fun j t c ht hc => ?_,fun _ _ _ hm' => by cases hm'⟩
    rw [List.getElem?_append] at ht
    split at ht
    · exact h.threads j t c ht hc
    · have hj : j = s.threads.length := by
        have := (List.getElem?_eq_some_iff.mp ht).1
        simp only [List.length_singleton] at this
        omega
      subst hj
      rw [Nat.sub_self,List.getElem?_cons_zero] at ht
      obtain rfl := Option.some.inj ht
      intro cell hcell
      refine h.main p cell c hm hcell ?_
      rw [List.getLast?_eq_getElem?,hlen]
      exact hc
  | fail => exact ⟨h.threads,h.main⟩
  | enter ht hp => exact h.goto ht fun _ _ hr => hr _ hp
  | load ht hp => exact h.goto ht fun _ _ hr => hr
  | @free i p addr fd ht =>
    have hk : s.cell (some i) = some p := by rw [State.cell,ht]; rfl
    refine ⟨fun j t2 c h2 hc => ?_,fun q cell c hm hcell hl => ?_⟩
    · simp only [State.goto,goto_threads ht] at h2
      split at h2
      · obtain rfl := Option.some.inj h2
        subst j
        exact h.threads i _ c ht hc
      · refine right_update (fun hcell => ?_) _ (h.threads j t2 c h2 hc)
        have := hi.cell_unique (k := some j) (by rw [State.cell,h2]; exact hcell) hk
        exact absurd (Option.some.inj this) ‹¬ j = i›
    · refine h.main q cell c hm ?_ hl
      rcases eq_or_ne q p with rfl | hq
      · cases hi.cell_unique (k := none) (congrArg Main.cell hm) hk
      · exact (Function.update_of_ne hq ..).symm.trans hcell
  | refuse ht hc ho => exact Right.goto ⟨h.threads,h.main⟩ ht fun _ _ _ => trivial
  | connect ht hf hc => exact Right.goto ⟨h.threads,h.main⟩ ht fun _ _ hr => hr
  | @relay i addr fd clientfd c ht hc =>
    refine Right.goto ⟨h.threads,h.main⟩ ht fun c' hc' hr => ?_
    obtain rfl := Option.some.inj (hc.symm.trans hc')
    unfold afterExchange
    cases hl : c.trip.outcome.log with
    | none => trivial
    | some e => exact ⟨hr,(congrArg Outcome.log (trip_outcome c)).symm.trans hl⟩
  | format ht => exact h.goto ht fun _ _ hr => line_logText hr.1 hr.2 _
  | wait ht hs => exact Right.goto ⟨h.threads,h.main⟩ ht fun _ _ _ => trivial
  | byte ht => exact Right.goto ⟨h.threads,h.main⟩ ht fun _ _ _ => trivial
  | post ht => exact Right.goto ⟨h.threads,h.main⟩ ht fun _ _ _ => trivial
  | close ht => exact Right.goto ⟨h.threads,h.main⟩ ht fun _ _ _ => trivial

end Right

section Log

theorem Prints.goto (h : Prints s logs) (ht : s.threads[i]? = some t) (h0 : t.inside = false)
    (h1 : t'.inside = false) : Prints (s.goto i t') logs := by
  cases h with
  | idle hs hn ho =>
    refine .idle hs (fun j t2 h2 => ?_) ho
    simp only [State.goto,goto_threads ht] at h2
    split at h2
    · exact Option.some.inj h2 ▸ h1
    · exact hn j t2 h2
  | busy k fd sofar left hs hk hn ho hl =>
    have hik : k ≠ i := by
      rintro rfl
      obtain rfl := Option.some.inj (hk.symm.trans ht)
      cases h0
    refine .busy k fd sofar left hs ?_ (fun j t2 h2 hin => ?_) ho hl
    · simp only [State.goto,goto_threads ht,if_neg hik]
      exact hk
    · simp only [State.goto,goto_threads ht] at h2
      split at h2
      · rw [← Option.some.inj h2,h1] at hin
        cases hin
      · exact hn j t2 h2 hin

theorem logged_goto (ht : s.threads[i]? = some t) (t' : Thread)
    (hr : ∀ c, s.conns[i]? = some c → (Proxy.doit c.world).log.isSome = true →
      t'.returned = t.returned) (n : Nat) : (s.goto i t').Logged n ↔ s.Logged n := by
  simp only [State.Logged,State.goto,goto_threads ht]
  by_cases hn : n = i
  · subst hn
    simp only [if_true,ht,Option.some.injEq,exists_and_left,exists_eq_left']
    refine exists_congr fun c => and_congr_right fun hc => and_congr_left fun hl => ?_
    rw [hr c hc hl]
  · simp only [if_neg hn]

theorem Logs.goto (h : Logs s logs) (ht : s.threads[i]? = some t) (h0 : t.inside = false)
    (h1 : t'.inside = false) (hr : ∀ c, s.conns[i]? = some c →
      (Proxy.doit c.world).log.isSome = true → t'.returned = t.returned) :
    Logs (s.goto i t') logs :=
  ⟨h.keys,fun n => (h.mem n).trans (logged_goto ht t' hr n).symm,h.line,h.out.goto ht h0 h1⟩

-- P(&s): nobody else is inside
theorem Logs.wait (h : Logs s logs) {line : List Byte} (ht : s.threads[i]? = some (.wait fd line))
    (hs : 0 < s.sem) (hl : s.Line i (line ++ ascii "\n")) :
    Logs ({ s with sem := s.sem - 1 }.goto i (.print fd (line ++ ascii "\n"))) logs := by
  refine ⟨h.keys,fun n => (h.mem n).trans (logged_goto (s := { s with sem := s.sem - 1 }) ht
    (.print fd (line ++ ascii "\n")) (fun _ _ _ => rfl) n).symm,h.line,?_⟩
  cases h.out with
  | idle h1 hn ho =>
    refine .busy i fd [] (line ++ ascii "\n") (congrArg (· - 1) h1) ?_ (fun j t h2 hin => ?_)
      (ho.trans (List.append_nil _).symm) hl
    · simp only [State.goto,goto_threads ht,if_true]
    · simp only [State.goto,goto_threads ht] at h2
      split at h2
      · assumption
      · rw [hn j t h2] at hin
        cases hin
  | busy j fd' sofar left h0 hj hn ho hl => omega

theorem Logs.byte (h : Logs s logs) {b : Byte} {left : List Byte}
    (ht : s.threads[i]? = some (.print fd (b :: left))) :
    Logs ({ s with stdout := s.stdout ++ [b] }.goto i (.print fd left)) logs := by
  refine ⟨h.keys,fun n => (h.mem n).trans (logged_goto (s := { s with stdout := s.stdout ++ [b] })
    ht (.print fd left) (fun _ _ _ => rfl) n).symm,h.line,?_⟩
  cases h.out with
  | idle h1 hn ho => cases hn i _ ht
  | busy k fd' sofar left' h0 hk hn ho hl =>
    obtain rfl := hn i _ ht rfl
    obtain ⟨rfl,rfl⟩ := Thread.print.inj (Option.some.inj (hk.symm.trans ht))
    refine .busy i fd' (sofar ++ [b]) left h0 ?_ (fun j t h2 hin => ?_) ?_ ?_
    · simp only [State.goto,goto_threads ht,if_true]
    · simp only [State.goto,goto_threads ht] at h2
      split at h2
      · assumption
      · exact hn j t h2 hin
    · exact (congrArg (· ++ [b]) ho).trans (List.append_assoc ..)
    · rwa [List.append_assoc]

-- V(&s): the line is complete
theorem Logs.post (h : Logs s logs) (ht : s.threads[i]? = some (.print fd [])) :
    ∃ logs, Logs ({ s with sem := s.sem + 1 }.goto i (.close fd)) logs := by
  cases h.out with
  | idle h1 hn ho => cases hn i _ ht
  | busy k fd' sofar left h0 hk hn ho hl =>
    obtain rfl := hn i _ ht rfl
    obtain ⟨rfl,rfl⟩ := Thread.print.inj (Option.some.inj (hk.symm.trans ht))
    rw [List.append_nil] at hl
    obtain ⟨c,hc,hline⟩ := hl
    have hlog : (Proxy.doit c.world).log.isSome = true := by
      obtain ⟨-,-,e,-,he,-⟩ := hline
      rw [he]
      rfl
    have hi : i ∉ logs.map Prod.fst := by
      rw [h.mem]
      rintro ⟨t,c,h2,-,hr,-⟩
      obtain rfl := Option.some.inj (h2.symm.trans ht)
      cases hr
    refine ⟨logs ++ [(i,sofar)],?_,fun n => ?_,fun e he => ?_,.idle (congrArg (· + 1) h0)
      (fun j t h2 => ?_) ?_⟩
    · rw [List.map_append,List.nodup_append]
      refine ⟨h.keys,List.pairwise_singleton ..,fun a ha b hb => ?_⟩
      rintro rfl
      obtain rfl := List.mem_singleton.mp hb
      exact hi ha
    · rw [List.map_append,List.mem_append,h.mem]
      simp only [State.Logged,State.goto,goto_threads ht,List.map_cons,List.map_nil,
        List.mem_singleton]
      by_cases hn : n = i
      · subst hn
        simp [hc,hlog,Thread.returned]
      · simp [hn]
    · rcases List.mem_append.mp he with he | he
      · exact h.line e he
      · rw [List.mem_singleton.mp he]
        exact ⟨c,hc,hline⟩
    · simp only [State.goto,goto_threads ht] at h2
      split at h2
      · exact Option.some.inj h2 ▸ rfl
      · rw [← Bool.not_eq_true]
        exact fun hin => absurd (hn j t h2 hin) ‹_›
    · simpa [State.goto,allLines] using ho

theorem Logs.accept (h : Logs s logs) (conn : Conn) (hlen : s.threads.length ≤ s.conns.length)
    (main : Main) (table : Nat → Option Desc) (cells : Nat → Option Cell) : Logs { s with
      main := main, conns := s.conns ++ [conn], table := table, cells := cells } logs := by
  have hl (n : Nat) (line : List Byte) (hl : s.Line n line) : State.Line { s with
      main := main, conns := s.conns ++ [conn], table := table, cells := cells } n line := by
    obtain ⟨c,hc,hline⟩ := hl
    exact ⟨c,List.getElem?_append_left (List.getElem?_eq_some_iff.mp hc).1 ▸ hc,hline⟩
  refine ⟨h.keys,fun n => (h.mem n).trans ?_,fun e he => hl _ _ (h.line e he),?_⟩
  · refine exists_congr fun t => exists_congr fun c => and_congr_right fun ht => ?_
    have hlt := lt_of_thread ht
    rw [List.getElem?_append_left (by omega)]
  · cases h.out with
    | idle hs hn ho => exact .idle hs hn ho
    | busy k fd sofar left hs hk hn ho hline => exact .busy k fd sofar left hs hk hn ho (hl _ _ hline)

theorem Logs.create (h : Logs s logs) (main : Main) (p : Nat) :
    Logs { s with main := main, threads := s.threads ++ [.enter p] } logs := by
  have hsub (j : Nat) (t : Thread) (hin : t.inside = true)
      (ht : (s.threads ++ [.enter p])[j]? = some t) : s.threads[j]? = some t := by
    obtain ⟨t2,h2,rfl⟩ := (create_thread s p j (fun t2 => t2 = t) (by rintro rfl; cases hin)).mp
      ⟨t,ht,rfl⟩
    exact h2
  refine ⟨h.keys,fun n => (h.mem n).trans ?_,h.line,?_⟩
  · have hc := create_thread s p n (fun t => ∃ c, s.conns[n]? = some c ∧ t.returned = true ∧
      (Proxy.doit c.world).log.isSome = true) (by simp [Thread.returned])
    simp only [State.Logged,← exists_and_left] at hc ⊢
    exact hc.symm
  · cases h.out with
    | idle hs hn ho =>
      refine .idle hs (fun j t ht => ?_) ho
      rw [← Bool.not_eq_true]
      intro hin
      rw [hn j t (hsub j t hin ht)] at hin
      cases hin
    | busy k fd sofar left hs hk hn ho hl =>
      exact .busy k fd sofar left hs ((List.getElem?_append_left (lt_of_thread hk)).trans hk)
        (fun j t ht hin => hn j t (hsub j t hin ht) hin) ho hl

theorem Logs.other (h : Logs s logs) (main : Main) (exited : Bool) (cells : Nat → Option Cell)
    (table : Nat → Option Desc) (served : List (Nat × Outcome)) : Logs { s with
      main := main, exited := exited, cells := cells, table := table, served := served } logs :=
  ⟨h.keys,h.mem,h.line,by
    cases h.out with
    | idle hs hn ho => exact .idle hs hn ho
    | busy k fd sofar left hs hk hn ho hl => exact .busy k fd sofar left hs hk hn ho hl⟩

theorem logs_steps (hi : Inv s) (hr : Right s) (h : ∃ logs, Logs s logs) (hs : Steps s u) :
    ∃ logs, Logs u logs := by
  obtain ⟨logs,h⟩ := h
  have hlen := hi.conns
  cases hs with
  | malloc hm hp => exact ⟨logs,h.other ..⟩
  | accept hm hf hp => exact ⟨logs,h.accept _ (by omega) ..⟩
  | name hm hp hc => exact ⟨logs,h.other ..⟩
  | create hm => exact ⟨logs,h.create ..⟩
  | fail => exact ⟨logs,h.other ..⟩
  | enter ht hp => exact ⟨logs,h.goto ht rfl rfl fun _ _ _ => rfl⟩
  | load ht hp => exact ⟨logs,h.goto ht rfl rfl fun _ _ _ => rfl⟩
  | @free i p addr fd ht =>
    exact ⟨logs,(h.other s.main s.exited (Function.update s.cells p none) s.table s.served).goto ht
      rfl rfl fun _ _ _ => rfl⟩
  | @refuse i addr fd c ht hc ho =>
    refine ⟨logs,(h.other s.main s.exited s.cells s.table
      (s.served ++ [(i,c.trip.outcome)])).goto ht rfl rfl fun c' hc' hl => ?_⟩
    obtain rfl := Option.some.inj (hc.symm.trans hc')
    rw [trip_refused ho] at hl
    cases hl
  | @connect i addr fd clientfd c ht hf hc =>
    exact ⟨logs,(h.other s.main s.exited s.cells (Function.update s.table clientfd
      (some (.server i))) s.served).goto ht rfl rfl fun _ _ _ => rfl⟩
  | @relay i addr fd clientfd c ht hc =>
    refine ⟨logs,(h.other s.main s.exited s.cells (Function.update s.table clientfd none)
      (s.served ++ [(i,c.trip.outcome)])).goto ht rfl ?_ fun c' hc' hl => ?_⟩
    · unfold afterExchange
      split <;> rfl
    · obtain rfl := Option.some.inj (hc.symm.trans hc')
      rw [← trip_outcome] at hl
      obtain ⟨e,he⟩ := Option.isSome_iff_exists.mp hl
      rw [he]
      rfl
  | format ht => exact ⟨logs,h.goto ht rfl rfl fun _ _ _ => rfl⟩
  | @wait i fd line ht hs =>
    have hlt := lt_of_thread ht
    obtain ⟨c,hc⟩ : ∃ c, s.conns[i]? = some c := ⟨_,List.getElem?_eq_getElem (by omega)⟩
    exact ⟨logs,h.wait ht hs ⟨c,hc,hr.threads i _ c ht hc⟩⟩
  | byte ht => exact ⟨logs,h.byte ht⟩
  | post ht => exact h.post ht
  | @close i fd ht =>
    exact ⟨logs,(h.other s.main s.exited s.cells (Function.update s.table fd none)
      s.served).goto ht rfl rfl fun _ _ _ => rfl⟩

end Log

structure Session (s : State) : Prop where
  inv : Inv s
  right : Right s
  served : Served s
  logs : ∃ logs, Logs s logs

theorem session_start : Session start :=
  ⟨inv_start,⟨fun _ _ _ ht => (nomatch ht),fun _ _ _ hm => (nomatch hm)⟩,
    ⟨.nil,fun n => by simp [start],fun _ he => (nomatch he)⟩,
    [],.nil,fun n => by simp [State.Logged,start],fun _ he => (nomatch he),
      .idle rfl (fun _ _ ht => (nomatch ht)) rfl⟩

theorem session_step (h : Session s) (hs : step a s = some u) : Session u := by
  have hs := steps_of_step h.inv hs
  exact ⟨inv_steps h.inv hs,right_steps h.inv h.right hs,served_steps h.served hs,
    logs_steps h.inv h.right h.logs hs⟩

theorem session_run {acts : List Act} (h : run acts start = some s) : Session s :=
  Runs.run_invariant (fun _ _ _ hs hstep => session_step hs hstep) session_start h

theorem exists_run {acts : List Act} {q : State → Bool} (h : (run acts start).any q = true) :
    ∃ s, run acts start = some s ∧ q s = true := Runs.exists_run h

-- what thread i has is its own: its cell is allocated, and neither main nor another thread has it;
-- its descriptors are open on the two peers of connection i
structure Owns (s : State) (i : Nat) (t : Thread) : Prop where
  cell : ∀ p, t.cell = some p → (∃ c, s.cells p = some c) ∧ s.main.cell ≠ some p ∧
    ∀ (j : Nat) (u : Thread), s.threads[j]? = some u → u.cell = some p → j = i
  connfd : ∀ fd, t.connfd s.cells = some fd → s.table fd = some (.client i) ∧ (s.conns[i]?).isSome
  clientfd : ∀ fd, t.clientfd = some fd → s.table fd = some (.server i)

theorem Inv.owns (hi : Inv s) (ht : s.threads[i]? = some t) : Owns s i t where
  cell p hp := by
    have hk : s.cell (some i) = some p := by rw [State.cell,ht]; exact hp
    refine ⟨hi.cell_some hk,fun hm => ?_,fun j u hu hj => ?_⟩
    · cases hi.cell_unique (k := none) hm hk
    · have hl : s.cell (some j) = some p := by rw [State.cell,hu]; exact hj
      exact Option.some.inj (hi.cell_unique hl hk)
  connfd fd hf := by
    obtain ⟨c,hc,-⟩ := hi.conn_of_thread ht hf
    exact ⟨(hi.descs fd (.client i)).mpr ((desc_client ht).trans hf),by rw [hc]; rfl⟩
  clientfd fd hf := (hi.descs fd (.server i)).mpr ((desc_server ht).trans hf)

def visit (d : Byte) : Conn where
  world := ⟨⟨ascii "GET http://h/ V\r\n\r\n",false⟩,⟨ascii "V 200 OK\r\n\r\n",false⟩,
    fun _ _ => true,100,100,[],[]⟩
  kernel := ⟨[.short 3,.interrupted],[],[],[.interrupted],List.replicate Rio.rioBufsize 0,
    List.replicate Rio.rioBufsize 0,List.length_replicate,List.length_replicate⟩
  peer := some (10,0,0,d)

def State.idle (s : State) : Bool :=
  match s.main with
  | .malloc => s.threads.all fun t => match t with
    | .done => true
    | _ => false
  | _ => false

theorem done_of_idle (h : s.idle = true) : s.main = .malloc ∧ ∀ t ∈ s.threads, t = .done := by
  unfold State.idle at h
  split at h
  · refine ⟨‹_›,fun t ht => ?_⟩
    have hd := List.all_eq_true.mp h t ht
    cases t with
    | done => rfl
    | _ => cases hd
  · cases h

-- two clients at a time; the second logs first
def twoVisits : List Act :=
  [.malloc 1 ⟨0,0⟩,.accept 5 (visit 7),.main,.main,.malloc 2 ⟨9,9⟩,.thread 0,.accept 6 (visit 8),
    .main,.thread 0,.main,.thread 1,.thread 0,.thread 1,.connect 0 7,.thread 1,.connect 1 8,.thread 1,
    .thread 0,.clock 0 (ascii "T"),.clock 1 (ascii "T")] ++
    List.replicate 28 (.thread 1) ++ List.replicate 28 (.thread 0)

theorem run_twoVisits : ∃ s, run twoVisits start = some s ∧ s.idle = true :=
  exists_run (by decide +kernel)

end Server

end Proxy
