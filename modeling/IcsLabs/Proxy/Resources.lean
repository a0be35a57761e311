import IcsLabs.Lib.Owners
import IcsLabs.Proxy.Server

namespace Proxy
namespace Server

open Bytes Owners

-- what one step can do, one constructor for each branch; c is the connection of thread i
inductive Steps : State → State → Prop
  | malloc {s : State} {p junk} (hm : s.main = .malloc) (hp : s.cells p = none) :
    Steps s { s with main := .accept p, cells := Function.update s.cells p (some junk) }
  | accept {s : State} {p fd} {c : Cell} {conn : Conn} (hm : s.main = .accept p)
      (hf : s.table fd = none) (hp : s.cells p = some c) :
    Steps s { s with
      main := .name p
      conns := s.conns ++ [conn]
      table := Function.update s.table fd (some (.client s.conns.length))
      cells := Function.update s.cells p (some { c with connfd := fd }) }
  | name {s : State} {p} {c : Cell} {conn : Conn} (hm : s.main = .name p)
      (hp : s.cells p = some c) (hc : s.conns.getLast? = some conn) :
    Steps s { s with
      main := .create p
      cells := Function.update s.cells p (some { c with addr := inetPton conn.peer c.addr }) }
  | create {s : State} {p} (hm : s.main = .create p) :
    Steps s { s with main := .malloc, threads := s.threads ++ [.enter p] }
  | fail {s : State} : Steps s { s with exited := true }
  | enter {s : State} {i p} {c : Cell} (ht : s.threads[i]? = some (.enter p))
      (hp : s.cells p = some c) :
    Steps s (s.goto i (.load p c.addr))
  | load {s : State} {i p addr} {c : Cell} (ht : s.threads[i]? = some (.load p addr))
      (hp : s.cells p = some c) :
    Steps s (s.goto i (.free p addr c.connfd))
  | free {s : State} {i p addr fd} (ht : s.threads[i]? = some (.free p addr fd)) :
    Steps s ({ s with cells := Function.update s.cells p none }.goto i (.doit addr fd))
  | refuse {s : State} {i addr fd} {c : Conn} (ht : s.threads[i]? = some (.doit addr fd))
      (hc : s.conns[i]? = some c) (ho : c.trip.opened = false) :
    Steps s ({ s with served := s.served ++ [(i,c.trip.outcome)] }.goto i (.close fd))
  | connect {s : State} {i addr fd clientfd} {c : Conn} (ht : s.threads[i]? = some (.doit addr fd))
      (hf : s.table clientfd = none) (hc : s.conns[i]? = some c) :
    Steps s ({ s with table := Function.update s.table clientfd (some (.server i)) }.goto i
      (.relay addr fd clientfd))
  | relay {s : State} {i addr fd clientfd} {c : Conn}
      (ht : s.threads[i]? = some (.relay addr fd clientfd)) (hc : s.conns[i]? = some c) :
    Steps s ({ s with
      table := Function.update s.table clientfd none
      served := s.served ++ [(i,c.trip.outcome)] }.goto i
        (afterExchange addr fd c.trip.outcome.log))
  | format {s : State} {i addr fd e now} (ht : s.threads[i]? = some (.format addr fd e)) :
    Steps s (s.goto i (.wait fd (logText now ⟨addr⟩ e)))
  | wait {s : State} {i fd line} (ht : s.threads[i]? = some (.wait fd line)) (hs : 0 < s.sem) :
    Steps s ({ s with sem := s.sem - 1 }.goto i (.print fd (line ++ ascii "\n")))
  | byte {s : State} {i fd b left} (ht : s.threads[i]? = some (.print fd (b :: left))) :
    Steps s ({ s with stdout := s.stdout ++ [b] }.goto i (.print fd left))
  | post {s : State} {i fd} (ht : s.threads[i]? = some (.print fd [])) :
    Steps s ({ s with sem := s.sem + 1 }.goto i (.close fd))
  | close {s : State} {i fd} (ht : s.threads[i]? = some (.close fd)) :
    Steps s ({ s with table := Function.update s.table fd none }.goto i .done)

section Resources

def Main.cell : Main → Option Nat
  | .accept p | .name p | .create p => some p
  | .malloc => none

def Main.connfd (cells : Nat → Option Cell) : Main → Option Nat
  | .name p | .create p => (cells p).map Cell.connfd
  | .malloc | .accept _ => none

namespace Thread

def cell : Thread → Option Nat
  | .enter p | .load p _ | .free p _ _ => some p
  | _ => none

-- the socket of the client that the thread has, perhaps in its cell still
def connfd (cells : Nat → Option Cell) : Thread → Option Nat
  | .enter p | .load p _ => (cells p).map Cell.connfd
  | .free _ _ fd | .doit _ fd | .relay _ fd _ | .format _ fd _ | .wait fd _ | .print fd _
  | .close fd => some fd
  | .done => none

def clientfd : Thread → Option Nat
  | .relay _ _ fd => some fd
  | _ => none

end Thread

namespace State

-- the cell of main, and of thread i
def cell (s : State) : Option Nat → Option Nat
  | none => s.main.cell
  | some i => (s.threads[i]?).bind Thread.cell

def desc (s : State) : Desc → Option Nat
  | .client n =>
    if n = s.threads.length then s.main.connfd s.cells
    else (s.threads[n]?).bind (Thread.connfd s.cells)
  | .server n => (s.threads[n]?).bind Thread.clientfd

-- main has a connection that has no thread
def pending (s : State) : Bool :=
  match s.main with
  | .name _ | .create _ => true
  | .malloc | .accept _ => false

end State

variable {s u : State} {a : Act} {i n p fd clientfd : Nat} {t t' : Thread}

-- each allocated cell is main's or one thread's, each socket one connection's
structure Inv (s : State) : Prop where
  safe : s.fault = false
  conns : s.conns.length = s.threads.length + s.pending.toNat
  cells : ∃ holder, (∀ p, (holder p).isSome = (s.cells p).isSome) ∧ Tracks holder s.cell
  descs : Tracks s.table s.desc

theorem inv_start : Inv start :=
  ⟨rfl,rfl,⟨fun _ => none,fun _ => rfl,fun r k => by cases k <;> simp [State.cell,start,Main.cell]⟩,
    fun r k => by cases k <;> simp [State.desc,start,Main.connfd]⟩

theorem lt_of_thread (ht : s.threads[i]? = some t) : i < s.threads.length :=
  (List.getElem?_eq_some_iff.mp ht).1

theorem goto_threads (ht : s.threads[i]? = some t) (t' : Thread) (j : Nat) :
    (s.threads.set i t')[j]? = if j = i then some t' else s.threads[j]? := by
  rw [List.getElem?_set]
  by_cases hj : i = j
  · rw [if_pos hj,if_pos hj.symm,if_pos (lt_of_thread ht)]
  · rw [if_neg hj,if_neg (Ne.symm hj)]

theorem cell_goto (ht : s.threads[i]? = some t) (t' : Thread) :
    (s.goto i t').cell = Function.update s.cell (some i) t'.cell := by
  funext k
  cases k with
  | none => rfl
  | some j =>
    rw [State.cell,State.goto,goto_threads ht]
    by_cases hj : j = i
    · subst hj
      rw [if_pos rfl,Function.update_self,Option.bind_some]
    · rw [if_neg hj,Function.update_of_ne (fun h => hj (Option.some.inj h)),State.cell]

theorem cell_same (ht : s.threads[i]? = some t) (h : t'.cell = t.cell) :
    (s.goto i t').cell = s.cell := by
  rw [cell_goto ht,h,Function.update_eq_self_iff,State.cell,ht,Option.bind_some]

theorem desc_goto (ht : s.threads[i]? = some t) (t' : Thread) : (s.goto i t').desc =
    Function.update (Function.update s.desc (.client i) (t'.connfd s.cells)) (.server i)
      t'.clientfd := by
  have hi := lt_of_thread ht
  funext d
  cases d with
  | client n =>
    rw [Function.update_of_ne (by simp)]
    simp only [State.desc,State.goto,goto_threads ht,List.length_set]
    by_cases hn : n = i
    · subst hn
      rw [Function.update_self,if_neg (by omega),if_pos rfl,Option.bind_some]
    · rw [Function.update_of_ne (by simpa using hn),if_neg hn,State.desc]
  | server n =>
    simp only [State.desc,State.goto,goto_threads ht]
    by_cases hn : n = i
    · subst hn
      rw [Function.update_self,if_pos rfl,Option.bind_some]
    · rw [Function.update_of_ne (by simpa using hn),Function.update_of_ne (by simp),if_neg hn,
        State.desc]

theorem desc_client (ht : s.threads[i]? = some t) : s.desc (.client i) = t.connfd s.cells := by
  rw [State.desc,if_neg (Nat.ne_of_lt (lt_of_thread ht)),ht,Option.bind_some]

theorem desc_server (ht : s.threads[i]? = some t) : s.desc (.server i) = t.clientfd := by
  rw [State.desc,ht,Option.bind_some]

theorem desc_kept (ht : s.threads[i]? = some t) (h : t'.connfd s.cells = t.connfd s.cells) :
    (s.goto i t').desc = Function.update s.desc (.server i) t'.clientfd := by
  rw [desc_goto ht,h,← desc_client ht,Function.update_eq_self]

theorem desc_same (ht : s.threads[i]? = some t) (h : t'.connfd s.cells = t.connfd s.cells)
    (hc : t'.clientfd = t.clientfd) : (s.goto i t').desc = s.desc := by
  rw [desc_kept ht h,hc,← desc_server ht,Function.update_eq_self]

theorem Inv.cell_some (hi : Inv s) {k : Option Nat} (hk : s.cell k = some p) :
    ∃ c, s.cells p = some c := by
  obtain ⟨holder,hs,ht⟩ := hi.cells
  rw [← Option.isSome_iff_exists,← hs,(ht p k).mpr hk]
  rfl

theorem Inv.cell_unique (hi : Inv s) {k l : Option Nat} (hk : s.cell k = some p)
    (hl : s.cell l = some p) : k = l := by
  obtain ⟨holder,-,ht⟩ := hi.cells
  exact ht.unique hk hl

theorem Inv.cell_fresh (hi : Inv s) (hp : s.cells p = none) (k : Option Nat) :
    s.cell k ≠ some p := fun hk => by
  obtain ⟨c,hc⟩ := hi.cell_some hk
  rw [hc] at hp
  cases hp

theorem Inv.thread_cell (hi : Inv s) (ht : s.threads[i]? = some t) (hc : t.cell = some p) :
    ∃ c, s.cells p = some c :=
  hi.cell_some (k := some i) (by rw [State.cell,ht]; exact hc)

theorem Inv.conn_of_thread (hi : Inv s) (ht : s.threads[i]? = some t)
    (hf : t.connfd s.cells = some fd) : ∃ c, s.conns[i]? = some c ∧ s.conn fd = some (i,c) := by
  have hlt := lt_of_thread ht
  have hlen := hi.conns
  obtain ⟨c,hc⟩ : ∃ c, s.conns[i]? = some c := ⟨_,List.getElem?_eq_getElem (by omega)⟩
  have htab := (hi.descs fd (.client i)).mpr ((desc_client ht).trans hf)
  exact ⟨c,hc,by simp only [State.conn,htab,hc,Option.map_some]⟩

theorem steps_thread (hi : Inv s) (ht : s.threads[i]? = some t) (h : threadStep i t s = some u) :
    Steps s u := by
  cases t with
  | enter p =>
    obtain ⟨c,hc⟩ := hi.thread_cell ht rfl
    rw [threadStep,hc] at h
    exact Option.some.inj h ▸ .enter ht hc
  | load p addr =>
    obtain ⟨c,hc⟩ := hi.thread_cell ht rfl
    rw [threadStep,hc] at h
    exact Option.some.inj h ▸ .load ht hc
  | free p addr fd =>
    obtain ⟨c,hc⟩ := hi.thread_cell ht rfl
    rw [threadStep,hc] at h
    exact Option.some.inj h ▸ .free ht
  | doit addr fd =>
    obtain ⟨c,hc,hf⟩ := hi.conn_of_thread ht rfl
    simp only [threadStep,hf] at h
    split at h
    · cases h
    · exact Option.some.inj h ▸ .refuse ht hc (Bool.eq_false_of_not_eq_true ‹_›)
  | relay addr fd clientfd =>
    obtain ⟨c,hc,hf⟩ := hi.conn_of_thread ht rfl
    have htab := (hi.descs clientfd (.server i)).mpr (desc_server ht)
    simp only [threadStep,hf,htab] at h
    exact Option.some.inj h ▸ .relay ht hc
  | format addr fd e => cases h
  | wait fd line =>
    rw [threadStep] at h
    split at h
    · exact Option.some.inj h ▸ .wait ht ‹_›
    · cases h
  | print fd left =>
    cases left with
    | nil => exact Option.some.inj h ▸ .post ht
    | cons b left => exact Option.some.inj h ▸ .byte ht
  | close fd =>
    have htab := (hi.descs fd (.client i)).mpr (desc_client ht)
    rw [threadStep,htab] at h
    exact Option.some.inj h ▸ .close ht
  | done => cases h

theorem steps_main (hi : Inv s) (h : mainStep s = some u) : Steps s u := by
  rw [mainStep] at h
  split at h
  case h_1 p hm =>
    obtain ⟨c,hc⟩ := hi.cell_some (k := none) (p := p) (by rw [State.cell,hm]; rfl)
    have hlen := hi.conns
    rw [State.pending,hm] at hlen
    cases hl : s.conns.getLast? with
    | none =>
      rw [List.getLast?_eq_none_iff.mp hl] at hlen
      simp at hlen
    | some conn =>
      rw [hc,hl] at h
      exact Option.some.inj h ▸ .name hm hc hl
  case h_2 p hm => exact Option.some.inj h ▸ .create hm
  case h_3 => cases h

theorem steps_accept (hi : Inv s) {conn : Conn} (h : acceptStep fd conn s = some u) :
    Steps s u := by
  rw [acceptStep] at h
  split at h
  case h_1 p hm hf =>
    obtain ⟨c,hc⟩ := hi.cell_some (k := none) (p := p) (by rw [State.cell,hm]; rfl)
    rw [hc] at h
    exact Option.some.inj h ▸ .accept hm hf hc
  case h_2 => cases h

theorem steps_connect (hi : Inv s) (ht : s.threads[i]? = some t)
    (h : connectStep i clientfd t s = some u) : Steps s u := by
  unfold connectStep at h
  split at h
  case h_1 addr fd hf =>
    obtain ⟨c,hc,hs⟩ := hi.conn_of_thread ht rfl
    rw [hs] at h
    dsimp only at h
    split at h
    · exact Option.some.inj h ▸ .connect ht hf hc
    · cases h
  case h_2 => cases h

theorem steps_of_step (hi : Inv s) (h : step a s = some u) : Steps s u := by
  unfold step at h
  split at h
  · cases h
  cases a with
  | malloc p junk =>
    dsimp only at h
    split at h
    · exact Option.some.inj h ▸ .malloc ‹_› ‹_›
    · cases h
  | accept fd conn => exact steps_accept hi h
  | main => exact steps_main hi h
  | fail => exact Option.some.inj h ▸ .fail
  | thread i =>
    obtain ⟨t,ht,h⟩ := Option.bind_eq_some_iff.mp h
    exact steps_thread hi ht h
  | connect i clientfd =>
    obtain ⟨t,ht,h⟩ := Option.bind_eq_some_iff.mp h
    exact steps_connect hi ht h
  | clock i now =>
    dsimp only at h
    split at h
    · exact Option.some.inj h ▸ .format ‹_›
    · cases h

theorem Inv.goto (hi : Inv s) (ht : s.threads[i]? = some t) (h1 : t'.cell = t.cell)
    (h2 : t'.connfd s.cells = t.connfd s.cells) (h3 : t'.clientfd = t.clientfd) :
    Inv (s.goto i t') := by
  refine ⟨hi.safe,?_,?_,?_⟩
  · simpa [State.goto,State.pending] using hi.conns
  · rw [cell_same ht h1]
    exact hi.cells
  · rw [desc_same ht h2 h3]
    exact hi.descs

theorem Inv.connect (hi : Inv s) (ht : s.threads[i]? = some t) (h1 : t'.cell = t.cell)
    (h2 : t'.connfd s.cells = t.connfd s.cells) (hc : t.clientfd = none)
    (h3 : t'.clientfd = some clientfd) (hf : s.table clientfd = none) :
    Inv ({ s with table := Function.update s.table clientfd (some (.server i)) }.goto i t') := by
  refine ⟨hi.safe,?_,?_,?_⟩
  · simpa [State.goto,State.pending] using hi.conns
  · rw [cell_same (s := { s with table := Function.update s.table clientfd (some (.server i)) }) ht h1]
    exact hi.cells
  · rw [desc_kept (s := { s with table := Function.update s.table clientfd (some (.server i)) }) ht h2,h3]
    exact hi.descs.acquire hf ((desc_server ht).trans hc)

theorem Inv.disconnect (hi : Inv s) (ht : s.threads[i]? = some t) (h1 : t'.cell = t.cell)
    (h2 : t'.connfd s.cells = t.connfd s.cells) (hc : t.clientfd = some clientfd)
    (h3 : t'.clientfd = none) :
    Inv ({ s with table := Function.update s.table clientfd none }.goto i t') := by
  refine ⟨hi.safe,?_,?_,?_⟩
  · simpa [State.goto,State.pending] using hi.conns
  · rw [cell_same (s := { s with table := Function.update s.table clientfd none }) ht h1]
    exact hi.cells
  · rw [desc_kept (s := { s with table := Function.update s.table clientfd none }) ht h2,h3]
    exact hi.descs.release ((desc_server ht).trans hc)

theorem Inv.close (hi : Inv s) (ht : s.threads[i]? = some (.close fd)) :
    Inv ({ s with table := Function.update s.table fd none }.goto i .done) := by
  refine ⟨hi.safe,?_,?_,?_⟩
  · simpa [State.goto,State.pending] using hi.conns
  · rw [cell_same (s := { s with table := Function.update s.table fd none }) ht
      (show Thread.done.cell = _ from rfl)]
    exact hi.cells
  · have hd : ({ s with table := Function.update s.table fd none }.goto i .done).desc =
        Function.update s.desc (.client i) none := by
      refine (desc_goto (s := { s with table := Function.update s.table fd none }) ht .done).trans
        (Function.update_eq_self_iff.mpr ?_)
      rw [Function.update_of_ne (by simp)]
      exact (desc_server ht).symm
    rw [hd]
    exact hi.descs.release (desc_client ht)

theorem connfd_update (h : t.cell ≠ some p) (c : Option Cell) :
    t.connfd (Function.update s.cells p c) = t.connfd s.cells := by
  cases t with
  | enter q | load q addr =>
    rw [Thread.connfd,Function.update_of_ne (fun hq => h (congrArg some hq)),Thread.connfd]
  | _ => rfl

theorem Main.connfd_update (h : s.main.cell ≠ some p) (c : Option Cell) :
    s.main.connfd (Function.update s.cells p c) = s.main.connfd s.cells := by
  cases hm : s.main with
  | name q | create q =>
    rw [hm] at h
    rw [Main.connfd,Function.update_of_ne (fun hq => h (congrArg some hq)),Main.connfd]
  | _ => rfl

theorem Inv.free (hi : Inv s) {addr : BitVec 32} (ht : s.threads[i]? = some (.free p addr fd)) :
    Inv ({ s with cells := Function.update s.cells p none }.goto i (.doit addr fd)) := by
  have hp : s.cell (some i) = some p := by rw [State.cell,ht]; rfl
  refine ⟨hi.safe,?_,?_,?_⟩
  · simpa [State.goto,State.pending] using hi.conns
  · obtain ⟨holder,hs,htr⟩ := hi.cells
    refine ⟨Function.update holder p none,fun q => ?_,?_⟩
    · by_cases hq : q = p
      · simp [hq,State.goto]
      · simp [State.goto,Function.update_of_ne hq,hs]
    · rw [cell_goto (s := { s with cells := Function.update s.cells p none }) ht]
      exact htr.release hp
  · have hd : ({ s with cells := Function.update s.cells p none }.goto i (.doit addr fd)).desc =
        s.desc := by
      funext d
      rw [desc_goto (s := { s with cells := Function.update s.cells p none }) ht]
      cases d with
      | server n =>
        by_cases hn : n = i
        · rw [hn,Function.update_self,desc_server ht]
          rfl
        · rw [Function.update_of_ne (by simpa using hn),Function.update_of_ne (by simp)]
          rfl
      | client n =>
        rw [Function.update_of_ne (by simp)]
        by_cases hn : n = i
        · rw [hn,Function.update_self,desc_client ht]
          rfl
        rw [Function.update_of_ne (by simpa using hn),State.desc,State.desc]
        split
        · refine Main.connfd_update (fun hm => ?_) none
          cases hi.cell_unique (k := none) hm hp
        · cases hn' : s.threads[n]? with
          | none => rfl
          | some t =>
            refine connfd_update (fun hm => hn ?_) none
            exact Option.some.inj (hi.cell_unique (k := some n) (by rw [State.cell,hn']; exact hm) hp)
    rw [hd]
    exact hi.descs

theorem Inv.malloc (hi : Inv s) {junk : Cell} (hm : s.main = .malloc) (hp : s.cells p = none) :
    Inv { s with main := .accept p, cells := Function.update s.cells p (some junk) } := by
  have hfresh := hi.cell_fresh hp
  refine ⟨hi.safe,?_,?_,?_⟩
  · have hlen := hi.conns
    simpa [State.pending,hm] using hlen
  · obtain ⟨holder,hs,htr⟩ := hi.cells
    refine ⟨Function.update holder p (some none),fun q => ?_,?_⟩
    · by_cases hq : q = p
      · simp [hq]
      · simp [Function.update_of_ne hq,hs]
    · have hc : ({ s with main := .accept p, cells := Function.update s.cells p (some junk) } :
          State).cell = Function.update s.cell none (some p) := by
        funext k
        cases k <;> rfl
      rw [hc]
      refine htr.acquire ?_ (by rw [State.cell,hm]; rfl)
      have hh := hs p
      rw [hp,Option.isSome_none,Option.isSome_eq_false_iff,Option.isNone_iff_eq_none] at hh
      exact hh
  · have hd : ({ s with main := .accept p, cells := Function.update s.cells p (some junk) } :
        State).desc = s.desc := by
      funext d
      cases d with
      | server n => rfl
      | client n =>
        rw [State.desc,State.desc,hm]
        split
        · rfl
        · cases hn : s.threads[n]? with
          | none => rfl
          | some t =>
            exact connfd_update (fun ht => hfresh (some n) (by rw [State.cell,hn]; exact ht)) _
    rw [hd]
    exact hi.descs

theorem Inv.holder_update (hi : Inv s) (hk : s.cell none = some p) (c : Cell) :
    ∃ holder, (∀ q, (holder q).isSome = (Function.update s.cells p (some c) q).isSome) ∧
      Tracks holder s.cell := by
  obtain ⟨holder,hs,htr⟩ := hi.cells
  refine ⟨holder,fun q => ?_,htr⟩
  by_cases hq : q = p
  · rw [hq,Function.update_self,(htr p none).mpr hk]
    rfl
  · rw [Function.update_of_ne hq,hs]

theorem Inv.thread_connfd (hi : Inv s) (hk : s.cell none = some p) (c : Cell) (n : Nat) :
    (s.threads[n]?).bind (Thread.connfd (Function.update s.cells p (some c))) =
      (s.threads[n]?).bind (Thread.connfd s.cells) := by
  cases hn : s.threads[n]? with
  | none => rfl
  | some t =>
    refine connfd_update (fun ht => ?_) _
    cases hi.cell_unique (k := some n) (by rw [State.cell,hn]; exact ht) hk

theorem Inv.accept (hi : Inv s) {c : Cell} {conn : Conn} (hm : s.main = .accept p)
    (hf : s.table fd = none) :
    Inv { s with
      main := .name p
      conns := s.conns ++ [conn]
      table := Function.update s.table fd (some (.client s.conns.length))
      cells := Function.update s.cells p (some { c with connfd := fd }) } := by
  have hk : s.cell none = some p := by rw [State.cell,hm]; rfl
  have hlen : s.conns.length = s.threads.length := by
    have hl := hi.conns
    rw [State.pending,hm] at hl
    exact hl
  refine ⟨hi.safe,?_,?_,?_⟩
  · simpa [State.pending] using hlen
  · have hc : State.cell { s with
        main := .name p
        conns := s.conns ++ [conn]
        table := Function.update s.table fd (some (.client s.conns.length))
        cells := Function.update s.cells p (some { c with connfd := fd }) } = s.cell := by
      funext k
      cases k with
      | none => exact hk.symm
      | some j => rfl
    rw [hc]
    exact hi.holder_update hk _
  · have hd : State.desc { s with
        main := .name p
        conns := s.conns ++ [conn]
        table := Function.update s.table fd (some (.client s.conns.length))
        cells := Function.update s.cells p (some { c with connfd := fd }) } =
        Function.update s.desc (.client s.conns.length) (some fd) := by
      funext d
      cases d with
      | server n => rfl
      | client n =>
        rw [hlen,State.desc]
        by_cases hn : n = s.threads.length
        · rw [if_pos hn,hn,Function.update_self]
          simp only [Main.connfd,Function.update_self,Option.map_some]
        · rw [if_neg hn,Function.update_of_ne (by simpa using hn),State.desc,if_neg hn]
          exact hi.thread_connfd hk _ n
    rw [hd]
    refine hi.descs.acquire hf ?_
    rw [hlen,State.desc,if_pos rfl,hm]
    rfl

theorem Inv.name (hi : Inv s) {c : Cell} {addr : BitVec 32} (hm : s.main = .name p)
    (hp : s.cells p = some c) :
    Inv { s with
      main := .create p, cells := Function.update s.cells p (some { c with addr := addr }) } := by
  have hk : s.cell none = some p := by rw [State.cell,hm]; rfl
  refine ⟨hi.safe,?_,?_,?_⟩
  · have hlen := hi.conns
    simpa [State.pending,hm] using hlen
  · have hc : State.cell { s with
        main := .create p, cells := Function.update s.cells p (some { c with addr := addr }) } =
        s.cell := by
      funext k
      cases k with
      | none => exact hk.symm
      | some j => rfl
    rw [hc]
    exact hi.holder_update hk _
  · have hd : State.desc { s with
        main := .create p, cells := Function.update s.cells p (some { c with addr := addr }) } =
        s.desc := by
      funext d
      cases d with
      | server n => rfl
      | client n =>
        simp only [State.desc,hm,Main.connfd,Function.update_self,hp,Option.map_some,
          hi.thread_connfd hk]
    rw [hd]
    exact hi.descs

theorem Inv.create (hi : Inv s) (hm : s.main = .create p) :
    Inv { s with main := .malloc, threads := s.threads ++ [.enter p] } := by
  have hk : s.cell none = some p := by rw [State.cell,hm]; rfl
  have hnone : s.threads[s.threads.length]? = none := List.getElem?_eq_none (Nat.le_refl _)
  refine ⟨hi.safe,?_,?_,?_⟩
  · have hlen := hi.conns
    simpa [State.pending,hm] using hlen
  · have hc : State.cell { s with main := .malloc, threads := s.threads ++ [.enter p] } =
        Function.update (Function.update s.cell none none) (some s.threads.length) (some p) := by
      funext k
      cases k with
      | none => rfl
      | some j =>
        by_cases hj : j = s.threads.length
        · simp [State.cell,hj,Thread.cell]
        · rw [Function.update_of_ne (fun h => hj (Option.some.inj h)),Function.update_of_ne (by simp),
            State.cell,State.cell,List.getElem?_append]
          split
          · rfl
          · rw [List.getElem?_eq_none (by simp; omega),List.getElem?_eq_none (by omega)]
    obtain ⟨holder,hs,htr⟩ := hi.cells
    rw [hc]
    refine ⟨Function.update holder p (some (some s.threads.length)),fun q => ?_,
      htr.pass hk (by rw [State.cell,hnone]; rfl)⟩
    by_cases hq : q = p
    · rw [hq,Function.update_self]
      obtain ⟨c,hc⟩ := hi.cell_some hk
      exact (congrArg Option.isSome hc).symm
    · rw [Function.update_of_ne hq,hs]
  · have hd : State.desc { s with main := .malloc, threads := s.threads ++ [.enter p] } = s.desc := by
      funext d
      cases d with
      | server n =>
        rw [State.desc,State.desc,List.getElem?_append]
        split
        · rfl
        · rw [List.getElem?_eq_none (by omega : s.threads.length ≤ n)]
          cases h : n - s.threads.length <;> simp [Thread.clientfd]
      | client n =>
        rw [State.desc,State.desc,List.length_append,List.length_singleton,hm]
        by_cases hn : n = s.threads.length
        · rw [if_neg (by omega),if_pos hn,hn]
          simp [Thread.connfd,Main.connfd]
        rw [if_neg hn,List.getElem?_append]
        by_cases hlt : n < s.threads.length
        · rw [if_neg (by omega),if_pos hlt]
        · rw [if_neg hlt,List.getElem?_eq_none (by omega : s.threads.length ≤ n)]
          split
          · rfl
          · rw [List.getElem?_eq_none (by simp; omega)]
    rw [hd]
    exact hi.descs

theorem Inv.other (hi : Inv s) (exited : Bool) (sem : Nat) (stdout : List Byte)
    (served : List (Nat × Outcome)) :
    Inv { s with exited := exited, sem := sem, stdout := stdout, served := served } :=
  ⟨hi.safe,hi.conns,hi.cells,hi.descs⟩

theorem inv_steps (hi : Inv s) (h : Steps s u) : Inv u := by
  cases h with
  | malloc hm hp => exact hi.malloc hm hp
  | accept hm hf hp => exact hi.accept hm hf
  | name hm hp hc => exact hi.name hm hp
  | create hm => exact hi.create hm
  | fail => exact hi.other true ..
  | enter ht hp => exact hi.goto ht rfl rfl rfl
  | load ht hp => exact hi.goto ht rfl (by rw [Thread.connfd,Thread.connfd,hp,Option.map_some]) rfl
  | free ht => exact hi.free ht
  | refuse ht hc ho => exact (hi.other ..).goto ht rfl rfl rfl
  | connect ht hf hc => exact hi.connect ht rfl rfl rfl rfl hf
  | @relay i addr fd clientfd c ht hc =>
    have hkept : (afterExchange addr fd c.trip.outcome.log).cell = none ∧
        (afterExchange addr fd c.trip.outcome.log).connfd s.cells = some fd ∧
        (afterExchange addr fd c.trip.outcome.log).clientfd = none := by
      unfold afterExchange
      split <;> exact ⟨rfl,rfl,rfl⟩
    exact (hi.other s.exited s.sem s.stdout (s.served ++ [(i,c.trip.outcome)])).disconnect ht
      hkept.1 hkept.2.1 rfl hkept.2.2
  | format ht => exact hi.goto ht rfl rfl rfl
  | wait ht hs => exact (hi.other ..).goto ht rfl rfl rfl
  | byte ht => exact (hi.other ..).goto ht rfl rfl rfl
  | post ht => exact (hi.other ..).goto ht rfl rfl rfl
  | close ht => exact hi.close ht

end Resources

end Server

end Proxy
