import IcsLabs.Tsh.Parseline

namespace Tsh
open CString

-- an argument of a command line: a plain word, or a text between quotes
structure Arg where
  quoted : Bool
  text : List Char
  chars : ∀ c ∈ text, c ≠ nul ∧ c ≠ '\n' ∧ c ≠ if quoted then quote else ' '
  word : quoted = false → text ≠ [] ∧ text.head? ≠ some quote

def Arg.spelled (x : Arg) : List Char := if x.quoted then quote :: (x.text ++ [quote]) else x.text

-- how parseline cuts a text; an unclosed quote ends it
inductive Cut : List Char → List Arg → Prop
  | done : Cut [] []
  | blank {s as} : Cut s as → Cut (' ' :: s) as
  | unclosed {s} : quote ∉ s → Cut (quote :: s) []
  | quoted {s as} (x : Arg) : x.quoted = true → Cut s as → Cut (quote :: (x.text ++ quote :: s)) (x :: as)
  | word {s as} (x : Arg) : x.quoted = false → Cut s as → Cut (x.text ++ ' ' :: s) (x :: as)

-- the arguments as stand at the start of a text
inductive Begins : List Arg → List Char → Prop
  | nil {s} : Begins [] s
  | blank {s as} : Begins as s → Begins as (' ' :: s)
  | quoted {s as} (x : Arg) : x.quoted = true → Begins as s → Begins (x :: as) (quote :: (x.text ++ quote :: s))
  | word {s as} (x : Arg) : x.quoted = false → Begins as s → Begins (x :: as) (x.text ++ ' ' :: s)

-- argv holds the arguments from index n on
def Fills (a : Nat → Char) (argv : Nat → Option Nat) : Nat → List Arg → Prop
  | _, [] => True
  | n, x :: as => (∃ q, argv n = some q ∧ Holds a q x.text) ∧ Fills a argv (n + 1) as

section Loop

variable {a b : Nat → Char} {argv argv' : Nat → Option Nat} {p n k : Nat} {s : List Char} {as : List Arg}

theorem Arg.nul_notMem (x : Arg) : nul ∉ x.text := fun h => (x.chars _ h).1 rfl

theorem Arg.quote_notMem {x : Arg} (hq : x.quoted = true) : quote ∉ x.text := fun h => by
  have hc := (x.chars _ h).2.2
  rw [hq] at hc
  exact hc rfl

theorem Arg.space_notMem {x : Arg} (hq : x.quoted = false) : ' ' ∉ x.text := fun h => by
  have hc := (x.chars _ h).2.2
  rw [hq] at hc
  exact hc rfl

-- what the rest of the loop makes of the state t when the text at p holds as
def Loops (p : Nat) (t : Parse) (as : List Arg) (out : Traced Nat (Option Parse)) : Prop :=
  ∃ u, out = ⟨some u,List.range' t.argc as.length⟩ ∧ u.argc = t.argc + as.length ∧
    (∀ i, i < p → u.array i = t.array i) ∧ (∀ i, i < t.argc → u.argv i = t.argv i) ∧
      Fills u.array u.argv t.argc as

theorem Loops.done (p : Nat) (t : Parse) : Loops p t [] (return some t) :=
  ⟨t,rfl,rfl,fun _ _ => rfl,fun _ _ => rfl,trivial⟩

theorem Loops.turn {t : Parse} {buf : Nat} {x : Arg} (hp : p ≤ buf) {c : Char}
    (hx : Holds t.array buf (x.text ++ c :: s)) {out : Traced Nat (Option Parse)}
    (h : Loops (buf + x.text.length + 1)
      ⟨Function.update t.array (buf + x.text.length) nul,Function.update t.argv t.argc (some buf),
        t.argc + 1⟩ as out) : Loops p t (x :: as) ⟨out.val,t.argc :: out.log⟩ := by
  obtain ⟨u,rfl,hargc,harr,hargv,hfills⟩ := h
  have hcount : u.argc = t.argc + 1 + as.length := hargc
  refine ⟨u,?_,?_,fun i hi => ?_,fun i hi => ?_,⟨buf,?_,?_⟩,hfills⟩
  · rw [List.length_cons,List.range'_succ]
  · rw [hcount,List.length_cons]
    omega
  · rw [harr i (by omega)]
    exact Function.update_of_ne (by omega) _ _
  · rw [hargv i (by simp only; omega)]
    exact Function.update_of_ne (by omega) _ _
  · rw [hargv t.argc (Nat.lt_succ_self _)]
    exact Function.update_self _ _ _
  · exact hx.cut.congr fun i _ hi => harr i (by omega)

theorem holds_after {buf : Nat} {w : List Char} {c : Char} (h : Holds a buf (w ++ c :: s)) :
    Holds (Function.update a (buf + w.length) nul) (buf + w.length + 1) s :=
  h.drop.2.congr fun i h1 _ => Function.update_of_ne (by omega) _ _

theorem argLoop_cut (hc : Cut s as) {t : Parse} (hh : Holds t.array p s) (hn : nul ∉ s)
    (hs : s.length < maxLine) (hk : s.length ≤ k) :
    Loops p t as (argLoop k (nextToken t.array p).1 (nextToken t.array p).2 t) := by
  induction hc generalizing p t k with
  | done =>
    rw [nextToken_end hh,argLoop]
    exact .done p t
  | @blank s as _ ih =>
    rw [List.length_cons] at hs hk
    rw [nextToken_blank hh hs]
    obtain ⟨u,hout,hargc,harr,hrest⟩ := @ih (p + 1) k t hh.2 (fun h => hn (List.mem_cons_of_mem _ h))
      (by omega) (by omega)
    exact ⟨u,hout,hargc,fun i hi => harr i (by omega),hrest⟩
  | unclosed hq =>
    rw [nextToken_unclosed hh hq (by simpa using hs),argLoop]
    exact .done p t
  | @quoted s as x hq _ ih =>
    simp only [List.length_cons,List.length_append] at hs hk
    obtain ⟨k,rfl⟩ := Nat.exists_eq_add_one.mpr (show 0 < k by omega)
    have hns : nul ∉ s := fun h => hn (by simp [h])
    rw [nextToken_quoted hh (x.quote_notMem hq) x.nul_notMem (by omega),argLoop]
    exact .turn (Nat.le_succ p) hh.2 (ih (holds_after hh.2) hns (by omega) (by omega))
  | @word s as x hq _ ih =>
    simp only [List.length_cons,List.length_append] at hs hk
    obtain ⟨k,rfl⟩ := Nat.exists_eq_add_one.mpr (show 0 < k by omega)
    have hns : nul ∉ s := fun h => hn (by simp [h])
    obtain ⟨hne,hhead⟩ := x.word hq
    rw [nextToken_word hh hne hhead (x.space_notMem hq) x.nul_notMem (by omega),argLoop]
    exact .turn (Nat.le_refl p) hh (ih (holds_after hh) hns (by omega) (by omega))

end Loop

-- a text that ends where a word can end, of characters that a line can hold
structure Body (s : List Char) : Prop where
  nul : nul ∉ s
  newline : '\n' ∉ s
  last : ∀ h : s ≠ [], s.getLast h = ' '

section Body

variable {s w : List Char} {as : List Arg} {n : Nat}

theorem Body.drop (h : Body (w ++ s)) : Body s := by
  refine ⟨fun hm => h.nul (List.mem_append_right w hm),fun hm => h.newline (List.mem_append_right w hm),
    fun hs => ?_⟩
  rw [← List.getLast_append_of_ne_nil (l := w) (by simp [hs]) hs]
  exact h.last _

theorem body_line {line : List Char} (hn : nul ∉ line) (hl : '\n' ∉ line) : Body (line ++ [' ']) := by
  exact ⟨List.not_mem_append hn (by decide),List.not_mem_append hl (by decide),fun _ => by simp⟩

theorem chars_of_body (h : Body (w ++ s)) {c : Char} (hc : c ∉ w) :
    ∀ d ∈ w, d ≠ nul ∧ d ≠ '\n' ∧ d ≠ c := fun _ hd =>
  ⟨fun he => h.nul (he ▸ List.mem_append_left s hd),
    fun he => h.newline (he ▸ List.mem_append_left s hd),fun he => hc (he ▸ hd)⟩

theorem exists_cut (hs : Body s) : ∃ as, Cut s as := by
  induction hn : s.length using Nat.strong_induction_on generalizing s with
  | _ n ih =>
    subst hn
    cases s with
    | nil => exact ⟨[],.done⟩
    | cons c s =>
      have hrest : Body s := Body.drop (w := [c]) hs
      by_cases hb : c = ' '
      · subst hb
        obtain ⟨as,ha⟩ := ih s.length (Nat.lt_succ_self _) hrest rfl
        exact ⟨as,.blank ha⟩
      · by_cases hq : c = quote
        · subst hq
          by_cases hm : quote ∈ s
          · obtain ⟨w,t,rfl,hw⟩ := List.eq_append_cons_of_mem hm
            obtain ⟨as,ha⟩ := ih t.length (by simp; omega) (Body.drop (w := w ++ [quote]) (by simpa using hrest)) rfl
            exact ⟨_,.quoted ⟨true,w,chars_of_body hrest hw,fun h => by cases h⟩ rfl ha⟩
          · exact ⟨[],.unclosed hm⟩
        · have hm : ' ' ∈ c :: s := by
            have hl := hs.last (List.cons_ne_nil c s)
            exact hl ▸ List.getLast_mem _
          obtain ⟨w,t,he,hw⟩ := List.eq_append_cons_of_mem hm
          have hwne : w ≠ [] := by
            rintro rfl
            exact hb (List.cons.inj he).1
          have hhead : w.head? ≠ some quote := by
            obtain ⟨d,w,rfl⟩ := List.exists_cons_of_ne_nil hwne
            rw [List.head?_cons,← (List.cons.inj he).1]
            exact fun h => hq (Option.some.inj h)
          rw [he] at hs ih ⊢
          obtain ⟨as,ha⟩ := ih t.length (by simp; omega) (Body.drop (w := w ++ [' ']) (by simpa using hs)) rfl
          exact ⟨_,.word ⟨false,w,chars_of_body hs hw,fun _ => ⟨hwne,hhead⟩⟩ rfl ha⟩

theorem Cut.begins (h : Cut s as) (n : Nat) : Begins (as.take n) s := by
  induction h generalizing n with
  | done => simpa using Begins.nil
  | blank _ ih => exact .blank (ih n)
  | unclosed _ => simpa using Begins.nil
  | quoted x hq _ ih =>
    cases n with
    | zero => exact .nil
    | succ n => exact .quoted x hq (ih n)
  | word x hq _ ih =>
    cases n with
    | zero => exact .nil
    | succ n => exact .word x hq (ih n)

theorem Begins.cut (h : Begins as s) (hs : Body s) : ∃ more, Cut s (as ++ more) := by
  induction h with
  | nil => exact exists_cut hs
  | blank _ ih =>
    obtain ⟨more,hc⟩ := ih (Body.drop (w := [' ']) hs)
    exact ⟨more,.blank hc⟩
  | quoted x hq _ ih =>
    obtain ⟨more,hc⟩ := ih (Body.drop (w := quote :: (x.text ++ [quote])) (by simpa using hs))
    exact ⟨more,.quoted x hq hc⟩
  | word x hq _ ih =>
    obtain ⟨more,hc⟩ := ih (Body.drop (w := x.text ++ [' ']) (by simpa using hs))
    exact ⟨more,.word x hq hc⟩

end Body

end Tsh
