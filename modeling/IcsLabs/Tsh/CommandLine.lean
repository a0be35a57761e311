import IcsLabs.Tsh.Arguments

namespace Tsh
open CString

-- as with any number of spaces behind each, at least one between two
inductive Renders : List Arg → List Char → Prop
  | last (x : Arg) (n : Nat) : Renders [x] (x.spelled ++ List.replicate n ' ')
  | cons (x : Arg) (n : Nat) {as s} : Renders as s →
      Renders (x :: as) (x.spelled ++ List.replicate (n + 1) ' ' ++ s)

def typed (lead : Nat) (s : List Char) : List Char := List.replicate lead ' ' ++ s ++ ['\n']

-- the arguments as in argv, NULL behind them
def Hands (r : Int) (as : List Arg) (out : Traced Nat (Option (Int × Parse))) : Prop :=
  ∃ p, out.val = some (r,p) ∧ Fills p.array p.argv 0 as ∧ p.argv as.length = none ∧
    out.All (· < maxArgs)

section Fills

variable {a : Nat → Char} {argv argv' : Nat → Option Nat} {n : Nat} {as bs : List Arg} {x : Arg}

theorem Fills.congr (h : Fills a argv n as) (he : ∀ i, i < n + as.length → argv' i = argv i) :
    Fills a argv' n as := by
  induction as generalizing n with
  | nil => trivial
  | cons x as ih =>
    obtain ⟨⟨q,hq,hx⟩,hrest⟩ := h
    refine ⟨⟨q,(he n (by simp)).trans hq,hx⟩,ih hrest fun i hi => he i ?_⟩
    rw [List.length_cons]
    omega

theorem Fills.left (h : Fills a argv n (as ++ bs)) : Fills a argv n as := by
  induction as generalizing n with
  | nil => trivial
  | cons x as ih => exact ⟨h.1,ih h.2⟩

theorem Fills.at_last (h : Fills a argv n (as ++ [x])) :
    ∃ q, argv (n + as.length) = some q ∧ Holds a q x.text := by
  induction as generalizing n with
  | nil => exact h.1
  | cons y as ih =>
    have hn := ih h.2
    rwa [Nat.add_right_comm,Nat.add_assoc] at hn

theorem holds_head {p : Nat} {s : List Char} (h : Holds a p s) : a p = (s.head?).getD nul := by
  cases s with
  | nil => exact h
  | cons c s => exact h.1

end Fills

section Finish

variable {u : Parse} {as : List Arg} {x : Arg}

theorem finish_log (u : Parse) : (finish u).All (· < maxArgs) ↔ u.argc < maxArgs := by
  have hset : ∀ i p (s : Parse), (setArgv i p s).All (· < maxArgs) ↔ i < maxArgs := fun i p s =>
    Traced.all_mk _ _
  rw [finish,Traced.all_bind,hset]
  refine and_iff_left_of_imp fun h => ?_
  refine Traced.all_ite (fun _ => Traced.all_pure _) fun _ => Traced.all_ite (fun _ => ?_) fun _ =>
    Traced.all_pure _
  rw [Traced.all_bind,hset]
  exact ⟨Nat.lt_of_le_of_lt (Nat.sub_le _ _) h,Traced.all_pure _⟩

theorem firstChar_last (hc : u.argc = as.length + 1) (hf : Fills u.array u.argv 0 (as ++ [x]))
    (v : Option Nat) :
    firstChar { u with argv := Function.update u.argv u.argc v } (u.argc - 1) =
      (x.text.head?).getD nul := by
  obtain ⟨q,hq,hx⟩ := hf.at_last
  rw [Nat.zero_add] at hq
  have hlast : Function.update u.argv u.argc v (u.argc - 1) = some q := by
    rw [hc,Nat.add_sub_cancel,Function.update_of_ne (by omega),hq]
  simp only [firstChar,hlast,Option.map_some,Option.getD_some]
  exact holds_head hx

theorem finish_foreground (hc : u.argc = as.length + 1) (hf : Fills u.array u.argv 0 (as ++ [x]))
    (hx : x.text.head? ≠ some '&') :
    (finish u).val = (0,{ u with argv := Function.update u.argv u.argc none }) := by
  have hfirst := firstChar_last hc hf none
  have hne : (x.text.head?).getD nul ≠ '&' := by
    cases hh : x.text.head? with
    | none => decide
    | some c => exact fun he => hx (hh.trans (congrArg some he))
  simp only [finish,setArgv,Traced.val_bind]
  rw [if_neg (by omega),hfirst,if_neg hne]
  rfl

theorem finish_background (hc : u.argc = as.length + 1) (hf : Fills u.array u.argv 0 (as ++ [x]))
    (hx : x.text.head? = some '&') :
    (finish u).val = (1,⟨u.array,Function.update (Function.update u.argv u.argc none) (u.argc - 1) none,
      u.argc - 1⟩) := by
  have hfirst := firstChar_last hc hf none
  simp only [finish,setArgv,Traced.val_bind]
  rw [if_neg (by omega),hfirst,hx,Option.getD_some,if_pos rfl]
  rfl

end Finish

section Line

variable (array : Nat → Char) (argv : Nat → Option Nat) {body : List Char} {as : List Arg}

-- array after the newline became a space
theorem holds_copied (body : List Char) :
    Holds (Function.update (strcpy array (body ++ ['\n'])) ((body ++ ['\n']).length - 1) ' ') 0
      (body ++ [' ']) := by
  refine holds_of_get (fun i hi => ?_) ?_
  · rw [List.length_append,List.length_singleton] at hi ⊢
    rw [Nat.zero_add,Nat.add_sub_cancel]
    by_cases he : i = body.length
    · rw [he,Function.update_self,List.getElem?_concat_length]
    · have hlt : i < body.length := by omega
      rw [Function.update_of_ne he,strcpy,if_neg (by simp; omega),List.getElem?_append_left hlt,
        List.getElem?_append_left hlt,List.getElem?_eq_getElem hlt,Option.getD_some]
  · simp [strcpy]

theorem parseline_cut (hc : Cut (body ++ [' ']) as) (hn : nul ∉ body)
    (hl : (body ++ ['\n']).length ≤ maxLine - 1) :
    ∃ u, parseline array argv (body ++ ['\n']) =
        ⟨some (finish u).val,List.range' 0 as.length ++ (finish u).log⟩ ∧
      u.argc = as.length ∧ Fills u.array u.argv 0 as := by
  have hlen : (body ++ [' ']).length < maxLine := by
    rw [List.length_append,List.length_singleton] at hl ⊢
    have hm : maxLine = 1024 := rfl
    omega
  have hn' : nul ∉ body ++ [' '] := by
    rw [List.mem_append,List.mem_singleton]
    rintro (h | h)
    · exact hn h
    · exact absurd h (by decide)
  have hh := holds_copied array body
  rw [parseline]
  generalize Function.update (strcpy array (body ++ ['\n'])) _ ' ' = copied at hh ⊢
  obtain ⟨u,hloop,hargc,_,_,hf⟩ := @argLoop_cut 0 maxLine _ as hc ⟨copied,argv,0⟩ hh hn' hlen
    (Nat.le_of_lt hlen)
  refine ⟨u,?_,hargc.trans (Nat.zero_add _),hf⟩
  rw [hloop]
  exact congrArg (fun l => Traced.mk _ (List.range' 0 as.length ++ l)) (List.append_nil _)

theorem hands_foreground {init : List Arg} {x : Arg} (hc : Cut (body ++ [' ']) (init ++ [x]))
    (hn : nul ∉ body) (hl : (body ++ ['\n']).length ≤ maxLine - 1) (hcount : init.length + 1 < maxArgs)
    (hx : x.text.head? ≠ some '&') :
    Hands 0 (init ++ [x]) (parseline array argv (body ++ ['\n'])) := by
  obtain ⟨u,hp,hargc,hf⟩ := parseline_cut array argv hc hn hl
  rw [List.length_append,List.length_singleton] at hargc
  have hval := finish_foreground hargc hf hx
  have hlog := (finish_log u).mpr (hargc ▸ hcount)
  rw [hp,hval]
  refine ⟨_,rfl,hf.congr fun i hi => ?_,?_,?_⟩
  · refine Function.update_of_ne ?_ _ _
    rw [List.length_append,List.length_singleton] at hi
    omega
  · rw [List.length_append,List.length_singleton,← hargc]
    exact Function.update_self _ _ _
  · refine List.forall_mem_append.mpr ⟨fun i hi => ?_,hlog⟩
    rw [List.length_append,List.length_singleton,List.mem_range'_1] at hi
    omega

theorem hands_background {init : List Arg} {x : Arg} (hc : Cut (body ++ [' ']) (init ++ [x]))
    (hn : nul ∉ body) (hl : (body ++ ['\n']).length ≤ maxLine - 1) (hcount : init.length + 1 < maxArgs)
    (hx : x.text.head? = some '&') :
    Hands 1 init (parseline array argv (body ++ ['\n'])) := by
  obtain ⟨u,hp,hargc,hf⟩ := parseline_cut array argv hc hn hl
  rw [List.length_append,List.length_singleton] at hargc
  have hval := finish_background hargc hf hx
  have hlog := (finish_log u).mpr (hargc ▸ hcount)
  rw [hp,hval]
  refine ⟨_,rfl,hf.left.congr fun i hi => ?_,?_,?_⟩
  · exact (Function.update_of_ne (by omega) _ _).trans (Function.update_of_ne (by omega) _ _)
  · rw [hargc,Nat.add_sub_cancel]
    exact Function.update_self _ _ _
  · refine List.forall_mem_append.mpr ⟨fun i hi => ?_,hlog⟩
    rw [List.length_append,List.length_singleton,List.mem_range'_1] at hi
    omega

end Line

section Renders

variable {s : List Char} {as : List Arg}

theorem cut_spaces (h : Cut s as) (n : Nat) : Cut (List.replicate n ' ' ++ s) as := by
  induction n with
  | zero => exact h
  | succ n ih => exact .blank ih

theorem Arg.cut (x : Arg) (h : Cut s as) : Cut (x.spelled ++ ' ' :: s) (x :: as) := by
  cases hq : x.quoted with
  | false =>
    rw [Arg.spelled,hq]
    exact .word x hq h
  | true =>
    rw [Arg.spelled,hq,if_pos rfl,List.cons_append,List.append_assoc]
    exact .quoted x hq (.blank h)

theorem Renders.cut (h : Renders as s) : Cut (s ++ [' ']) as := by
  induction h with
  | last x n =>
    rw [List.append_assoc,← List.replicate_succ']
    exact x.cut (by simpa using cut_spaces .done n)
  | @cons x n as s _ ih =>
    rw [List.append_assoc,List.append_assoc,List.replicate_succ]
    exact x.cut (cut_spaces ih n)

theorem Arg.nul_spelled (x : Arg) : nul ∉ x.spelled := by
  rw [Arg.spelled]
  split
  · rw [List.mem_cons,List.mem_append,List.mem_singleton]
    rintro (h | h | h)
    · exact absurd h (by decide)
    · exact x.nul_notMem h
    · exact absurd h (by decide)
  · exact x.nul_notMem

theorem nul_spaces (n : Nat) : nul ∉ List.replicate n ' ' := fun h =>
  absurd (List.eq_of_mem_replicate h) (by decide)

theorem Renders.nul (h : Renders as s) : nul ∉ s := by
  induction h with
  | last x n => exact List.not_mem_append x.nul_spelled (nul_spaces n)
  | cons x n _ ih =>
    exact List.not_mem_append (List.not_mem_append x.nul_spelled (nul_spaces (n + 1))) ih

end Renders

section Results

variable (array : Nat → Char) (argv : Nat → Option Nat)

theorem typed_cut {lead : Nat} {s : List Char} {as : List Arg} (h : Renders as s) :
    Cut (List.replicate lead ' ' ++ s ++ [' ']) as := by
  rw [List.append_assoc]
  exact cut_spaces h.cut lead

theorem parseline_round_trip (lead : Nat) {as : List Arg} (hne : as ≠ []) (hcount : as.length ≤ 126)
    (hlast : (as.getLast hne).text.head? ≠ some '&') :
    (∀ s, Renders as s → (typed lead s).length ≤ maxLine - 1 →
      Hands 0 as (parseline array argv (typed lead s))) ∧
    ∀ x s, x.text.head? = some '&' → Renders (as ++ [x]) s → (typed lead s).length ≤ maxLine - 1 →
      Hands 1 as (parseline array argv (typed lead s)) := by
  have hm : maxArgs = 128 := rfl
  refine ⟨fun s h hl => ?_,fun x s hx h hl => ?_⟩
  · have hn := List.not_mem_append (nul_spaces lead) h.nul
    rw [← List.dropLast_append_getLast hne] at h ⊢
    refine hands_foreground array argv (typed_cut h) hn hl ?_ hlast
    rw [List.length_dropLast]
    omega
  · have hn := List.not_mem_append (nul_spaces lead) h.nul
    exact hands_background array argv (typed_cut h) hn hl (by omega) hx

def sampleArgs : List Arg :=
  [⟨false,['a'],List.forall_mem_singleton.mpr (by decide),by decide⟩,
    ⟨true,['b',' '],List.forall_mem_cons.mpr ⟨by decide,List.forall_mem_singleton.mpr (by decide)⟩,
      by decide⟩]

theorem parseline_round_trip_two :
    Hands 0 sampleArgs
        (parseline (fun _ => nul) (fun _ => none) (typed 1 ['a',' ',' ',quote,'b',' ',quote])) ∧
      Hands 1 sampleArgs
        (parseline (fun _ => nul) (fun _ => none) (typed 1 ['a',' ',quote,'b',' ',quote,' ','&',' '])) :=
  have h := @parseline_round_trip (fun _ => nul) (fun _ => none) 1 sampleArgs (by decide) (by decide)
    (by decide)
  ⟨h.1 ['a',' ',' ',quote,'b',' ',quote] (.cons _ 1 (.last _ 0)) (by decide),
    h.2 ⟨false,['&'],List.forall_mem_singleton.mpr (by decide),by decide⟩ ['a',' ',quote,'b',' ',quote,' ','&',' ']
      (by decide) (.cons _ 0 (.cons _ 0 (.last _ 1))) (by decide)⟩

theorem parseline_in_argv {body : List Char} (hn : nul ∉ body) (hb : '\n' ∉ body)
    (hl : (body ++ ['\n']).length ≤ maxLine - 1) :
    (parseline array argv (body ++ ['\n'])).All (· < maxArgs) ↔
      ¬ ∃ as, as.length = maxArgs ∧ Begins as (body ++ [' ']) := by
  have hbody := body_line hn hb
  have hiff : ∀ {as}, Cut (body ++ [' ']) as →
      ((parseline array argv (body ++ ['\n'])).All (· < maxArgs) ↔ as.length < maxArgs) := by
    intro as hc
    obtain ⟨u,hp,hargc,_⟩ := parseline_cut array argv hc hn hl
    have hfin := finish_log u
    rw [hp,← hargc,← hfin]
    refine ⟨fun h => (List.forall_mem_append.mp h).2,fun h => List.forall_mem_append.mpr ⟨?_,h⟩⟩
    intro i hi
    have hi' := List.mem_range'_1.mp hi
    have hu := hfin.mp h
    omega
  obtain ⟨as,hc⟩ := exists_cut hbody
  constructor
  · rintro h ⟨bs,hlen,hbs⟩
    obtain ⟨more,hcut⟩ := hbs.cut hbody
    have hlt := (hiff hcut).mp h
    rw [List.length_append,hlen] at hlt
    omega
  · intro h
    refine (hiff hc).mpr (Nat.lt_of_not_le fun hle => h ⟨as.take maxArgs,?_,hc.begins maxArgs⟩)
    rw [List.length_take,Nat.min_eq_left hle]

-- four arguments, one of them quoted
theorem parseline_in_argv_four :
    (parseline (fun _ => nul) (fun _ => none)
        (['l','s',' ',' ','-','l',' ',quote,'a',' ','b',quote,' ','&'] ++ ['\n'])).All (· < maxArgs) ∧
      ¬ ∃ as, as.length = maxArgs ∧
        Begins as (['l','s',' ',' ','-','l',' ',quote,'a',' ','b',quote,' ','&'] ++ [' ']) := by
  have hiff := @parseline_in_argv (fun _ => nul) (fun _ => none)
    ['l','s',' ',' ','-','l',' ',quote,'a',' ','b',quote,' ','&'] (by decide) (by decide) (by decide)
  have hall : (parseline (fun _ => nul) (fun _ => none)
      (['l','s',' ',' ','-','l',' ',quote,'a',' ','b',quote,' ','&'] ++ ['\n'])).All
        (· < maxArgs) := by
    decide +kernel
  exact ⟨hall,hiff.mp hall⟩

-- 128 one-letter arguments: NULL goes to index 128
theorem parseline_128_arguments :
    ¬ ∀ (array : Nat → Char) (argv : Nat → Option Nat) (body : List Char), nul ∉ body → '\n' ∉ body →
      (body ++ ['\n']).length ≤ maxLine - 1 → (parseline array argv (body ++ ['\n'])).All (· < maxArgs) :=
  fun h => absurd
    (h (fun _ => nul) (fun _ => none) (List.replicate 128 ['a',' ']).flatten (by decide +kernel)
      (by decide +kernel) (by decide +kernel))
    (by decide +kernel)

end Results

end Tsh
