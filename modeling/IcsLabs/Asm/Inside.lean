import IcsLabs.Asm.Cursor
import IcsLabs.Asm.Grammar

namespace Asm.Cursor
open CString Fueled

-- no further than the end mark
def Inside (len : Nat) : Access → Prop
  | .read i => i ≤ len
  | .ptr i => i ≤ len

-- what is left of a line of len characters from p on
structure At (mem : Nat → Char) (len p : Nat) (s : Text) : Prop where
  holds : Holds mem p s
  clean : nul ∉ s
  place : p + s.length = len

-- the token is o's, and ptr is where the text that o leaves is
def Parses {α : Type} (mem : Nat → Char) (len : Nat) (x : Fueled Access (Option α × Nat)) :
    Option (α × Text) → Prop
  | some (a,t) => ∃ q, Gives (Inside len) (len + 1) x (some a,q) ∧ At mem len q t
  | none => ∃ q, Gives (Inside len) (len + 1) x (none,q)

section At

variable {mem : Nat → Char} {len p : Nat} {s : Text} {c : Char}

theorem At.le (h : At mem len p s) : p ≤ len := h.place ▸ Nat.le_add_right p s.length

theorem At.fuel (h : At mem len p s) : s.length + 1 ≤ len + 1 := by
  have hp := h.place
  omega

theorem At.head (h : At mem len p s) : mem p = s.headD nul := by
  cases s with
  | nil => exact h.holds
  | cons c s => exact h.holds.1

theorem At.tail (h : At mem len p (c :: s)) : At mem len (p + 1) s := by
  refine ⟨h.holds.2,fun hm => h.clean (List.mem_cons_of_mem c hm),?_⟩
  have hp := h.place
  rw [List.length_cons] at hp
  omega

theorem At.next (h : At mem len p s) (hp : mem p ≠ nul) : At mem len (p + 1) s.tail := by
  cases s with
  | nil => exact absurd h.holds hp
  | cons c s => exact h.tail

theorem At.suffix {t : Text} (h : At mem len p s) (ht : t <:+ s) :
    At mem len (p + (s.length - t.length)) t := by
  obtain ⟨w,rfl⟩ := ht
  have hp := h.place
  rw [List.length_append] at hp ⊢
  rw [Nat.add_sub_cancel]
  exact ⟨h.holds.drop,fun hm => h.clean (List.mem_append_right w hm),by omega⟩

theorem At.drop (h : At mem len p s) {n : Nat} (hn : n ≤ s.length) :
    At mem len (p + n) (s.drop n) := by
  have hd := h.suffix (List.drop_suffix n s)
  rwa [List.length_drop,Nat.sub_sub_self hn] at hd

theorem At.starts (h : At mem len p s) (test : Char → Bool) (ht : test nul = false) :
    starts test s = test (mem p) := by
  rw [h.head]
  cases s with
  | nil => exact ht.symm
  | cons c s => rfl

theorem At.head_eq (h : At mem len p s) (hc : c ≠ nul) : Asm.starts (· == c) s = true ↔ mem p = c := by
  rw [h.starts (· == c) (beq_eq_false_iff_ne.mpr hc.symm),beq_iff_eq]

theorem get_gives (h : At mem len p s) : Gives (Inside len) (len + 1) (get mem p) (mem p) :=
  .one (Access.read p) h.le (mem p)

theorem move_gives (h : p ≤ len) : Gives (Inside len) (len + 1) (move p) p := .one (Access.ptr p) h p

end At

section Loops

variable {mem : Nat → Char} {len p : Nat} {s : Text} {test : Char → Bool}

theorem skipWhile_gives (ht : test nul = false) (h : At mem len p s) :
    Gives (Inside len) (len + 1) (skipWhile mem test p) (p + (s.takeWhile test).length) := by
  refine Within.gives ?_ h.fuel
  induction s generalizing p with
  | nil =>
    refine .last (.bind (get_gives h) ?_) (Nat.succ_pos _)
    have h0 : mem p = nul := h.holds
    rw [h0,ht]
    exact .pure _
  | cons c s ih =>
    have h0 : mem p = c := h.holds.1
    cases hc : test c with
    | true =>
      have hn := ih h.tail
      have hq : p + (c :: s.takeWhile test).length = p + 1 + (s.takeWhile test).length := by
        rw [List.length_cons]
        omega
      rw [List.takeWhile_cons_of_pos hc,hq]
      refine .next (.bind (get_gives h) ?_) hn
      rw [h0,hc]
      exact .bind (move_gives h.tail.le) (.pure _)
    | false =>
      rw [List.takeWhile_cons_of_neg (by simp [hc])]
      refine .last (.bind (get_gives h) ?_) (Nat.succ_pos _)
      rw [h0,hc]
      exact .pure _

theorem At.dropWhile (h : At mem len p s) (test : Char → Bool) :
    At mem len (p + (s.takeWhile test).length) (s.dropWhile test) := by
  have hd := h.suffix (List.dropWhile_suffix test)
  have hl := congrArg List.length (@List.takeWhile_append_dropWhile _ test s)
  rw [List.length_append] at hl
  rwa [← hl,Nat.add_sub_cancel] at hd

theorem skipBlank_test : (fun c => decide (c ≠ nul) && isBlank c) = isBlank := by
  funext c
  by_cases hc : c = nul
  · rw [hc]
    decide
  · rw [decide_eq_true hc,Bool.true_and]

theorem skipBlank_place (h : At mem len p s) :
    Gives (Inside len) (len + 1) (skipBlank mem p) (p + (s.takeWhile isBlank).length) := by
  rw [skipBlank,skipBlank_test]
  exact skipWhile_gives (by decide) h

theorem skipBlank_gives (h : At mem len p s) :
    ∃ q, Gives (Inside len) (len + 1) (skipBlank mem p) q ∧ At mem len q (Asm.skipBlank s) :=
  ⟨_,skipBlank_place h,h.dropWhile isBlank⟩

theorem skipWord_gives (h : At mem len p s) :
    ∃ q, Gives (Inside len) (len + 1) (skipWord mem p) q ∧ At mem len q (afterWord s) ∧
      q - p = (word s).length :=
  ⟨_,skipWhile_gives (by decide) h,h.dropWhile _,Nat.add_sub_cancel_left p _⟩

theorem memcpy_gives (h : At mem len p s) {n : Nat} (hn : n ≤ s.length) :
    Gives (Inside len) (len + 1) (memcpy mem p n) (s.take n) := by
  induction n generalizing p s with
  | zero => exact .pure _
  | succ n ih =>
    cases s with
    | nil => simp at hn
    | cons c s =>
      have h0 : mem p = c := h.holds.1
      rw [List.take_succ_cons,← h0]
      exact .bind (get_gives h) (.bind (ih h.tail (Nat.le_of_succ_le_succ hn)) (.pure _))

theorem readString_gives (h : At mem len p s) :
    Gives (Inside len) (len + 1) (readString mem p) s := by
  refine Within.gives ?_ h.fuel
  change Within _ _ _ _ _ (List.reverse [] ++ s)
  generalize [] = read
  induction s generalizing p read with
  | nil =>
    refine .last (.bind (get_gives h) ?_) (Nat.succ_pos _)
    have h0 : mem p = nul := h.holds
    rw [if_pos h0,List.append_nil]
    exact .pure _
  | cons c s ih =>
    have h0 : mem p = c := h.holds.1
    have hc : mem p ≠ nul := fun hc => h.clean (hc ▸ h0 ▸ List.mem_cons_self)
    have hn := ih h.tail (c :: read)
    rw [List.reverse_cons,List.append_assoc] at hn
    refine .next (.bind (get_gives h) ?_) hn
    rw [if_neg hc,h0]
    exact .pure _

theorem strtoull_gives (h : At mem len p s) :
    ∃ q, Gives (Inside len) (len + 1) (strtoull mem p) ((Libc.strtoull s).1,q) ∧
      At mem len q (Libc.strtoull s).2 := by
  have hq := h.suffix (Libc.strtoull_suffix s)
  exact ⟨_,.bind (readString_gives h) (.bind (move_gives hq.le) (.pure _)),hq⟩

end Loops

section Tables

variable {mem : Nat → Char} {len p : Nat} {s name : Text}

theorem strncmp_gives (h : At mem len p s) (hn : nul ∉ name) (n : Nat) :
    Gives (Inside len) (len + 1) (strncmp mem name n p) (Asm.strncmp name s n) := by
  induction n generalizing p s name with
  | zero => exact .pure _
  | succ n ih =>
    refine .bind (get_gives h) ?_
    cases s with
    | nil =>
      have h0 : mem p = nul := h.holds
      cases name with
      | nil =>
        rw [h0,if_neg (fun hc => hc rfl),if_pos rfl]
        exact .pure _
      | cons d name =>
        have hd : nul ≠ d := fun hd => hn (hd ▸ List.mem_cons_self)
        rw [h0,List.headD_cons,if_pos hd]
        exact .pure _
    | cons c s =>
      have h0 : mem p = c := h.holds.1
      have hc : c ≠ nul := fun hc => h.clean (hc ▸ List.mem_cons_self)
      cases name with
      | nil =>
        rw [h0,List.headD_nil,if_pos hc]
        exact .pure _
      | cons d name =>
        have hn' : nul ∉ name := fun hm => hn (List.mem_cons_of_mem d hm)
        rw [h0,List.headD_cons]
        by_cases hd : c = d
        · rw [if_neg (fun he => he hd),if_neg hc]
          have hr := ih h.tail hn'
          have heq : Asm.strncmp (d :: name) (c :: s) (n + 1) = Asm.strncmp name s n := by
            simp [Asm.strncmp,hd]
          rw [heq]
          exact hr
        · have heq : Asm.strncmp (d :: name) (c :: s) (n + 1) = false := by
            simp [Asm.strncmp,Ne.symm hd]
          rw [if_pos hd,heq]
          exact .pure _

theorem find_gives {α : Type} {name : α → Text} {len' : α → Nat} {as : List α} (h : At mem len p s)
    (hn : ∀ a ∈ as, nul ∉ name a) :
    Gives (Inside len) (len + 1) (find mem name len' p as)
      (as.find? fun a => Asm.strncmp (name a) s (len' a)) := by
  induction as with
  | nil => exact .pure _
  | cons a as ih =>
    obtain ⟨ha,has⟩ := List.forall_mem_cons.mp hn
    refine .bind (strncmp_gives h ha _) ?_
    rw [List.find?_cons]
    cases Asm.strncmp (name a) s (len' a) with
    | true => exact .pure _
    | false => exact ih has

theorem findInstr_gives (h : At mem len p s) :
    Gives (Inside len) (len + 1) (findInstr mem p) (Asm.findInstr s) :=
  find_gives h (by decide +kernel)

theorem findRegister_gives (h : At mem len p s) :
    Gives (Inside len) (len + 1) (findRegister mem p) (Asm.findRegister s) := by
  have hf : Asm.findRegister s = regTable.find? fun r => Asm.strncmp r.name s r.namelen := by
    rw [Asm.findRegister]
    congr 1
    funext r
    exact BEq.comm
  rw [hf]
  exact find_gives h (by decide +kernel)

theorem memcpy_word {q : Nat} (h : At mem len p s) (hq : q - p = (word s).length) :
    Gives (Inside len) (len + 1) (memcpy mem p (q - p)) (word s) := by
  have hp : word s <+: s := List.takeWhile_prefix _
  rw [hq,List.prefix_iff_eq_take.mp hp,List.length_take,Nat.min_eq_left hp.length_le]
  exact memcpy_gives h hp.length_le

end Tables

section Parses

variable {α β : Type} {mem : Nat → Char} {len p : Nat} {s t : Text} {a : α} {b : β}
  {x : Fueled Access (Option α × Nat)} {y : Fueled Access β} {o : Option (α × Text)}

theorem Parses.bind {f : β → Fueled Access (Option α × Nat)} (hy : Gives (Inside len) (len + 1) y b)
    (h : Parses mem len (f b) o) : Parses mem len (y >>= f) o := by
  cases o with
  | none =>
    obtain ⟨q,hq⟩ := h
    exact ⟨q,hy.bind hq⟩
  | some r =>
    obtain ⟨q,hq,hat⟩ := h
    exact ⟨q,hy.bind hq,hat⟩

theorem Parses.fail (p : Nat) : Parses mem len (pure ((none : Option α),p)) none := ⟨p,.pure _⟩

theorem Parses.done (a : α) (h : At mem len p s) : Parses mem len (pure (some a,p)) (some (a,s)) :=
  ⟨p,.pure _,h⟩

theorem Parses.move (a : α) (h : At mem len p s) :
    Parses mem len (do return (some a,← move p)) (some (a,s)) :=
  .bind (move_gives h.le) (.done a h)

theorem Parses.map (h : Parses mem len x o) (g : α → β) :
    Parses mem len (do let (a,p) ← x; return (a.map g,p)) (o.map fun (a,s) => (g a,s)) := by
  cases o with
  | none =>
    obtain ⟨q,hq⟩ := h
    exact ⟨q,hq.bind (.pure _)⟩
  | some r =>
    obtain ⟨q,hq,hat⟩ := h
    exact ⟨q,hq.bind (.pure _),hat⟩

theorem Parses.seq {f : α → Nat → Fueled Access (Option β × Nat)} {g : α × Text → Option (β × Text)}
    (h : Parses mem len x o)
    (hf : ∀ a q t, At mem len q t → Parses mem len (f a q) (g (a,t))) :
    Parses mem len (after x f) (o.bind g) := by
  cases o with
  | none =>
    obtain ⟨q,hq⟩ := h
    exact ⟨q,hq.bind (.pure _)⟩
  | some r =>
    obtain ⟨q,hq,hat⟩ := h
    exact .bind hq (hf _ _ _ hat)

end Parses

section Parsers

variable {mem : Nat → Char} {len p : Nat} {s : Text}

theorem parseInstr_parses (h : At mem len p s) :
    Parses mem len (parseInstr mem p) (Asm.parseInstr s) := by
  obtain ⟨q,hq,hat⟩ := skipBlank_gives h
  refine .bind hq (.bind (findInstr_gives hat) ?_)
  rw [Asm.parseInstr]
  cases ho : Asm.findInstr (Asm.skipBlank s) with
  | none => exact .fail q
  | some inst => exact .move inst (hat.drop (findInstr_len ho))

theorem parseDelim_parses (h : At mem len p s) {d : Char} (hd : d ≠ nul) :
    Parses mem len (parseDelim mem d p) ((Asm.parseDelim d s).map fun t => ((),t)) := by
  obtain ⟨q,hq,hat⟩ := skipBlank_gives h
  refine .bind hq (.bind (get_gives hat) ?_)
  rw [Asm.parseDelim]
  by_cases hc : mem q = d
  · rw [if_pos ((hat.head_eq hd).mpr hc),if_neg (fun hn => hn hc)]
    exact .move () (hat.next (hc ▸ hd))
  · rw [if_neg fun hst => hc ((hat.head_eq hd).mp hst),if_pos hc]
    exact .fail q

theorem parseReg_parses (h : At mem len p s) : Parses mem len (parseReg mem p) (Asm.parseReg s) := by
  obtain ⟨q,hq,hat⟩ := skipBlank_gives h
  have hne : '%' ≠ nul := by decide
  refine .bind hq (.bind (get_gives hat) ?_)
  rw [Asm.parseReg]
  by_cases hc : mem q = '%'
  · rw [if_pos ((hat.head_eq hne).mpr hc),if_neg (fun hn => hn hc)]
    refine .bind (findRegister_gives hat) ?_
    cases ho : Asm.findRegister (Asm.skipBlank s) with
    | none => exact .fail q
    | some r => exact .move r.id (hat.drop (findRegister_len ho))
  · rw [if_neg fun hst => hc ((hat.head_eq hne).mp hst),if_pos hc]
    exact .fail q

theorem parseSymbol_parses (h : At mem len p s) :
    Parses mem len (parseSymbol mem p) (Asm.parseSymbol s) := by
  obtain ⟨q,hq,hat⟩ := skipBlank_gives h
  refine .bind hq (.bind (get_gives hat) ?_)
  rw [Asm.parseSymbol,hat.starts isLetter (by decide)]
  cases isLetter (mem q) with
  | false => exact .fail q
  | true =>
    obtain ⟨r,hr,hrat,hlen⟩ := skipWord_gives hat
    exact .bind hr (.bind (memcpy_word hat hlen) (.done _ hrat))

theorem parseDigit_parses (h : At mem len p s) :
    Parses mem len (parseDigit mem p) (Asm.parseDigit s) := by
  obtain ⟨q,hq,hat⟩ := skipBlank_gives h
  refine .bind hq (.bind (get_gives hat) ?_)
  rw [Asm.parseDigit,hat.starts isDigit (by decide)]
  cases isDigit (mem q) with
  | false => exact .fail q
  | true =>
    obtain ⟨r,hr,hrat⟩ := strtoull_gives hat
    exact .bind hr (.done _ hrat)

theorem parseDigit_none (h : At mem len p s) (hn : Asm.parseDigit s = none) :
    Gives (Inside len) (len + 1) (parseDigit mem p) (none,p + (s.takeWhile isBlank).length) := by
  have hat := h.dropWhile isBlank
  refine .bind (skipBlank_place h) (.bind (get_gives hat) ?_)
  rw [Asm.parseDigit,Asm.skipBlank,hat.starts isDigit (by decide)] at hn
  cases hc : isDigit (mem (p + (s.takeWhile isBlank).length)) with
  | false => exact .pure _
  | true =>
    rw [hc] at hn
    cases hn

theorem blank_before (h : At mem len p s) {i : Nat} (hi : i < (s.takeWhile isBlank).length) :
    isBlank (mem (p + i)) = true := by
  induction s generalizing p i with
  | nil => simp at hi
  | cons c s ih =>
    have h0 : mem p = c := h.holds.1
    cases hc : isBlank c with
    | false =>
      rw [List.takeWhile_cons_of_neg (by simp [hc])] at hi
      cases hi
    | true =>
      rw [List.takeWhile_cons_of_pos hc] at hi
      cases i with
      | zero => rw [Nat.add_zero,h0,hc]
      | succ i =>
        have hn := ih h.tail (Nat.lt_of_succ_lt_succ hi)
        rwa [Nat.add_right_comm,Nat.add_assoc] at hn

theorem isLetter_of_blank {c : Char} (hc : isBlank c = true) : isLetter c = false := by
  simp only [isBlank,Bool.decide_or,Bool.or_eq_true,decide_eq_true_eq] at hc
  obtain rfl | rfl := hc <;> decide

theorem orSymbol_parses (h : At mem len p s) :
    Parses mem len (orSymbol mem none p)
      (if Asm.starts isLetter s then (Asm.parseSymbol s).map fun (name,s) => (.symbol name,s)
        else none) := by
  refine .bind (get_gives h) ?_
  rw [h.starts isLetter (by decide)]
  cases isLetter (mem p) with
  | false => exact .fail p
  | true => exact (parseSymbol_parses h).map Operand.symbol

theorem parseImm_parses (h : At mem len p s) : Parses mem len (parseImm mem p) (Asm.parseImm s) := by
  obtain ⟨q,hq,hat⟩ := skipBlank_gives h
  have hne : '$' ≠ nul := by decide
  refine .bind hq (.bind (get_gives hat) ?_)
  rw [Asm.parseImm]
  by_cases hend : mem q = nul
  · have hd : ¬ mem q = '$' := hend ▸ hne.symm
    rw [if_pos hend,if_neg fun hst => hd ((hat.head_eq hne).mp hst),hat.starts isLetter (by decide),hend]
    exact .fail q
  rw [if_neg hend]
  by_cases hd : mem q = '$'
  · have hnext := hat.next hend
    have hdigit := parseDigit_parses hnext
    rw [if_pos hd,if_pos ((hat.head_eq hne).mpr hd)]
    refine .bind (move_gives hnext.le) ?_
    cases ho : Asm.parseDigit (Asm.skipBlank s).tail with
    | some r =>
      rw [ho] at hdigit
      obtain ⟨u,hu,huat⟩ := hdigit
      exact .bind hu (.done _ huat)
    | none =>
      have hu := parseDigit_none hnext ho
      have hback := @blank_before _ _ _ _ hnext
      have hle := (hnext.dropWhile isBlank).le
      generalize ((Asm.skipBlank s).tail.takeWhile isBlank).length = n at hu hback hle
      -- the character before is the $ or one of the blanks behind it
      have hletter : isLetter (mem (q + 1 + n - 1)) = false := by
        cases n with
        | zero =>
          rw [Nat.add_zero,Nat.add_sub_cancel,hd]
          decide
        | succ n => exact isLetter_of_blank (hback (Nat.lt_succ_self n))
      have hle' : q + 1 + n - 1 ≤ len := by omega
      refine .bind hu (.bind (move_gives hle') (.bind (.one (Access.read _) hle' _) ?_))
      rw [hletter]
      exact .fail _
  · rw [if_neg hd,if_neg fun hst => hd ((hat.head_eq hne).mp hst)]
    exact orSymbol_parses hat

theorem parseData_parses (h : At mem len p s) :
    Parses mem len (parseData mem p) (Asm.parseData s) := by
  obtain ⟨q,hq,hat⟩ := skipBlank_gives h
  refine .bind hq (.bind (get_gives hat) ?_)
  rw [Asm.parseData,hat.starts isDigit (by decide)]
  by_cases hend : mem q = nul
  · rw [if_pos hend,hat.starts isLetter (by decide),hend]
    exact .fail q
  rw [if_neg hend]
  cases hd : isDigit (mem q) with
  | false => exact orSymbol_parses hat
  | true =>
    have hdigit := parseDigit_parses hat
    cases ho : Asm.parseDigit (Asm.skipBlank s) with
    | some r =>
      rw [ho] at hdigit
      obtain ⟨u,hu,huat⟩ := hdigit
      exact .bind hu (.done _ huat)
    | none =>
      -- there is a digit
      have hst := (hat.starts isDigit (by decide)).trans hd
      rw [parseDigit_skip,Asm.parseDigit,hst] at ho
      cases ho

theorem Parses.seq_delim {β : Type} {f : Unit → Nat → Fueled Access (Option β × Nat)}
    {g : Text → Option (β × Text)} {d : Char} (h : At mem len p s) (hd : d ≠ nul)
    (hf : ∀ q t, At mem len q t → Parses mem len (f () q) (g t)) :
    Parses mem len (after (parseDelim mem d p) f) ((Asm.parseDelim d s).bind g) := by
  have ha := (parseDelim_parses h hd).seq (g := fun r => g r.2) fun _ q t hat => hf q t hat
  rwa [Option.bind_map] at ha

theorem parseMem_parses (h : At mem len p s) : Parses mem len (parseMem mem p) (Asm.parseMem s) := by
  obtain ⟨q,hq,hat⟩ := skipBlank_gives h
  refine .bind hq (.bind (get_gives hat) ?_)
  have hne : '%' ≠ nul := by decide
  refine Parses.seq ?_ fun value u t hu => .seq_delim hu (by decide) fun u t hu => ?_
  · rw [hat.starts isDigit (by decide)]
    cases isDigit (mem q) with
    | false => exact .done none hat
    | true => exact (parseDigit_parses hat).map Option.some
  · refine .bind (get_gives hu) ?_
    by_cases hc : mem u = '%'
    · rw [if_neg (fun hn => hn hc)]
      simp only [if_pos ((hu.head_eq hne).mpr hc)]
      exact (parseReg_parses hu).seq fun regid u t hu => .seq_delim hu (by decide) fun u t hu =>
        .done _ hu
    · rw [if_pos hc]
      simp only [if_neg fun hst => hc ((hu.head_eq hne).mp hst)]
      exact .fail u

-- no closing parenthesis
example : (parseMem (fun i => "8(%rbx".toList.getD i nul) 0 7).val = some (none,6) := by
  decide +kernel

theorem parseLabel_parses (h : At mem len p s) :
    match Asm.parseLabel s with
    | some (name,t) => ∃ q, Gives (Inside len) (len + 1) (parseLabel mem p) (some name,q) ∧ At mem len q t
    | none => ∃ q, Gives (Inside len) (len + 1) (parseLabel mem p) (none,q) ∧
        At mem len q (Asm.skipBlank s) := by
  obtain ⟨q,hq,hat⟩ := skipBlank_gives h
  rw [Asm.parseLabel,hat.starts isLetter (by decide)]
  cases hc : isLetter (mem q) with
  | false =>
    refine ⟨q,.bind hq (.bind (get_gives hat) ?_),hat⟩
    rw [hc]
    exact .pure _
  | true =>
    obtain ⟨r,hr,hrat,hlen⟩ := skipWord_gives hat
    have hname := memcpy_word hat hlen
    have hdelim := parseDelim_parses hrat (d := ':') (by decide)
    cases ho : Asm.parseDelim ':' (afterWord (Asm.skipBlank s)) with
    | none =>
      rw [ho] at hdelim
      obtain ⟨u,hu⟩ := hdelim
      refine ⟨q,.bind hq (.bind (get_gives hat) ?_),hat⟩
      rw [hc]
      exact .bind hr (.bind hname (.bind hu (.pure _)))
    | some t =>
      rw [ho] at hdelim
      obtain ⟨u,hu,huat⟩ := hdelim
      refine ⟨u,.bind hq (.bind (get_gives hat) ?_),huat⟩
      rw [hc]
      exact .bind hr (.bind hname (.bind hu (.bind (move_gives huat.le) (.pure _))))

end Parsers

end Asm.Cursor
