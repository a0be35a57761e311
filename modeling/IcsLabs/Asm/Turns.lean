import IcsLabs.Asm.Inside

namespace Asm.Cursor
open CString Fueled

-- a part of a turn that does what the text parsers do
def Agrees {β : Type} (mem : Nat → Char) (len : Nat) (x : Step (Nat × β)) :
    Except Stop (Text × β) → Prop
  | .ok (t,b) => ∃ q, Gives (Inside len) (len + 1) x.run (.ok (q,b)) ∧ At mem len q t
  | .error e => Gives (Inside len) (len + 1) x.run (.error e)

section Agrees

variable {α β : Type} {mem : Nat → Char} {len p : Nat} {s : Text} {text : String}

theorem Agrees.done (b : β) (h : At mem len p s) : Agrees mem len (return (p,b)) (.ok (s,b)) :=
  ⟨p,.pure _,h⟩

theorem Agrees.ite {c : Prop} [Decidable c] {x x' : Step (Nat × β)} {e e' : Except Stop (Text × β)}
    (h : Agrees mem len x e) (h' : Agrees mem len x' e') :
    Agrees mem len (if c then x else x') (if c then e else e') := by
  split
  · exact h
  · exact h'

theorem Agrees.bind {x : Step α} {a : α} {f : α → Step (Nat × β)} {e : Except Stop (Text × β)}
    (hx : Gives (Inside len) (len + 1) x.run (.ok a)) (h : Agrees mem len (f a) e) :
    Agrees mem len (x >>= f) e := by
  cases e with
  | error e => exact Gives.bind hx h
  | ok r =>
    obtain ⟨q,hq,hat⟩ := h
    exact ⟨q,Gives.bind hx hq,hat⟩

theorem Agrees.step {x : Fueled Access (Option α × Nat)} {o : Option (α × Text)}
    {f : α × Nat → Step (Nat × β)} {g : α × Text → Except Stop (Text × β)}
    (h : Parses mem len x o) (hf : ∀ a q t, At mem len q t → Agrees mem len (f (a,q)) (g (a,t))) :
    Agrees mem len (orErr text x >>= f) ((Asm.orErr text o).bind g) := by
  cases o with
  | none =>
    obtain ⟨q,hq⟩ := h
    have he : Gives (Inside len) (len + 1) (orErr text x).run (.error (.err text)) :=
      hq.bind (.pure _)
    exact Gives.bind he (.pure _)
  | some r =>
    obtain ⟨q,hq,hat⟩ := h
    have he : Gives (Inside len) (len + 1) (orErr text x).run (.ok (r.1,q)) := hq.bind (.pure _)
    exact .bind he (hf _ _ _ hat)

theorem Agrees.step_delim {f : Unit × Nat → Step (Nat × β)} {g : Text → Except Stop (Text × β)}
    {d : Char} (h : At mem len p s) (hd : d ≠ nul)
    (hf : ∀ q t, At mem len q t → Agrees mem len (f ((),q)) (g t)) :
    Agrees mem len (orErr text (parseDelim mem d p) >>= f)
      ((Asm.orErr text (Asm.parseDelim d s)).bind g) := by
  have ha := @Agrees.step _ _ _ _ text _ _ f (fun r => g r.2) (parseDelim_parses h hd)
    fun _ q t hat => hf q t hat
  cases ho : Asm.parseDelim d s with
  | none =>
    rw [ho] at ha
    exact ha
  | some t =>
    rw [ho] at ha
    exact ha

theorem Agrees.lift {r : Except Stop α} {f : α → Step (Nat × β)} {g : α → Except Stop (Text × β)}
    (h : ∀ a, Agrees mem len (f a) (g a)) :
    Agrees mem len (ExceptT.mk (return r) >>= f) (r.bind g) := by
  cases r with
  | error e => exact Gives.bind (.pure (Except.error e)) (.pure _)
  | ok a => exact .bind (.pure _) (h a)

theorem parseOperands_agrees (k : Nat) (inst : Instr) (h : At mem len p s) (st : Parse) :
    Agrees mem len (parseOperands mem k inst p st) (Asm.parseOperands k inst s st) := by
  have hcomma : ',' ≠ nul := by decide
  rw [parseOperands,Asm.parseOperands]
  refine .ite (.done st h) (.ite ?_ (.ite ?_ (.ite ?_ (.ite ?_ (.ite ?_ (.ite ?_ (.ite ?_
    (.ite ?_ ?_))))))))
  · exact .step (parseImm_parses h) fun imm q t h => .step_delim h hcomma fun q t h =>
      .step (parseReg_parses h) fun rB q t h => .done _ h
  · exact .step (parseReg_parses h) fun rA q t h => .step_delim h hcomma fun q t h =>
      .step (parseMem_parses h) fun _ q t h => .done _ h
  · exact .step (parseMem_parses h) fun _ q t h => .step_delim h hcomma fun q t h =>
      .step (parseReg_parses h) fun rA q t h => .done _ h
  · exact .step (parseReg_parses h) fun rA q t h => .step_delim h hcomma fun q t h =>
      .step (parseReg_parses h) fun rB q t h => .done _ h
  · exact .step (parseImm_parses h) fun imm q t h => .done _ h
  · exact .step (parseReg_parses h) fun rA q t h => .done _ h
  · exact .step (parseData_parses h) fun d q t h => .done _ h
  · exact .step (parseDigit_parses h) fun v q t h => .done _ h
  · exact .step (parseDigit_parses h) fun v q t h => .lift fun a => .done _ h

theorem parseTurn_agrees (k : Nat) (h : At mem len p s) (st : Parse) :
    Agrees mem len (parseTurn mem k p st) (Asm.parseTurn k s st) := by
  have hlabel := parseLabel_parses h
  rw [Asm.parseTurn]
  cases ho : Asm.parseLabel s with
  | some r =>
    rw [ho] at hlabel
    obtain ⟨q,hq,hat⟩ := hlabel
    exact .bind (Gives.bind hq (.pure _)) (.lift fun symtab => .done _ hat)
  | none =>
    rw [ho] at hlabel
    obtain ⟨q,hq,hat⟩ := hlabel
    have hinstr := parseInstr_parses hat
    rw [Asm.parseInstr,skipBlank_skipBlank,← Asm.parseInstr] at hinstr
    exact .bind (Gives.bind hq (.pure _)) (.step hinstr fun inst q t h =>
      parseOperands_agrees k inst h (st.place inst))

end Agrees

section Turns

variable {mem : Nat → Char} {len p k : Nat} {s t : Text} {st st' : Parse}

theorem At.atEnd (h : At mem len p s) : atEnd s = true ↔ mem p = nul ∨ mem p = '#' := by
  have hhash := h.head_eq (c := '#') (by decide)
  rw [Asm.atEnd,Bool.or_eq_true,hhash,decide_eq_true_eq]
  refine or_congr_left ⟨fun hs => ?_,fun hn => ?_⟩
  · rw [h.head,hs]
    rfl
  · cases s with
    | nil => rfl
    | cons c s => exact absurd (hn ▸ h.holds.1 ▸ List.mem_cons_self) h.clean

theorem parseTurn_lt (h : Asm.parseTurn k s st = .ok (t,st')) : t.length < s.length := by
  cases hp : scanPiece s with
  | none =>
    obtain ⟨text,he⟩ := @parseTurn_of_none k st _ hp
    rw [he] at h
    cases h
  | some r =>
    have he := parseTurn_of_scan (k := k) (s := st) (p := r.1) (t := r.2) hp
    rw [he] at h
    have ht := (scanPiece_spec (p := r.1) (t := r.2) hp).2.1
    cases ha : r.1.apply k st with
    | error e =>
      rw [ha] at h
      cases h
    | ok u =>
      rw [ha] at h
      cases h
      exact ht

theorem turn_end (h : At mem len p s) (he : atEnd (Asm.skipBlank s) = true) :
    Gives (Inside len) (len + 1) (turn mem k (p,st)) (.inr (.ok st)) := by
  obtain ⟨q,hq,hat⟩ := skipBlank_gives h
  refine .bind hq (.bind (get_gives hat) ?_)
  rw [if_pos (hat.atEnd.mp he)]
  exact .pure _

theorem turn_agrees (h : At mem len p s) (he : ¬ atEnd (Asm.skipBlank s) = true) :
    match Asm.parseTurn k (Asm.skipBlank s) st with
    | .ok (t,st') => ∃ q, Gives (Inside len) (len + 1) (turn mem k (p,st)) (.inl (q,st')) ∧
        At mem len q t ∧ p < q
    | .error e => Gives (Inside len) (len + 1) (turn mem k (p,st)) (.inr (.error e)) := by
  obtain ⟨q,hq,hat⟩ := skipBlank_gives h
  have hend : ¬ (mem q = nul ∨ mem q = '#') := fun hn => he (hat.atEnd.mpr hn)
  have hturn := parseTurn_agrees k hat st
  cases ho : Asm.parseTurn k (Asm.skipBlank s) st with
  | error e =>
    rw [ho] at hturn
    refine .bind hq (.bind (get_gives hat) ?_)
    rw [if_neg hend]
    exact .bind hturn (.pure _)
  | ok r =>
    rw [ho] at hturn
    obtain ⟨u,hu,huat⟩ := hturn
    have hlt := parseTurn_lt ho
    have hle := (skipBlank_suffix s).length_le
    have hp := h.place
    have hpu := huat.place
    refine ⟨u,.bind hq (.bind (get_gives hat) ?_),huat,by omega⟩
    rw [if_neg hend]
    exact .bind hu (.pure _)

theorem parseLoop_within {n : Nat} (h : At mem len p s) (hn : s.length < n) :
    Within (Inside len) (len + 1) n (turn mem k) (p,st) (Asm.parseLoop k n s st) := by
  induction n generalizing p s st with
  | zero => omega
  | succ n ih =>
    simp only [Asm.parseLoop]
    split
    · rename_i he
      exact .last (turn_end h he) (Nat.succ_pos n)
    · rename_i he
      have hturn := @turn_agrees mem len p k s st h he
      cases ho : Asm.parseTurn k (Asm.skipBlank s) st with
      | error e =>
        rw [ho] at hturn
        exact .last hturn (Nat.succ_pos n)
      | ok r =>
        rw [ho] at hturn
        obtain ⟨u,hu,huat,hlt⟩ := hturn
        have hp := h.place
        have hpu := huat.place
        exact .next hu (ih huat (by omega))

theorem turn_gives (h : At mem len p s) : ∃ r, Gives (Inside len) (len + 1) (turn mem k (p,st)) r ∧
    ∀ q st', r = .inl (q,st') → p < q ∧ q ≤ len := by
  by_cases he : atEnd (Asm.skipBlank s) = true
  · exact ⟨_,turn_end h he,fun _ _ hr => by cases hr⟩
  · have hturn := @turn_agrees mem len p k s st h he
    cases ho : Asm.parseTurn k (Asm.skipBlank s) st with
    | error e =>
      rw [ho] at hturn
      exact ⟨_,hturn,fun _ _ hr => by cases hr⟩
    | ok r =>
      rw [ho] at hturn
      obtain ⟨u,hu,huat,hlt⟩ := hturn
      refine ⟨_,hu,fun q st' hr => ?_⟩
      cases hr
      exact ⟨hlt,huat.le⟩

theorem parseLine_inside (line : Text) (hn : nul ∉ line) (h : Holds mem 0 line)
    (hs : st.line.y64asm = line) :
    Gives (Inside line.length) (line.length + 1) (parseLine mem k st) (Asm.parseLine k st) ∧
      ∀ ptr st, ptr ≤ line.length →
        ∃ r, Gives (Inside line.length) (line.length + 1) (turn mem k (ptr,st)) r ∧
          ∀ ptr' st', r = .inl (ptr',st') → ptr < ptr' ∧ ptr' ≤ line.length := by
  have hat : At mem line.length 0 line := ⟨h,hn,Nat.zero_add _⟩
  refine ⟨?_,fun ptr st hp => ?_⟩
  · rw [Asm.parseLine,hs]
    exact (parseLoop_within hat (Nat.lt_succ_self _)).gives (Nat.le_refl _)
  · have hd := hat.drop hp
    rw [Nat.zero_add] at hd
    exact turn_gives hd

theorem parseLine_inside_lone_sign :
    Gives (Inside 5) 6
        (parseLine (fun i => ['j','e',' ','$','-'].getD i nul) 0
          ⟨0,⟨.comm,⟨0,fun _ => 0,0⟩,['j','e',' ','$','-']⟩,0,[],[]⟩)
        (Asm.parseLine 0 ⟨0,⟨.comm,⟨0,fun _ => 0,0⟩,['j','e',' ','$','-']⟩,0,[],[]⟩) ∧
      ∀ ptr st, ptr ≤ 5 →
        ∃ r, Gives (Inside 5) 6 (turn (fun i => ['j','e',' ','$','-'].getD i nul) 0 (ptr,st)) r ∧
          ∀ ptr' st', r = .inl (ptr',st') → ptr < ptr' ∧ ptr' ≤ 5 :=
  parseLine_inside ['j','e',' ','$','-'] (by decide) ⟨rfl,rfl,rfl,rfl,rfl,rfl⟩ rfl

end Turns

end Asm.Cursor
