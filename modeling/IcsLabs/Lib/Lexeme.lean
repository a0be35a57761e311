import Mathlib.Data.List.Infix
import Mathlib.Data.List.TakeWhile

-- a token and the blanks before it
structure Lexeme (A : Type) where
  gap : List A
  token : List A
deriving DecidableEq

namespace Lexeme

variable {A : Type}

def spread : List (Lexeme A) → List A → List A
  | [], t => t
  | g :: gs, t => g.gap ++ (g.token ++ spread gs t)

-- the last token, u where there is none
def final : List A → List (Lexeme A) → List A
  | u, [] => u
  | _, g :: gs => final g.token gs

theorem spread_append (gs hs : List (Lexeme A)) (t : List A) :
    spread (gs ++ hs) t = spread gs (spread hs t) := by
  induction gs with
  | nil => rfl
  | cons g gs ih => simp only [List.cons_append,spread,ih]

theorem final_append (u : List A) (gs hs : List (Lexeme A)) :
    final u (gs ++ hs) = final (final u gs) hs := by
  induction gs generalizing u with
  | nil => rfl
  | cons g gs ih => exact ih g.token

end Lexeme

-- the blank letters, the letters that run on into a word, and the tokens no blank may follow
structure Spelling (A : Type) where
  blank : A → Bool
  word : A → Bool
  sticky : List A → Bool
  apart : ∀ c, blank c = true → word c = false

namespace Spelling
open Lexeme

variable {A : Type} (S : Spelling A)

def begins (w : List A) : Bool := w.head?.any S.word

def ends (w : List A) : Bool := w.getLast?.any S.word

-- the same tokens behind u with other blanks; two words that were apart stay apart
inductive Respaced : List A → List (Lexeme A) → List (Lexeme A) → Prop
  | nil {u : List A} : Respaced u [] []
  | cons {u w b b' : List A} {gs gs' : List (Lexeme A)} : (∀ c ∈ b', S.blank c = true) →
    (S.ends u = true → S.begins w = true → b ≠ [] → b' ≠ []) → Respaced w gs gs' →
      Respaced u (⟨b,w⟩ :: gs) (⟨b',w⟩ :: gs')

def tight : List A → List (Lexeme A) → Bool
  | _, [] => true
  | u, g :: gs => (!S.sticky u || g.gap.isEmpty) && tight g.token gs

-- a token is a word, or starts with a letter that is in no word
def IsToken (w : List A) : Prop :=
  ∃ c cs, w = c :: cs ∧ S.blank c = false ∧ (S.word c = true → ∀ d ∈ cs, S.word d = true)

structure Lexed (g : Lexeme A) : Prop where
  gap : ∀ c ∈ g.gap, S.blank c = true
  token : S.IsToken g.token

-- the first letter past the blanks
def first (s : List A) : Option A := (s.dropWhile S.blank).head?

-- the first letter past a word and the blanks after it
def past (t : List A) : Option A := ((t.dropWhile S.word).dropWhile S.blank).head?

-- t' goes on with no word that t does not go on with
structure Follow (t t' : List A) : Prop where
  run : t'.takeWhile S.word <+: t.takeWhile S.word
  past : ∀ c, S.word c = false → S.past t' = some c → S.past t = some c

variable {S} {u w t t' s : List A} {gs gs' hs hs' : List (Lexeme A)} {c : A} {g : Lexeme A}

theorem Follow.refl (t : List A) : S.Follow t t := ⟨List.prefix_rfl,fun _ _ h => h⟩

theorem Follow.ahead (h : S.Follow t t') (hw : w <+: t') (hall : ∀ c ∈ w, S.word c = true) :
    w <+: t := by
  obtain ⟨r,rfl⟩ := hw
  refine List.IsPrefix.trans ?_ (h.run.trans (List.takeWhile_prefix _))
  rw [List.takeWhile_append_of_pos hall]
  exact List.prefix_append _ _

theorem Respaced.final (h : S.Respaced u gs gs') : Lexeme.final u gs' = Lexeme.final u gs := by
  induction h with
  | nil => rfl
  | cons _ _ _ ih => exact ih

theorem Respaced.append (h : S.Respaced u (gs ++ hs) gs') : ∃ gs₁ gs₂, gs' = gs₁ ++ gs₂ ∧
    S.Respaced u gs gs₁ ∧ S.Respaced (Lexeme.final u gs) hs gs₂ := by
  induction gs generalizing u gs' with
  | nil => exact ⟨[],gs',rfl,.nil,h⟩
  | cons g gs ih =>
    cases h with
    | cons hb hj h =>
      obtain ⟨gs₁,gs₂,rfl,h1,h2⟩ := ih h
      exact ⟨_,gs₂,rfl,.cons hb hj h1,h2⟩

theorem tight_append : S.tight u (gs ++ hs) = (S.tight u gs && S.tight (final u gs) hs) := by
  induction gs generalizing u with
  | nil => rfl
  | cons g gs ih => simp only [List.cons_append,tight,final,ih,Bool.and_assoc]

theorem dropWhile_gap {p : A → Bool} {b : List A} (hb : ∀ c ∈ b, p c = true) (hc : p c = false) :
    (b ++ c :: s).dropWhile p = c :: s := by
  rw [List.dropWhile_append_of_pos hb,List.dropWhile_cons_of_neg (by simp [hc])]

theorem takeWhile_stop (hc : S.word c = false) : (c :: s).takeWhile S.word = [] :=
  List.takeWhile_cons_of_neg (by simp [hc])

theorem gap_stop {b : List A} (hb : ∀ c ∈ b, S.blank c = true) (hc : b ≠ [] ∨ S.word c = false) :
    (b ++ c :: s).takeWhile S.word = [] ∧ (b ++ c :: s).dropWhile S.word = b ++ c :: s := by
  cases b with
  | nil =>
    have hw : S.word c = false := hc.resolve_left fun h => h rfl
    exact ⟨takeWhile_stop hw,List.dropWhile_cons_of_neg (by simp [hw])⟩
  | cons d b =>
    have hw := S.apart d (hb d List.mem_cons_self)
    exact ⟨takeWhile_stop hw,List.dropWhile_cons_of_neg (by simp [hw])⟩

theorem past_gap {b : List A} (hb : ∀ c ∈ b, S.blank c = true) (hc : S.blank c = false)
    (hw : b ≠ [] ∨ S.word c = false) : S.past (b ++ c :: s) = some c := by
  rw [past,(gap_stop hb hw).2,dropWhile_gap hb hc]
  rfl

theorem past_word (hw : ∀ c ∈ w, S.word c = true) : S.past (w ++ t) = S.past t := by
  rw [past,List.dropWhile_append_of_pos hw]
  rfl

theorem ends_word (hw : ∀ c ∈ w, S.word c = true) (hne : w ≠ []) : S.ends w = true := by
  rw [ends,List.getLast?_eq_getLast_of_ne_nil hne]
  exact hw _ (List.getLast_mem hne)

theorem Respaced.follow (h : S.Respaced u gs gs') (hl : ∀ g ∈ gs, S.Lexed g)
    (ht : S.ends (Lexeme.final u gs) = true → S.Follow t t') (hu : S.ends u = true) :
    S.Follow (spread gs t) (spread gs' t') := by
  induction h with
  | nil => exact ht hu
  | @cons u w b b' gs gs' hb hj h ih =>
    obtain ⟨⟨hgap,c,cs,hw,hc,hword⟩,hls⟩ := List.forall_mem_cons.mp hl
    change w = c :: cs at hw
    change ∀ c ∈ b, S.blank c = true at hgap
    subst w
    simp only [spread,List.cons_append]
    have hstop (hw : b' ≠ [] ∨ S.word c = false) :
        (b' ++ c :: (cs ++ spread gs' t')).takeWhile S.word <+:
          (b ++ c :: (cs ++ spread gs t)).takeWhile S.word := by
      rw [(gap_stop hb hw).1]
      exact List.nil_prefix
    cases hcw : S.word c with
    | false =>
      refine ⟨hstop (Or.inr hcw),fun d _ hd => ?_⟩
      rw [past_gap hb hc (Or.inr hcw)] at hd
      rw [past_gap hgap hc (Or.inr hcw),← hd]
    | true =>
      by_cases hne : b' = []
      · obtain rfl : b = [] := by_contra fun h0 => hj hu hcw h0 hne
        subst hne
        have hall : ∀ d ∈ c :: cs, S.word d = true := List.forall_mem_cons.mpr ⟨hcw,hword hcw⟩
        obtain ⟨hrun,hpast⟩ := ih hls ht (ends_word hall (List.cons_ne_nil c cs))
        constructor
        · change ((c :: cs) ++ spread gs' t').takeWhile _ <+: ((c :: cs) ++ spread gs t).takeWhile _
          rw [List.takeWhile_append_of_pos hall,List.takeWhile_append_of_pos hall]
          exact (List.prefix_append_right_inj _).mpr hrun
        · change ∀ d, _ → S.past ((c :: cs) ++ spread gs' t') = _ →
            S.past ((c :: cs) ++ spread gs t) = _
          rwa [past_word hall,past_word hall]
      · refine ⟨hstop (Or.inl hne),fun d hdw hd => ?_⟩
        rw [past_gap hb hc (Or.inl hne)] at hd
        cases hd
        rw [hcw] at hdw
        cases hdw

theorem Respaced.first (h : S.Respaced u gs gs') (hl : ∀ g ∈ gs, S.Lexed g) (hne : gs ≠ []) :
    S.first (spread gs' t') = S.first (spread gs t) := by
  cases h with
  | nil => exact absurd rfl hne
  | @cons u w b b' gs gs' hb hj h =>
    obtain ⟨hgap,c,cs,hw,hc,-⟩ := hl _ List.mem_cons_self
    change w = c :: cs at hw
    change ∀ c ∈ b, S.blank c = true at hgap
    subst w
    simp only [Spelling.first,spread,List.cons_append]
    rw [dropWhile_gap hb hc,dropWhile_gap hgap hc]
    rfl

variable (S) in
-- p reads a and the tokens gs from s up to t, and from the same tokens with other blanks;
-- i and o tell whether the token before gs and the last one of gs are sticky
structure Reading {α : Type} (i o : Bool) (p : List A → Option (α × List A)) (s : List A) (a : α)
    (t : List A) (gs : List (Lexeme A)) : Prop where
  split : spread gs t = s
  lexed : ∀ g ∈ gs, S.Lexed g
  final : ∀ u, S.sticky u = i → S.sticky (Lexeme.final u gs) = o
  free : ∀ u gs' t', S.sticky u = i → S.Respaced u gs gs' →
    (S.ends (Lexeme.final u gs) = true → S.Follow t t') →
      p (spread gs' t') = if S.tight u gs' = true then some (a,t') else none

abbrev Lexer (A : Type) := List A → Option (List (Lexeme A) × List A)

variable (S) in
-- what p takes in, as one token
def lexeme {α : Type} (p : List A → Option (α × List A)) : Lexer A := fun s => (p s).map fun r =>
  ([⟨s.takeWhile S.blank,(s.dropWhile S.blank).take ((s.dropWhile S.blank).length - r.2.length)⟩],r.2)

def seq (l m : Lexer A) : Lexer A := fun s =>
  (l s).bind fun r => (m r.2).map fun q => (r.1 ++ q.1,q.2)

variable (S) in
-- the lexer l tells the tokens of p, whose blanks are free; clean is what may follow them
def Free {α : Type} (clean : List A → Prop) (i o : Bool) (p : List A → Option (α × List A))
    (l : Lexer A) : Prop :=
  ∀ s a t, p s = some (a,t) → clean t → ∃ gs, l s = some (gs,t) ∧ S.Reading i o p s a t gs

section Readers

variable {α β : Type} {clean : List A → Prop} {i j o : Bool} {p : List A → Option (α × List A)}
  {l m : Lexer A} {a : α} {b : β} {v : List A}

theorem Reading.seq {q : α → List A → Option (β × List A)} (h : S.Reading i j p s a t gs)
    (h' : S.Reading j o (q a) t b v hs) :
    S.Reading i o (fun s => (p s).bind fun (a,s) => q a s) s b v (gs ++ hs) where
  split := by rw [spread_append,h'.split,h.split]
  lexed := fun g hg => (List.mem_append.mp hg).elim (h.lexed g) (h'.lexed g)
  final := fun u hu => by
    rw [final_append]
    exact h'.final _ (h.final u hu)
  free := by
    intro u ks v' hu hk hf
    obtain ⟨gs',hs',rfl,h1,h2⟩ := hk.append
    rw [final_append] at hf
    rw [spread_append,tight_append,h1.final]
    have hfol := h2.follow h'.lexed hf
    rw [h'.split] at hfol
    have hp := h.free u gs' (spread hs' v') hu h1 hfol
    have hq := h'.free _ hs' v' (h.final u hu) h2 hf
    rw [hp]
    cases S.tight u gs' with
    | false => rfl
    | true => exact hq

theorem Free.seq {clean' : List A → Prop} {q : α → List A → Option (β × List A)}
    (hp : S.Free clean' i j p l) (hq : ∀ a, S.Free clean j o (q a) m)
    (hc : ∀ a s r, q a s = some r → clean' s) :
    S.Free clean i o (fun s => (p s).bind fun (a,s) => q a s) (Spelling.seq l m) := by
  intro s b v h hv
  obtain ⟨⟨a,t⟩,ha,hb⟩ := Option.bind_eq_some_iff.mp h
  obtain ⟨gs,hl,hr⟩ := hp s a t ha (hc a t _ hb)
  obtain ⟨hs,hm,hr'⟩ := hq a t b v hb hv
  exact ⟨gs ++ hs,by simp [Spelling.seq,hl,hm],hr.seq hr'⟩

theorem Reading.map (f : α → β) (h : S.Reading i o p s a t gs) :
    S.Reading i o (fun s => (p s).bind fun (a,s) => some (f a,s)) s (f a) t gs where
  split := h.split
  lexed := h.lexed
  final := h.final
  free := by
    intro u gs' t' hu hk hf
    rw [h.free u gs' t' hu hk hf]
    split <;> rfl

theorem Free.map {f : α → β} (hp : S.Free clean i o p l) :
    S.Free clean i o (fun s => (p s).bind fun (a,s) => some (f a,s)) l := by
  intro s b t h ht
  obtain ⟨⟨a,t⟩,ha,he⟩ := Option.bind_eq_some_iff.mp h
  cases he
  obtain ⟨gs,hl,hr⟩ := hp s a t ha ht
  exact ⟨gs,hl,hr.map f⟩

theorem Free.one (a : α) : S.Free clean i i (fun s => some (a,s)) fun s => some ([],s) := by
  intro s _ _ h _
  cases h
  refine ⟨[],rfl,rfl,fun g hg => absurd hg List.not_mem_nil,fun u hu => hu,?_⟩
  intro u gs' t' _ hk _
  cases hk
  rfl

theorem Free.ite {q : List A → Option (α × List A)} {P : Prop} [Decidable P]
    (hp : S.Free clean i o p l) (hq : S.Free clean i o q m) :
    S.Free clean i o (fun s => if P then p s else q s) (if P then l else m) := by
  split
  · exact hp
  · exact hq

theorem Free.or {q : List A → Option (α × List A)} {f : Option A → Bool}
    (hp : S.Free clean i o p l) (hq : S.Free clean i o q m)
    (hl : ∀ s gs t, l s = some (gs,t) → gs ≠ []) (hm : ∀ s gs t, m s = some (gs,t) → gs ≠ []) :
    S.Free clean i o (fun s => if f (S.first s) = true then p s else q s)
      fun s => if f (S.first s) = true then l s else m s := by
  intro s a t h ht
  dsimp only at h ⊢
  have hsame {r : List A → Option (α × List A)} {gs : List (Lexeme A)}
      (hr : S.Reading i o r s a t gs) (hne : gs ≠ []) (heq : ∀ s', S.first s' = S.first s →
        (if f (S.first s') = true then p s' else q s') = r s') :
      S.Reading i o (fun s => if f (S.first s) = true then p s else q s) s a t gs := by
    refine ⟨hr.split,hr.lexed,hr.final,fun u gs' t' hu hk hf => ?_⟩
    have hfirst : S.first (spread gs' t') = S.first (spread gs t) := hk.first hr.lexed hne
    exact (heq _ (hr.split ▸ hfirst)).trans (hr.free u gs' t' hu hk hf)
  by_cases hc : f (S.first s) = true
  · rw [if_pos hc] at h ⊢
    obtain ⟨gs,hg,hr⟩ := hp s a t h ht
    exact ⟨gs,hg,hsame hr (hl s gs t hg) fun s' hs => if_pos (hs ▸ hc)⟩
  · rw [if_neg hc] at h ⊢
    obtain ⟨gs,hg,hr⟩ := hq s a t h ht
    exact ⟨gs,hg,hsame hr (hm s gs t hg) fun s' hs => if_neg (hs ▸ hc)⟩

theorem lexeme_ne_nil (h : S.lexeme p s = some (gs,t)) : gs ≠ [] := by
  obtain ⟨r,-,he⟩ := Option.map_eq_some_iff.mp h
  cases he
  exact List.cons_ne_nil _ _

theorem seq_ne_nil (hl : ∀ s gs t, l s = some (gs,t) → gs ≠ []) (h : seq l m s = some (gs,t)) :
    gs ≠ [] := by
  obtain ⟨r,hr,h⟩ := Option.bind_eq_some_iff.mp h
  obtain ⟨q,-,he⟩ := Option.map_eq_some_iff.mp h
  cases he
  exact List.append_ne_nil_of_left_ne_nil (hl s r.1 r.2 hr) _

theorem Free.mono {clean' : List A → Prop} (hp : S.Free clean' i o p l)
    (hc : ∀ t, clean t → clean' t) : S.Free clean i o p l :=
  fun s a t h ht => hp s a t h (hc t ht)

theorem lexeme_eq (h : p s = some (a,t)) (hw : s.dropWhile S.blank = w ++ t) :
    S.lexeme p s = some ([⟨s.takeWhile S.blank,w⟩],t) := by
  simp [lexeme,h,hw]

theorem Free.token (h : ∀ s a t, p s = some (a,t) → clean t → ∃ w, s.dropWhile S.blank = w ++ t ∧
    S.IsToken w ∧ S.sticky w = o ∧ ∀ b t', (∀ c ∈ b, S.blank c = true) →
      (S.ends w = true → S.Follow t t') →
        p (b ++ (w ++ t')) = if (!i || b.isEmpty) = true then some (a,t') else none) :
    S.Free clean i o p (S.lexeme p) := by
  intro s a t ha ht
  obtain ⟨w,hw,htok,hst,hp⟩ := h s a t ha ht
  have hgap : ∀ c ∈ s.takeWhile S.blank, S.blank c = true := fun c hc => List.mem_takeWhile_imp hc
  refine ⟨_,lexeme_eq ha hw,?_,?_,fun u _ => hst,?_⟩
  · simp only [spread]
    rw [← hw,List.takeWhile_append_dropWhile]
  · intro g hg
    obtain rfl := List.mem_singleton.mp hg
    exact ⟨hgap,htok⟩
  · intro u gs' t' hu hk hf
    cases hk with
    | cons hb hj hk =>
      cases hk
      simp only [spread,tight,hu,Bool.and_true]
      exact hp _ t' hb hf

end Readers

end Spelling
