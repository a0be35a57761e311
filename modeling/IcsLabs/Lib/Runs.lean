namespace Runs

variable {σ κ : Type} (step : κ → σ → Option σ)

def run : List κ → σ → Option σ
  | [], s => some s
  | c :: cs, s => (step c s).bind (run cs)

-- cond holds of every step of the run and of the state it is taken in
def Meets (cond : κ → σ → Prop) : List κ → σ → Prop
  | [], _ => True
  | c :: cs, s =>
    cond c s ∧
      match step c s with
      | some t => Meets cond cs t
      | none => True

instance {cond : κ → σ → Prop} [∀ c s, Decidable (cond c s)] :
    (cs : List κ) → (s : σ) → Decidable (Meets step cond cs s)
  | [], _ => .isTrue trivial
  | c :: cs, s =>
    have : Decidable (match step c s with
        | some t => Meets step cond cs t
        | none => True) :=
      match step c s with
      | some t => instDecidableMeets cs t
      | none => .isTrue trivial
    inferInstanceAs (Decidable (_ ∧ _))

variable {step} {cond : κ → σ → Prop} {c : κ} {cs ds : List κ} {s t u : σ} {I : σ → Prop}

theorem run_cons : run step (c :: cs) s = some u ↔ ∃ t, step c s = some t ∧ run step cs t = some u :=
  Option.bind_eq_some_iff

theorem run_append (cs ds : List κ) (s : σ) :
    run step (cs ++ ds) s = (run step cs s).bind (run step ds) := by
  induction cs generalizing s with
  | nil => rfl
  | cons c cs ih =>
    rw [List.cons_append,run,run,Option.bind_assoc]
    exact congrArg _ (funext ih)

theorem exists_run {p : σ → Bool} (h : (run step cs s).any p = true) :
    ∃ t, run step cs s = some t ∧ p t = true := Option.any_eq_true _ _ |>.mp h

theorem run_invariant (hstep : ∀ c s t, I s → step c s = some t → I t) (hs : I s)
    (hr : run step cs s = some t) : I t := by
  induction cs generalizing s with
  | nil => exact Option.some.inj hr ▸ hs
  | cons c cs ih =>
    obtain ⟨u,hu,hr⟩ := run_cons.mp hr
    exact ih (hstep c s u hs hu) hr

theorem meets_cons (hm : Meets step cond (c :: cs) s) (hc : step c s = some t) :
    cond c s ∧ Meets step cond cs t := by
  obtain ⟨h,hm⟩ := hm
  rw [hc] at hm
  exact ⟨h,hm⟩

theorem meets_of_run (hc : ∀ c s t, step c s = some t → cond c s) (hr : run step cs s = some t) :
    Meets step cond cs s := by
  induction cs generalizing s with
  | nil => trivial
  | cons c cs ih =>
    obtain ⟨u,hu,hr⟩ := run_cons.mp hr
    refine ⟨hc c s u hu,?_⟩
    rw [hu]
    exact ih hr

theorem run_invariant_of_meets
    (hstep : ∀ c s t, I s → cond c s → step c s = some t → I t) (hs : I s)
    (hm : Meets step cond cs s) (hr : run step cs s = some t) : I t := by
  induction cs generalizing s with
  | nil => exact Option.some.inj hr ▸ hs
  | cons c cs ih =>
    obtain ⟨u,hu,hr⟩ := run_cons.mp hr
    obtain ⟨hc,hm⟩ := meets_cons hm hu
    exact ih (hstep c s u hs hc hu) hm hr

theorem meets_of_invariant {out : κ → σ → Prop}
    (hstep : ∀ c s t, I s → cond c s → step c s = some t → I t) (hout : ∀ c s, I s → out c s)
    (hs : I s) (hm : Meets step cond cs s) : Meets step out cs s := by
  induction cs generalizing s with
  | nil => trivial
  | cons c cs ih =>
    refine ⟨hout c s hs,?_⟩
    cases hc : step c s with
    | none => trivial
    | some t =>
      obtain ⟨h,hm⟩ := meets_cons hm hc
      exact ih (hstep c s t hs h hc) hm

theorem meets_congr {out : κ → σ → Prop}
    (hstep : ∀ c s t, I s → cond c s → step c s = some t → I t)
    (hiff : ∀ c s, I s → (out c s ↔ cond c s)) (hs : I s) :
    Meets step out cs s ↔ Meets step cond cs s := by
  induction cs generalizing s with
  | nil => exact Iff.rfl
  | cons c cs ih =>
    rw [Meets,Meets,hiff c s hs]
    refine and_congr_right fun hc => ?_
    cases ht : step c s with
    | none => exact Iff.rfl
    | some t => exact ih (hstep c s t hs hc ht)

-- some run leads to a state of P
def Reaches (step : κ → σ → Option σ) (P : σ → Prop) (s : σ) : Prop :=
  ∃ cs t, run step cs s = some t ∧ P t

section Reaches

variable {P : σ → Prop}

theorem Reaches.here (h : P s) : Reaches step P s := ⟨[],s,rfl,h⟩

theorem Reaches.next (hs : step c s = some t) (h : Reaches step P t) : Reaches step P s := by
  obtain ⟨cs,u,hr,hu⟩ := h
  exact ⟨c :: cs,u,run_cons.mpr ⟨t,hs,hr⟩,hu⟩

theorem not_reaches (hstep : ∀ c s t, I s → step c s = some t → I t) (hP : ∀ s, I s → ¬ P s)
    (hs : I s) : ¬ Reaches step P s := fun ⟨_,_,hr,ht⟩ => hP _ (run_invariant hstep hs hr) ht

end Reaches

section Image

variable {τ ι : Type} {step' : ι → τ → Option τ}

theorem run_flatMap (f : σ → τ) (g : κ → List ι)
    (hstep : ∀ c s t, step c s = some t → run step' (g c) (f s) = some (f t))
    (hr : run step cs s = some t) : run step' (cs.flatMap g) (f s) = some (f t) := by
  induction cs generalizing s with
  | nil => exact Option.some.inj hr ▸ rfl
  | cons c cs ih =>
    obtain ⟨u,hu,hr⟩ := run_cons.mp hr
    rw [List.flatMap_cons,run_append,hstep c s u hu,Option.bind_some]
    exact ih hr

theorem run_map (f : σ → τ) (g : κ → ι)
    (hstep : ∀ c s t, step c s = some t → step' (g c) (f s) = some (f t))
    (hr : run step cs s = some t) : run step' (cs.map g) (f s) = some (f t) := by
  rw [List.map_eq_flatMap]
  exact run_flatMap f (fun c => [g c])
    (fun c s t hc => run_cons.mpr ⟨f t,hstep c s t hc,rfl⟩) hr

end Image

end Runs
