import IcsLabs.Lib.Runs

namespace Trials

variable {σ κ ε : Type} (step : Nat → κ → σ → Except ε σ)

-- the steps in order, each told its number, up to the first that stops
def run : Nat → List κ → σ → Except ε σ
  | _, [], s => .ok s
  | i, c :: cs, s => (step i c s).bind (run (i + 1) cs)

variable {step} {i : Nat} {c : κ} {cs ds : List κ} {s t u : σ} {e : ε}

theorem bind_eq_ok {α β : Type} {x : Except ε α} {f : α → Except ε β} {b : β} :
    x.bind f = .ok b ↔ ∃ a, x = .ok a ∧ f a = .ok b := by
  cases x with
  | error e => simp [Except.bind]
  | ok a => simp [Except.bind]

theorem map_eq_ok {α β : Type} {x : Except ε α} {f : α → β} {b : β} :
    x.map f = .ok b ↔ ∃ a, x = .ok a ∧ f a = b := by
  cases x with
  | error e => simp [Except.map]
  | ok a => simp [Except.map]

theorem exists_ok {x : Except ε σ} (h : x.toBool = true) : ∃ t, x = .ok t := by
  cases x with
  | error e => cases h
  | ok t => exact ⟨t,rfl⟩

theorem exists_error {x : Except ε σ} (h : x.toBool = false) : ∃ e, x = .error e := by
  cases x with
  | error e => exact ⟨e,rfl⟩
  | ok t => cases h

theorem run_cons : run step i (c :: cs) s = .ok u ↔
    ∃ t, step i c s = .ok t ∧ run step (i + 1) cs t = .ok u := bind_eq_ok

theorem run_append (i : Nat) (cs ds : List κ) (s : σ) : run step i (cs ++ ds) s =
    (run step i cs s).bind (run step (i + cs.length) ds) := by
  induction cs generalizing i s with
  | nil => rfl
  | cons c cs ih =>
    rw [List.cons_append,run,run,List.length_cons]
    cases step i c s with
    | error e => rfl
    | ok t =>
      change run step (i + 1) (cs ++ ds) t = _
      rw [ih,Nat.add_right_comm i 1,Nat.add_assoc i cs.length 1]
      rfl

theorem run_stops (hr : run step i cs s = .error e) : ∃ pre c post t, cs = pre ++ c :: post ∧
    run step i pre s = .ok t ∧ step (i + pre.length) c t = .error e := by
  induction cs generalizing i s with
  | nil => cases hr
  | cons c cs ih =>
    rw [run] at hr
    cases hc : step i c s with
    | error e' =>
      rw [hc] at hr
      obtain rfl := Except.error.inj hr
      exact ⟨[],c,cs,s,rfl,rfl,hc⟩
    | ok t =>
      rw [hc] at hr
      obtain ⟨pre,d,post,u,rfl,hp,hd⟩ := ih hr
      refine ⟨c :: pre,d,post,u,rfl,run_cons.mpr ⟨t,hc,hp⟩,?_⟩
      rwa [List.length_cons,Nat.add_comm pre.length,← Nat.add_assoc]

theorem run_split (hr : run step i (cs ++ c :: ds) s = .ok u) : ∃ t t', run step i cs s = .ok t ∧
    step (i + cs.length) c t = .ok t' ∧ run step (i + cs.length + 1) ds t' = .ok u := by
  rw [run_append] at hr
  obtain ⟨t,ht,hr⟩ := bind_eq_ok.mp hr
  obtain ⟨t',ht',hr⟩ := run_cons.mp hr
  exact ⟨t,t',ht,ht',hr⟩

section Simulation

variable {α β δ : Type} {abs : Nat → κ → α → Except δ α} {spec : κ → β → Option β}
  {R : α → β → σ → Prop} {E : δ → ε → Prop} {Q : β → σ → Prop} {a : α} {b b' : β}

theorem run_tracks (hstep : ∀ i c b b' s t, Q b s → spec c b = some b' → step i c s = .ok t → Q b' t)
    (hQ : Q b s) (hb : Runs.run spec cs b = some b') (hr : run step i cs s = .ok u) : Q b' u := by
  induction cs generalizing i s b with
  | nil =>
    obtain rfl := Option.some.inj hb
    exact Except.ok.inj hr ▸ hQ
  | cons c cs ih =>
    obtain ⟨b1,hb1,hb⟩ := Runs.run_cons.mp hb
    obtain ⟨t,ht,hr⟩ := run_cons.mp hr
    exact ih (hstep i c b b1 s t hQ hb1 ht) hb hr

-- x stops as E says where o does, and else ends as R says
def Mirrors (E : δ → ε → Prop) (R : α → σ → Prop) (o : Except δ α) (x : Except ε σ) : Prop :=
  match o with
  | .error d => ∃ e, x = .error e ∧ E d e
  | .ok a => ∃ s, x = .ok s ∧ R a s

theorem run_mirrors (hstep : ∀ i c a b b' s, R a b s → spec c b = some b' →
    Mirrors E (R · b' ·) (abs i c a) (step i c s)) (hR : R a b s)
    (hb : Runs.run spec cs b = some b') :
    Mirrors E (R · b' ·) (run abs i cs a) (run step i cs s) := by
  induction cs generalizing i s a b with
  | nil =>
    obtain rfl := Option.some.inj hb
    exact ⟨s,rfl,hR⟩
  | cons c cs ih =>
    obtain ⟨b1,hb1,hb⟩ := Runs.run_cons.mp hb
    have hc := hstep i c a b b1 s hR hb1
    rw [run,run]
    cases ha : abs i c a with
    | error d =>
      rw [ha] at hc
      obtain ⟨e,he,hE⟩ := hc
      exact ⟨e,by rw [he]; rfl,hE⟩
    | ok a1 =>
      rw [ha] at hc
      obtain ⟨t,ht,hR1⟩ := hc
      rw [ht]
      exact ih hR1 hb

namespace Mirrors

variable {S : α → σ → Prop} {o : Except δ α} {x : Except ε σ}

theorem ok_iff (h : Mirrors E S o x) : (∃ t, x = .ok t) ↔ ∃ a, o = .ok a := by
  cases o with
  | error d =>
    obtain ⟨e,he,_⟩ := h
    simp [he]
  | ok a =>
    obtain ⟨t,ht,_⟩ := h
    exact ⟨fun _ => ⟨a,rfl⟩,fun _ => ⟨t,ht⟩⟩

theorem of_ok (h : Mirrors E S o x) (hx : x = .ok s) : ∃ a, o = .ok a ∧ S a s := by
  cases o with
  | error d =>
    obtain ⟨e,he,_⟩ := h
    cases he.symm.trans hx
  | ok a =>
    obtain ⟨t,ht,hS⟩ := h
    exact ⟨a,rfl,Except.ok.inj (ht.symm.trans hx) ▸ hS⟩

end Mirrors

end Simulation

end Trials
