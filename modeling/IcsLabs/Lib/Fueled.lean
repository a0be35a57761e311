import IcsLabs.Lib.Traced

-- a computation whose loops take at most the given number of turns each; none: one took more
def Fueled (A α : Type) : Type := Nat → Traced A (Option α)

namespace Fueled

variable {A α β σ : Type}

def andThen (x : Fueled A α) (f : α → Fueled A β) : Fueled A β := fun n =>
  match x n with
  | ⟨none,log⟩ => ⟨none,log⟩
  | ⟨some a,log⟩ => ⟨(f a n).val,log ++ (f a n).log⟩

instance : Monad (Fueled A) where
  pure a := fun _ => ⟨some a,[]⟩
  bind := andThen

-- while (1): a turn gives the state of the next one or leaves the loop
def turns (step : σ → Fueled A (σ ⊕ β)) : Nat → σ → Fueled A β
  | 0, _ => fun _ => ⟨none,[]⟩
  | k + 1, s => do
    match ← step s with
    | .inl s => turns step k s
    | .inr b => return b

def loop (step : σ → Fueled A (σ ⊕ β)) (s : σ) : Fueled A β := fun n => turns step n s n

-- from n turns on x comes to a, always by the same accesses, and these have p
def Gives (p : A → Prop) (n : Nat) (x : Fueled A α) (a : α) : Prop :=
  ∃ log, (∀ b ∈ log, p b) ∧ ∀ m, n ≤ m → x m = ⟨some a,log⟩

-- the same of a loop that needs k more turns
def Within (p : A → Prop) (n k : Nat) (step : σ → Fueled A (σ ⊕ β)) (s : σ) (b : β) : Prop :=
  ∃ log, (∀ b ∈ log, p b) ∧ ∀ j m, k ≤ j → n ≤ m → turns step j s m = ⟨some b,log⟩

variable {p : A → Prop} {n k : Nat} {x : Fueled A α} {f : α → Fueled A β} {a : α} {b : β} {c : A}
  {step : σ → Fueled A (σ ⊕ β)} {s t : σ}

theorem Gives.pure (a : α) : Gives p n (Pure.pure a) a :=
  ⟨[],List.forall_mem_nil _,fun _ _ => rfl⟩

theorem Gives.one (c : A) (hc : p c) (a : α) : Gives p n (fun _ => ⟨some a,[c]⟩) a :=
  ⟨[c],List.forall_mem_singleton.mpr hc,fun _ _ => rfl⟩

theorem andThen_some {m : Nat} {log : List A} (hx : x m = ⟨some a,log⟩) :
    (x >>= f) m = ⟨(f a m).val,log ++ (f a m).log⟩ := by
  change andThen x f m = _
  rw [andThen,hx]

theorem Gives.bind (hx : Gives p n x a) (hf : Gives p n (f a) b) : Gives p n (x >>= f) b := by
  obtain ⟨l,hl,hx⟩ := hx
  obtain ⟨r,hr,hf⟩ := hf
  refine ⟨l ++ r,List.forall_mem_append.mpr ⟨hl,hr⟩,fun m hm => ?_⟩
  rw [andThen_some (hx m hm),hf m hm]

theorem Within.next (hs : Gives p n (step s) (.inl t)) (ht : Within p n k step t b) :
    Within p n (k + 1) step s b := by
  obtain ⟨l,hl,hs⟩ := hs
  obtain ⟨r,hr,ht⟩ := ht
  refine ⟨l ++ r,List.forall_mem_append.mpr ⟨hl,hr⟩,fun j m hj hm => ?_⟩
  obtain ⟨j,rfl⟩ := Nat.exists_eq_add_of_le' (Nat.le_trans (Nat.le_add_left 1 k) hj)
  rw [turns,andThen_some (hs m hm)]
  simp only [ht j m (Nat.le_of_succ_le_succ hj) hm]

theorem Within.last (hs : Gives p n (step s) (.inr b)) (hk : 0 < k) : Within p n k step s b := by
  obtain ⟨l,hl,hs⟩ := hs
  refine ⟨l,hl,fun j m hj hm => ?_⟩
  obtain ⟨j,rfl⟩ := Nat.exists_eq_add_of_le' (Nat.lt_of_lt_of_le hk hj)
  rw [turns,andThen_some (hs m hm)]
  exact congrArg (Traced.mk _) (List.append_nil l)

theorem Within.gives (h : Within p n k step s b) (hk : k ≤ n) : Gives p n (loop step s) b := by
  obtain ⟨l,hl,h⟩ := h
  exact ⟨l,hl,fun m hm => h m m (Nat.le_trans hk hm) hm⟩

end Fueled
