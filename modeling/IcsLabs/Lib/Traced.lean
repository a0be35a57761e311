import Mathlib.Data.List.Basic

-- a computation together with the accesses it makes, in order
structure Traced (A α : Type) where
  val : α
  log : List A

namespace Traced

variable {A α β : Type}

instance : Monad (Traced A) where
  pure a := ⟨a,[]⟩
  bind x f := ⟨(f x.val).val,x.log ++ (f x.val).log⟩

def All (p : A → Prop) (x : Traced A α) : Prop := ∀ a ∈ x.log, p a

instance (p : A → Prop) [DecidablePred p] (x : Traced A α) : Decidable (x.All p) :=
  inferInstanceAs (Decidable (∀ a ∈ x.log, p a))

@[simp] theorem val_pure (a : α) : (pure a : Traced A α).val = a := rfl

@[simp] theorem val_bind (x : Traced A α) (f : α → Traced A β) :
    (x >>= f).val = (f x.val).val := rfl

@[simp] theorem val_ite {c : Prop} [Decidable c] (x y : Traced A α) :
    (if c then x else y).val = if c then x.val else y.val := apply_ite val c x y

@[simp] theorem log_pure (a : α) : (pure a : Traced A α).log = [] := rfl

@[simp] theorem log_bind (x : Traced A α) (f : α → Traced A β) :
    (x >>= f).log = x.log ++ (f x.val).log := rfl

theorem log_ite {c : Prop} [Decidable c] (x y : Traced A α) :
    (if c then x else y).log = if c then x.log else y.log := apply_ite log c x y

variable {p : A → Prop}

@[simp] theorem all_pure (a : α) : (pure a : Traced A α).All p := by
  intro b hb
  cases hb

@[simp] theorem all_bind (x : Traced A α) (f : α → Traced A β) :
    (x >>= f).All p ↔ x.All p ∧ (f x.val).All p :=
  List.forall_mem_append

@[simp] theorem all_mk (a : α) (b : A) : (⟨a,[b]⟩ : Traced A α).All p ↔ p b :=
  List.forall_mem_singleton

theorem all_ite {c : Prop} [Decidable c] {x y : Traced A α} (hx : c → x.All p)
    (hy : ¬ c → y.All p) : (if c then x else y).All p := by
  split
  · exact hx ‹c›
  · exact hy ‹¬ c›

end Traced
