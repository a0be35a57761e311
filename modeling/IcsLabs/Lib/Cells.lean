import IcsLabs.Lib.Traced
import Mathlib.Data.Set.Lattice
import Mathlib.Data.Set.Function

namespace Cells

-- a computation over the cells ι, with every cell it touches
abbrev Prog (ι α β : Type) := StateT (ι → α) (Traced ι) β

variable {ι κ α β : Type}

def load (i : ι) : Prog ι α α := fun s => ⟨(s i,s),[i]⟩

def store [DecidableEq ι] (i : ι) (x : α) : Prog ι α Unit :=
  fun s => ⟨((),Function.update s i x),[i]⟩

-- for (i = lo; i < hi; i += step)
def every (lo hi step : Nat) : List Nat := List.range' lo ((hi - lo + step - 1) / step) step

section Every

variable {lo hi step n x : Nat}

theorem mem_every (h : 0 < step) : x ∈ every lo hi step ↔ ∃ k, x = lo + step * k ∧ x < hi := by
  rw [every,List.mem_range']
  have hk (k : Nat) : k < (hi - lo + step - 1) / step ↔ lo + step * k < hi := by
    rw [← Nat.succ_le_iff,Nat.le_div_iff_mul_le h,Nat.succ_mul,Nat.mul_comm k]
    omega
  constructor
  · rintro ⟨k,hlt,rfl⟩
    exact ⟨k,rfl,(hk k).mp hlt⟩
  · rintro ⟨k,rfl,hlt⟩
    exact ⟨k,(hk k).mpr hlt,rfl⟩

theorem mem_every_one : x ∈ every lo hi 1 ↔ lo ≤ x ∧ x < hi := by
  rw [mem_every Nat.one_pos]
  constructor
  · rintro ⟨k,rfl,h⟩
    omega
  · rintro ⟨h0,h⟩
    exact ⟨x - lo,by omega,h⟩

theorem nodup_every (h : 0 < step) : (every lo hi step).Nodup :=
  List.nodup_range' step h

theorem exists_strip (h : 0 < step) : (∃ i ∈ every 0 n step, i ≤ x ∧ x < i + step ∧ x < n) ↔
    x < n := by
  constructor
  · rintro ⟨i,-,-,-,hx⟩
    exact hx
  · intro hx
    have hd := Nat.div_add_mod x step
    have hm := Nat.mod_lt x h
    exact ⟨step * (x / step),(mem_every h).mpr ⟨x / step,by omega,by omega⟩,by omega,by omega,hx⟩

theorem strip_le (h : 0 < step) (hn : step ∣ n) (hx : x ∈ every 0 n step) : x + step ≤ n := by
  obtain ⟨k,rfl,hlt⟩ := (mem_every h).mp hx
  obtain ⟨m,rfl⟩ := hn
  have hk : k < m := Nat.lt_of_mul_lt_mul_left (by omega : step * k < step * m)
  have := Nat.mul_le_mul_left step hk
  rw [Nat.mul_succ] at this
  omega

end Every

-- the cells S get the values v, the others stay
structure Overwrites (v : ι → α) (S : Set ι) (s s' : ι → α) : Prop where
  inside : Set.EqOn s' v S
  outside : Set.EqOn s' s Sᶜ

section Overwrites

variable {v w s s' s'' : ι → α} {S T R : Set ι}

theorem Overwrites.refl (v s : ι → α) : Overwrites v ∅ s s := ⟨fun _ h => h.elim,fun _ _ => rfl⟩

theorem Overwrites.trans (h : Overwrites v S s s') (h' : Overwrites w T s' s'')
    (hv : Set.EqOn v w (S \ T)) : Overwrites w (S ∪ T) s s'' := by
  refine ⟨fun i hi => ?_,fun i hi => ?_⟩
  · by_cases hT : i ∈ T
    · exact h'.inside hT
    · have hS := hi.resolve_right hT
      exact ((h'.outside hT).trans (h.inside hS)).trans (hv ⟨hS,hT⟩)
  · exact (h'.outside fun hT => hi (.inr hT)).trans (h.outside fun hS => hi (.inl hS))

theorem Overwrites.update [DecidableEq ι] (v s : ι → α) (i : ι) :
    Overwrites v {i} s (Function.update s i (v i)) := by
  refine ⟨?_,fun j hj => Function.update_of_ne hj _ _⟩
  rintro j rfl
  exact Function.update_self _ _ _

theorem Overwrites.keeps (h : Overwrites v S s s') (hR : Set.EqOn s v R) : Set.EqOn s' v R := by
  intro i hi
  by_cases hS : i ∈ S
  · exact h.inside hS
  · exact (h.outside hS).trans (hR hi)

theorem Overwrites.unique (h : Overwrites v S s s') (h' : Overwrites v S s s'') : s' = s'' := by
  funext i
  by_cases hS : i ∈ S
  · exact (h.inside hS).trans (h'.inside hS).symm
  · exact (h.outside hS).trans (h'.outside hS).symm

end Overwrites

-- from pre on, p overwrites the cells S with v and touches only cells in ok
def Writes (ok : ι → Prop) (pre : (ι → α) → Prop) (v : ι → α) (S : Set ι) (p : Prog ι α Unit) :
    Prop :=
  ∀ s, pre s → Overwrites v S s (p s).val.2 ∧ (p s).All ok

namespace Writes

variable {ok : ι → Prop} {pre pre' : (ι → α) → Prop} {v w : ι → α} {S T : Set ι}
  {p q : Prog ι α Unit} {i : ι} {x : α}

theorem congr (h : Writes ok pre v S p) (hS : S = T) : Writes ok pre v T p := hS ▸ h

theorem skip : Writes ok pre v ∅ (pure ()) := fun s _ => ⟨.refl v s,Traced.all_pure _⟩

theorem seq (hp : Writes ok pre v S p) (hq : Writes ok pre' w T q) (hv : Set.EqOn v w (S \ T))
    (hs : ∀ s s', pre s → Overwrites v S s s' → pre' s') :
    Writes ok pre w (S ∪ T) (p >>= fun _ => q) := by
  intro s h
  obtain ⟨ho,ha⟩ := hp s h
  obtain ⟨ho',ha'⟩ := hq (p s).val.2 (hs s _ h ho)
  exact ⟨ho.trans ho' hv,(Traced.all_bind (p s) fun r => q r.2).mpr ⟨ha,ha'⟩⟩

theorem load {f : α → Prog ι α Unit} (hi : ok i) (hx : ∀ s, pre s → s i = x)
    (hf : Writes ok pre v S (f x)) : Writes ok pre v S (load i >>= f) := by
  intro s h
  have hb := hf s h
  rw [← hx s h] at hb
  exact ⟨hb.1,(Traced.all_bind (Cells.load i s) fun r => f r.1 r.2).mpr
    ⟨(Traced.all_mk _ _).mpr hi,hb.2⟩⟩

theorem store [DecidableEq ι] (hi : ok i) : Writes ok pre v {i} (store i (v i)) :=
  fun s _ => ⟨.update v s i,(Traced.all_mk _ _).mpr hi⟩

theorem forM {l : List κ} {pre : κ → (ι → α) → Prop} {S : κ → Set ι} {f : κ → Prog ι α Unit}
    (hf : ∀ k ∈ l, Writes ok (pre k) v (S k) (f k))
    (hs : l.Pairwise fun k j => ∀ s s', pre j s → Overwrites v (S k) s s' → pre j s') :
    Writes ok (fun s => ∀ k ∈ l, pre k s) v {i | ∃ k ∈ l, i ∈ S k} (l.forM f) := by
  induction l with
  | nil => exact skip.congr (by simp)
  | cons k l ih =>
    obtain ⟨hk,hl⟩ := List.pairwise_cons.mp hs
    have h1 : Writes ok (fun s => ∀ j ∈ k :: l, pre j s) v (S k) (f k) :=
      fun s h => hf k List.mem_cons_self s (h k List.mem_cons_self)
    have h2 := ih (fun j hj => hf j (List.mem_cons_of_mem _ hj)) hl
    refine (h1.seq h2 (fun _ _ => rfl) fun s s' h ho j hj => ?_).congr ?_
    · exact hk j hj s s' (h j (List.mem_cons_of_mem _ hj)) ho
    · ext i
      simp

theorem forM_eqOn {l : List κ} {R : Set ι} {S : κ → Set ι} {f : κ → Prog ι α Unit}
    (hf : ∀ k ∈ l, Writes ok (fun s => Set.EqOn s v R) v (S k) (f k)) :
    Writes ok (fun s => Set.EqOn s v R) v {i | ∃ k ∈ l, i ∈ S k} (l.forM f) :=
  fun s h => forM hf (List.pairwise_of_forall fun _ _ _ _ hR ho => ho.keeps hR) s fun _ _ => h

end Writes

theorem allM_true {l : List κ} {f : κ → Prog ι α Bool} {s : ι → α}
    (h : ∀ k ∈ l, (f k s).val = (true,s)) : (l.allM f s).val = (true,s) := by
  induction l with
  | nil => rfl
  | cons k l ih =>
    have hk := h k List.mem_cons_self
    have he : ((k :: l).allM f s).val =
        ((match (f k s).val.1 with
          | true => l.allM f
          | false => pure false) (f k s).val.2).val := rfl
    rw [he,hk]
    exact ih fun j hj => h j (List.mem_cons_of_mem _ hj)

end Cells
