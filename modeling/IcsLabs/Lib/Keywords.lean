import Mathlib.Data.List.Basic

-- tables whose entries are looked up by the name that a text starts with
namespace Keywords

variable {α κ : Type} {name : α → List κ} {table : List α} {s u : List κ} {a b : α}
  {test : α → Bool}

-- the entry with the longest name that s starts with
structure Longest (name : α → List κ) (table : List α) (s : List κ) (a : α) : Prop where
  mem : a ∈ table
  starts : name a <+: s
  longest : ∀ b ∈ table, name b <+: s → (name b).length ≤ (name a).length

-- the only entry with a name that s starts with
structure Sole (name : α → List κ) (table : List α) (s : List κ) (a : α) : Prop where
  mem : a ∈ table
  starts : name a <+: s
  sole : ∀ b ∈ table, name b <+: s → b = a

-- no name starts the name of a later entry
def Ordered (name : α → List κ) (table : List α) : Prop :=
  table.Pairwise fun a b => ¬ name a <+: name b

-- no name starts the name of another entry
def PrefixFree (name : α → List κ) (table : List α) : Prop :=
  table.Pairwise fun a b => ¬ name a <+: name b ∧ ¬ name b <+: name a

section Decide

variable [DecidableEq κ]

instance : Decidable (Ordered name table) := inferInstanceAs (Decidable (List.Pairwise _ _))

instance : Decidable (PrefixFree name table) := inferInstanceAs (Decidable (List.Pairwise _ _))

end Decide

theorem Ordered.eq_of_prefix (ho : Ordered name table) (ha : a ∈ table) (hb : b ∈ table)
    (hab : name a <+: name b) (hba : name b <+: name a) : a = b := by
  have hall : ∀ x ∈ table, ∀ y ∈ table, name x <+: name y → name y <+: name x → x = y := by
    refine List.Pairwise.forall_of_forall_of_flip (fun _ _ _ _ => rfl) ?_ ?_
    · exact ho.imp fun hn h _ => absurd h hn
    · exact ho.imp fun hn _ h => absurd h hn
  exact hall a ha b hb hab hba

theorem Longest.prefix_of (h : Longest name table s a) (hb : b ∈ table) (hs : name b <+: s) :
    name b <+: name a :=
  List.prefix_of_prefix_length_le hs h.starts (h.longest b hb hs)

theorem Longest.unique (ho : Ordered name table) (ha : Longest name table s a)
    (hb : Longest name table s b) : a = b :=
  ho.eq_of_prefix ha.mem hb.mem (hb.prefix_of ha.mem ha.starts) (ha.prefix_of hb.mem hb.starts)

theorem longest_append : Longest name table (name a ++ u) a ↔
    a ∈ table ∧ ∀ b ∈ table, ∀ r, name a ++ r = name b → r <+: u → r = [] := by
  constructor
  · intro h
    refine ⟨h.mem,fun b hb r hr hru => ?_⟩
    have hs : name b <+: name a ++ u := hr ▸ (List.prefix_append_right_inj _).mpr hru
    have hle := h.longest b hb hs
    rw [← hr,List.length_append] at hle
    exact List.eq_nil_of_length_eq_zero (by omega)
  · rintro ⟨ha,hrest⟩
    refine ⟨ha,List.prefix_append _ _,fun b hb hs => ?_⟩
    rcases List.prefix_or_prefix_of_prefix hs (List.prefix_append (name a) u) with h | ⟨r,hr⟩
    · exact h.length_le
    · have hru : r <+: u := (List.prefix_append_right_inj (name a)).mp (hr ▸ hs)
      have hnil := hrest b hb r hr hru
      rw [hnil,List.append_nil] at hr
      exact Nat.le_of_eq (congrArg List.length hr).symm

section Find

variable (htest : ∀ a ∈ table, (test a = true ↔ name a <+: s))

include htest

theorem find_eq_none : table.find? test = none ↔ ∀ a ∈ table, ¬ name a <+: s := by
  rw [List.find?_eq_none]
  exact forall₂_congr fun a ha => not_congr (htest a ha)

-- in an ordered table the first entry that fits is the longest
theorem Ordered.longest_of_find (ho : Ordered name table) (h : table.find? test = some a) :
    Longest name table s a := by
  induction table with
  | nil => cases h
  | cons c cs ih =>
    obtain ⟨hc,hcs⟩ := List.pairwise_cons.mp ho
    obtain ⟨hfirst,hrest⟩ := List.forall_mem_cons.mp htest
    rw [List.find?_cons] at h
    cases hm : test c with
    | true =>
      rw [hm] at h
      obtain rfl := Option.some.inj h
      have hs := hfirst.mp hm
      refine ⟨List.mem_cons_self,hs,fun b hb hbs => ?_⟩
      rcases List.mem_cons.mp hb with rfl | hb
      · exact Nat.le_refl _
      · rcases List.prefix_or_prefix_of_prefix hs hbs with hle | hle
        · exact absurd hle (hc b hb)
        · exact hle.length_le
    | false =>
      rw [hm] at h
      have hl := ih hrest hcs h
      refine ⟨List.mem_cons_of_mem c hl.mem,hl.starts,fun b hb hbs => ?_⟩
      rcases List.mem_cons.mp hb with rfl | hb
      · rw [hfirst.mpr hbs] at hm
        cases hm
      · exact hl.longest b hb hbs

theorem Ordered.find_eq_some (ho : Ordered name table) :
    table.find? test = some a ↔ Longest name table s a := by
  refine ⟨ho.longest_of_find htest,fun ha => ?_⟩
  cases hf : table.find? test with
  | none => exact absurd ha.starts ((find_eq_none htest).mp hf a ha.mem)
  | some b => rw [(ho.longest_of_find htest hf).unique ho ha]

end Find

theorem PrefixFree.ordered (hp : PrefixFree name table) : Ordered name table := hp.imp And.left

theorem PrefixFree.eq_of_prefix (hp : PrefixFree name table) (ha : a ∈ table) (hb : b ∈ table)
    (hab : name a <+: name b) : a = b := by
  have hall : ∀ x ∈ table, ∀ y ∈ table, name x <+: name y → x = y := by
    refine List.Pairwise.forall_of_forall_of_flip (fun _ _ _ => rfl) ?_ ?_
    · exact hp.imp fun hn h => absurd h hn.1
    · exact hp.imp fun hn h => absurd h hn.2
  exact hall a ha b hb hab

theorem PrefixFree.sole (hp : PrefixFree name table) (ha : a ∈ table) (hs : name a <+: s) :
    Sole name table s a := by
  refine ⟨ha,hs,fun b hb hbs => ?_⟩
  rcases List.prefix_or_prefix_of_prefix hbs hs with h | h
  · exact hp.eq_of_prefix hb ha h
  · exact (hp.eq_of_prefix ha hb h).symm

theorem PrefixFree.longest_iff (hp : PrefixFree name table) :
    Longest name table s a ↔ Sole name table s a := by
  refine ⟨fun h => hp.sole h.mem h.starts,fun h => ⟨h.mem,h.starts,fun b hb hs => ?_⟩⟩
  exact Nat.le_of_eq (congrArg (fun c => (name c).length) (h.sole b hb hs))

end Keywords
