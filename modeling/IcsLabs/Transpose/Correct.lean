import IcsLabs.Transpose.Kernel

namespace Transpose
open Cells

variable {A : Nat → Nat → Int} {M N : Nat}

-- both matrices when B is the transpose of A
def target (A : Nat → Nat → Int) : Cell → Int
  | .a row col => A row col
  | .b row col => A col row

def source : Set Cell := fun x =>
  match x with
  | .a _ _ => True
  | .b _ _ => False

-- rows c0..c1 and columns r0..r1 of B
def rect (c0 c1 r0 r1 : Nat) : Set Cell := fun x =>
  match x with
  | .a _ _ => False
  | .b c r => (c0 ≤ c ∧ c < c1) ∧ r0 ≤ r ∧ r < r1

section Rect

variable {c c0 c1 r r0 r1 lo hi step : Nat}

@[simp] theorem a_mem_source : Cell.a r c ∈ source := trivial

@[simp] theorem b_mem_source : Cell.b c r ∉ source := fun h => h

@[simp] theorem a_mem_rect : Cell.a r c ∉ rect c0 c1 r0 r1 := fun h => h

@[simp] theorem b_mem_rect :
    Cell.b c r ∈ rect c0 c1 r0 r1 ↔ (c0 ≤ c ∧ c < c1) ∧ r0 ≤ r ∧ r < r1 := Iff.rfl

theorem rect_columns (h : 0 < step) :
    {x | ∃ i ∈ every 0 N step, x ∈ rect c0 c1 i (min (i + step) N)} = rect c0 c1 0 N := by
  ext x
  cases x with
  | a row col => simp
  | b c r =>
    have hr := @exists_strip step N r h
    simp only [Set.mem_ofPred_eq,b_mem_rect,Nat.lt_min,Nat.zero_le,true_and] at hr ⊢
    constructor
    · rintro ⟨i,hi,hc,hs⟩
      exact ⟨hc,hr.mp ⟨i,hi,hs⟩⟩
    · rintro ⟨hc,hs⟩
      obtain ⟨i,hi,hs⟩ := hr.mpr hs
      exact ⟨i,hi,hc,hs⟩

theorem rect_rows (h : 0 < step) :
    {x | ∃ j ∈ every 0 M step, x ∈ rect j (min (j + step) M) r0 r1} = rect 0 M r0 r1 := by
  ext x
  cases x with
  | a row col => simp
  | b c r =>
    have hc := @exists_strip step M c h
    simp only [Set.mem_ofPred_eq,b_mem_rect,Nat.lt_min,Nat.zero_le,true_and] at hc ⊢
    constructor
    · rintro ⟨j,hj,hs,hr⟩
      exact ⟨hc.mp ⟨j,hj,hs⟩,hr⟩
    · rintro ⟨hs,hr⟩
      obtain ⟨j,hj,hs⟩ := hc.mpr hs
      exact ⟨j,hj,hs,hr⟩

theorem rect_column :
    {x | ∃ m ∈ every lo hi 1, x ∈ rect c0 c1 m (m + 1)} = rect c0 c1 lo hi := by
  ext x
  cases x with
  | a row col => simp
  | b c r =>
    simp only [Set.mem_ofPred_eq,b_mem_rect,mem_every_one]
    constructor
    · rintro ⟨m,hm,hc,hr⟩
      exact ⟨hc,by omega,by omega⟩
    · rintro ⟨hc,hr⟩
      exact ⟨r,hr,hc,by omega,by omega⟩

theorem rect_row :
    {x | ∃ n ∈ every lo hi 1, x ∈ rect n (n + 1) r0 r1} = rect lo hi r0 r1 := by
  ext x
  cases x with
  | a row col => simp
  | b c r =>
    simp only [Set.mem_ofPred_eq,b_mem_rect,mem_every_one]
    constructor
    · rintro ⟨n,hn,hc,hr⟩
      exact ⟨⟨by omega,by omega⟩,hr⟩
    · rintro ⟨hc,hr⟩
      exact ⟨c,hc,⟨by omega,by omega⟩,hr⟩

end Rect

section Moves

variable {pre : (Cell → Int) → Prop} {v : Cell → Int} {S : Set Cell} {row col : Nat} {x : Int}

theorem loadA {f : Int → Prog Unit} (hp : ∀ s, pre s → Set.EqOn s v source) (hr : row < N)
    (hc : col < M) (hf : Writes (Inside M N) pre v S (f (v (.a row col)))) :
    Writes (Inside M N) pre v S (load (.a row col) >>= f) :=
  .load ⟨hr,hc⟩ (fun s hs => hp s hs a_mem_source) hf

theorem storeB {p : Prog Unit} (hr : row < M) (hc : col < N) (hx : v (.b row col) = x)
    (hp : Writes (Inside M N) (fun _ => True) v S p) :
    Writes (Inside M N) pre v ({.b row col} ∪ S) (store (.b row col) x >>= fun _ => p) :=
  hx ▸ Writes.seq (.store ⟨hr,hc⟩) hp (fun _ _ => rfl) fun _ _ _ _ => trivial

theorem storeB_last (hr : row < M) (hc : col < N) (hx : v (.b row col) = x) :
    Writes (Inside M N) pre v {.b row col} (store (.b row col) x) :=
  hx ▸ Writes.store ⟨hr,hc⟩

end Moves

-- p puts S right, once A is there
def Copies (M N : Nat) (A : Nat → Nat → Int) (S : Set Cell) (p : Prog Unit) : Prop :=
  Writes (Inside M N) (fun s => Set.EqOn s (target A) source) (target A) S p

theorem copies_cell {i j : Nat} (hi : i < N) (hj : j < M) :
    Copies M N A (rect j (j + 1) i (i + 1)) (do
      let tmp ← load (.a i j)
      store (.b j i) tmp) := by
  refine (loadA (fun _ h => h) hi hj (storeB_last hj hi rfl)).congr ?_
  ext x
  cases x with
  | a row col => simp
  | b c r =>
    simp only [Set.mem_singleton_iff,Cell.b.injEq,b_mem_rect]
    omega

theorem trans_copies : Copies M N A (rect 0 M 0 N) (trans M N) := by
  refine (Writes.forM_eqOn fun i hi => ?_).congr rect_column
  refine (Writes.forM_eqOn fun j hj => ?_).congr rect_row
  exact copies_cell (mem_every_one.mp hi).2 (mem_every_one.mp hj).2

theorem transpose61_copies : Copies M N A (rect 0 M 0 N) (transpose61 M N) := by
  refine (Writes.forM_eqOn fun i _ => ?_).congr (rect_columns (by decide : 0 < 18))
  refine (Writes.forM_eqOn fun j _ => ?_).congr (rect_rows (by decide : 0 < 18))
  refine (Writes.forM_eqOn fun m hm => ?_).congr rect_column
  refine (Writes.forM_eqOn fun n hn => ?_).congr rect_row
  have := mem_every_one.mp hm
  have := mem_every_one.mp hn
  exact copies_cell (by omega) (by omega)

theorem transpose32_copies (hM : 8 ∣ M) : Copies M N A (rect 0 M 0 N) (transpose32 M N) := by
  refine (Writes.forM_eqOn fun i _ => ?_).congr (rect_columns (by decide : 0 < 24))
  refine (Writes.forM_eqOn fun j hj => ?_).congr (rect_rows (by decide : 0 < 8))
  refine (Writes.forM_eqOn fun m hm => ?_).congr rect_column
  have hj := strip_le (by decide) hM hj
  have hm := mem_every_one.mp hm
  have hr : m < N := by omega
  rw [Nat.min_eq_left hj]
  iterate 8 refine loadA (fun _ h => h) hr (by omega) ?_
  apply Writes.congr
  · iterate 7 apply storeB (by omega) hr rfl
    exact storeB_last (by omega) hr rfl
  · ext x
    cases x with
    | a row col => simp
    | b c r =>
      simp only [Set.mem_union,Set.mem_singleton_iff,Cell.b.injEq,b_mem_rect]
      omega

section Block

variable {i j : Nat}

-- the left half of a block while its upper right quarter waits in it
def parked (A : Nat → Nat → Int) (i : Nat) : Cell → Int
  | .a row col => A row col
  | .b row col => if col < i + 4 then A col row else A (col - 4) (row + 4)

theorem parked_left {c r : Nat} (h : r < i + 4) : parked A i (.b c r) = A r c := if_pos h

theorem parked_right {c r : Nat} (h : i ≤ r) : parked A i (.b c (r + 4)) = A r (c + 4) :=
  if_neg (by omega)

theorem parked_source : Set.EqOn (target A) (parked A i) source := by
  intro x hx
  cases x with
  | a row col => rfl
  | b row col => exact (b_mem_source hx).elim

theorem upperRows_writes (hi : i + 8 ≤ N) (hj : j + 8 ≤ M) :
    Writes (Inside M N) (fun s => Set.EqOn s (parked A i) source) (parked A i)
      (rect j (j + 4) i (i + 8)) (upperRows i j) := by
  apply Writes.congr
  · refine Writes.forM_eqOn (S := fun m => rect j (j + 4) m (m + 1) ∪ rect j (j + 4) (m + 4) (m + 5))
      fun m hm => ?_
    have hm := mem_every_one.mp hm
    iterate 8 refine loadA (fun _ h => h) (by omega) (by omega) ?_
    apply Writes.congr
    · iterate 4 apply storeB (by omega) (by omega) (parked_left hm.2)
      iterate 3 apply storeB (by omega) (by omega) (parked_right hm.1)
      exact storeB_last (by omega) (by omega) (parked_right hm.1)
    · ext x
      cases x with
      | a row col => simp
      | b c r =>
        simp only [Set.mem_union,Set.mem_singleton_iff,Cell.b.injEq,b_mem_rect]
        omega
  · ext x
    cases x with
    | a row col => simp
    | b c r =>
      simp only [Set.mem_ofPred_eq,Set.mem_union,b_mem_rect,mem_every_one]
      constructor
      · rintro ⟨m,hm,h | h⟩ <;> omega
      · intro h
        by_cases hr : r < i + 4
        · exact ⟨r,by omega,by omega⟩
        · exact ⟨r - 4,by omega,by omega⟩

-- row n of B holds its part of the waiting quarter
def Waits (A : Nat → Nat → Int) (i n : Nat) (s : Cell → Int) : Prop :=
  Set.EqOn s (target A) source ∧ ∀ k < 4, s (.b n (i + 4 + k)) = A (i + k) (n + 4)

theorem leftColumns_writes (hi : i + 8 ≤ N) (hj : j + 8 ≤ M) :
    Writes (Inside M N) (fun s => ∀ n ∈ every j (j + 4) 1, Waits A i n s) (target A)
      (rect j (j + 4) (i + 4) (i + 8) ∪ rect (j + 4) (j + 8) i (i + 4)) (leftColumns i j) := by
  apply Writes.congr
  · refine Writes.forM (S := fun n => rect n (n + 1) (i + 4) (i + 8) ∪
      rect (n + 4) (n + 5) i (i + 4)) (fun n hn => ?_) ?_
    · have hn := mem_every_one.mp hn
      iterate 4 refine loadA (fun _ h => h.1) (by omega) (by omega) ?_
      refine .load ⟨by omega,by omega⟩ (fun s h => h.2 0 (by decide)) ?_
      refine .load ⟨by omega,by omega⟩ (fun s h => h.2 1 (by decide)) ?_
      refine .load ⟨by omega,by omega⟩ (fun s h => h.2 2 (by decide)) ?_
      refine .load ⟨by omega,by omega⟩ (fun s h => h.2 3 (by decide)) ?_
      apply Writes.congr
      · iterate 7 apply storeB (by omega) (by omega) rfl
        exact storeB_last (by omega) (by omega) rfl
      · ext x
        cases x with
        | a row col => simp
        | b c r =>
          simp only [Set.mem_union,Set.mem_singleton_iff,Cell.b.injEq,b_mem_rect]
          omega
    · refine (nodup_every Nat.one_pos).imp_of_mem fun {n n'} hn hn' hne s s' h ho => ?_
      have hn := mem_every_one.mp hn
      have hn' := mem_every_one.mp hn'
      refine ⟨ho.keeps h.1,fun k hk => (ho.outside ?_).trans (h.2 k hk)⟩
      simp only [Set.mem_compl_iff,Set.mem_union,b_mem_rect]
      omega
  · ext x
    cases x with
    | a row col => simp
    | b c r =>
      simp only [Set.mem_ofPred_eq,Set.mem_union,b_mem_rect,mem_every_one]
      constructor
      · rintro ⟨n,hn,h | h⟩ <;> omega
      · intro h
        by_cases hc : c < j + 4
        · exact ⟨c,by omega,by omega⟩
        · exact ⟨c - 4,by omega,by omega⟩

theorem lowerRows_copies (hi : i + 8 ≤ N) (hj : j + 8 ≤ M) :
    Copies M N A (rect (j + 4) (j + 8) (i + 4) (i + 8)) (lowerRows i j) := by
  refine (Writes.forM_eqOn fun m hm => ?_).congr rect_column
  have hm := mem_every_one.mp hm
  iterate 4 refine loadA (fun _ h => h) (by omega) (by omega) ?_
  apply Writes.congr
  · iterate 3 apply storeB (by omega) (by omega) rfl
    exact storeB_last (by omega) (by omega) rfl
  · ext x
    cases x with
    | a row col => simp
    | b c r =>
      simp only [Set.mem_union,Set.mem_singleton_iff,Cell.b.injEq,b_mem_rect]
      omega

theorem upper_leaves_waiting {s s' : Cell → Int} (hs : Set.EqOn s (target A) source)
    (ho : Overwrites (parked A i) (rect j (j + 4) i (i + 8)) s s') {n : Nat}
    (hn : n ∈ every j (j + 4) 1) : Waits A i n s' := by
  have hn := mem_every_one.mp hn
  refine ⟨(ho.keeps (hs.trans parked_source)).trans parked_source.symm,fun k hk => ?_⟩
  have hr : i + 4 + k = i + k + 4 := by omega
  have hin : Cell.b n (i + k + 4) ∈ rect j (j + 4) i (i + 8) :=
    b_mem_rect.mpr ⟨hn,by omega,by omega⟩
  rw [hr,ho.inside hin]
  exact parked_right (Nat.le_add_right i k)

theorem block_copies (hi : i + 8 ≤ N) (hj : j + 8 ≤ M) :
    Copies M N A (rect j (j + 8) i (i + 8)) (do
      upperRows i j
      leftColumns i j
      lowerRows i j) := by
  have hlow : Writes (Inside M N) (fun s => ∀ n ∈ every j (j + 4) 1, Waits A i n s) (target A)
      _ (leftColumns i j >>= fun _ => lowerRows i j) :=
    (leftColumns_writes hi hj).seq (lowerRows_copies hi hj) (fun _ _ => rfl) fun s s' h ho =>
      ho.keeps (h j (mem_every_one.mpr ⟨Nat.le_refl j,by omega⟩)).1
  have hup : Writes (Inside M N) (fun s => Set.EqOn s (target A) source) (parked A i) _
      (upperRows i j) :=
    fun s h => upperRows_writes hi hj s (h.trans parked_source)
  refine (hup.seq hlow ?_ fun s s' h ho n hn => upper_leaves_waiting h ho hn).congr ?_
  · intro x hx
    cases x with
    | a row col => rfl
    | b c r =>
      simp only [Set.mem_sdiff,Set.mem_union,b_mem_rect] at hx
      exact parked_left (by omega)
  · ext x
    cases x with
    | a row col => simp
    | b c r =>
      simp only [Set.mem_union,b_mem_rect]
      omega

theorem transpose64_copies (hM : 8 ∣ M) (hN : 8 ∣ N) :
    Copies M N A (rect 0 M 0 N) (transpose64 M N) := by
  refine (Writes.forM_eqOn fun i hi => ?_).congr (rect_columns (by decide : 0 < 8))
  refine (Writes.forM_eqOn fun j hj => ?_).congr (rect_rows (by decide : 0 < 8))
  have hi := strip_le (by decide) hN hi
  have hj := strip_le (by decide) hM hj
  rw [Nat.min_eq_left hi,Nat.min_eq_left hj]
  exact block_copies hi hj

end Block

theorem transposeSubmit_copies (M N : Nat) (A : Nat → Nat → Int) :
    Copies M N A (rect 0 M 0 N) (transposeSubmit M N) := by
  rw [transposeSubmit]
  split_ifs with h32 h64 h61
  · exact transpose32_copies (by omega)
  · exact transpose64_copies (by omega) (by omega)
  · exact transpose61_copies
  · exact trans_copies

theorem memory_source (A B : Nat → Nat → Int) : Set.EqOn (memory A B) (target A) source := by
  intro x hx
  cases x with
  | a row col => rfl
  | b row col => exact (b_mem_source hx).elim

theorem isTranspose_target {s : Cell → Int} (h : ∀ i < N, ∀ j < M, s (.b j i) = s (.a i j)) :
    (isTranspose M N s).val.1 = 1 := by
  have hrow : ∀ i ∈ every 0 N 1, (((every 0 M 1).allM fun j => do
      let x ← load (Cell.a i j)
      let y ← load (.b j i)
      return x == y : Prog Bool) s).val = (true,s) := by
    refine fun i hi => allM_true fun j hj => Prod.ext ?_ rfl
    have he := h i (mem_every_one.mp hi).2 j (mem_every_one.mp hj).2
    exact beq_iff_eq.mpr he.symm
  have hall := allM_true hrow
  rw [isTranspose]
  exact congrArg (fun r => if r.1 then (1 : Int) else 0) hall

theorem transposeSubmit_correct (M N : Nat) (A B : Nat → Nat → Int) :
    (∀ i < N, ∀ j < M, (transposeSubmit M N (memory A B)).val.2 (.b j i) = A i j) ∧
    (∀ row col, (transposeSubmit M N (memory A B)).val.2 (.a row col) = A row col) ∧
    (transposeSubmit M N (memory A B)).All (Inside M N) ∧
    (transposeSubmit M N (memory A B)).val.2 = (trans M N (memory A B)).val.2 ∧
    (isTranspose M N (transposeSubmit M N (memory A B)).val.2).val.1 = 1 := by
  have hm := memory_source A B
  obtain ⟨ho,hi⟩ := transposeSubmit_copies M N A (memory A B) hm
  have hb (i : Nat) (h : i < N) (j : Nat) (h' : j < M) :
      (transposeSubmit M N (memory A B)).val.2 (.b j i) = A i j :=
    ho.inside (b_mem_rect.mpr ⟨⟨Nat.zero_le j,h'⟩,Nat.zero_le i,h⟩)
  have ha (row col : Nat) :
      (transposeSubmit M N (memory A B)).val.2 (.a row col) = A row col :=
    ho.keeps hm a_mem_source
  refine ⟨hb,ha,hi,ho.unique (trans_copies (memory A B) hm).1,isTranspose_target ?_⟩
  intro i h j h'
  rw [hb i h j h',ha]

end Transpose
