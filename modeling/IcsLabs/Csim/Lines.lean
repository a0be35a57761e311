import IcsLabs.Csim.Cache
import IcsLabs.Lib.Lru

namespace Csim
open Lru

def Lines (cache : Int → Int) : Int → List (Entry Int Int) → Prop
  | _, [] => True
  | j, e :: ls => cache j = e.tag ∧ cache (j + 1) = e.mark ∧ Lines cache (j + 2) ls

-- the n lines from cell j on hold ls, then lines never filled
structure Stored (cache : Int → Int) (j : Int) (n : Nat) (ls : List (Entry Int Int)) : Prop where
  lines : Lines cache j ls
  length : ls.length ≤ n
  empty : ∀ x, j + 2 * ls.length ≤ x → x < j + 2 * n → cache x = 0

section Lines

variable {cache cache' : Int → Int} {j limit : Int} {n : Nat} {ls xs ys : List (Entry Int Int)}
  {e : Entry Int Int}

theorem lines_append :
    Lines cache j (xs ++ ys) ↔ Lines cache j xs ∧ Lines cache (j + 2 * xs.length) ys := by
  induction xs generalizing j with
  | nil => simp [Lines]
  | cons e xs ih =>
    simp only [List.cons_append,Lines,ih,List.length_cons,and_assoc]
    rw [show j + 2 + 2 * (xs.length : Int) =
      j + 2 * ((xs.length + 1 : Nat) : Int) by omega]

theorem lines_congr (h : Lines cache j ls)
    (hc : ∀ x, j ≤ x → x < j + 2 * ls.length → cache' x = cache x) : Lines cache' j ls := by
  induction ls generalizing j with
  | nil => trivial
  | cons e ls ih =>
    obtain ⟨h1,h2,h3⟩ := h
    simp only [List.length_cons] at hc
    refine ⟨(hc j (by omega) (by omega)).trans h1,(hc (j + 1) (by omega) (by omega)).trans h2,?_⟩
    exact ih h3 fun x hx hx' => hc x (by omega) (by omega)

theorem bump_lines (h : Lines cache j ls) (hn : ls.length ≤ n) (hl : limit = j + 2 * ls.length + 1) :
    Lines (bump limit n (j + 1) cache) j (ls.map older) ∧
      ∀ x, x < j ∨ j + 2 * ls.length ≤ x → bump limit n (j + 1) cache x = cache x := by
  induction ls generalizing j n cache with
  | nil =>
    have hb : bump limit n (j + 1) cache = cache := by
      cases n with
      | zero => rfl
      | succ n => rw [bump,if_neg (by simp at hl; omega)]
    exact ⟨trivial,fun x _ => by rw [hb]⟩
  | cons e ls ih =>
    obtain ⟨h1,h2,h3⟩ := h
    simp only [List.length_cons] at hl hn ⊢
    obtain ⟨n,rfl⟩ : ∃ m, n = m + 1 := ⟨n - 1,by omega⟩
    have hkeep : ∀ x, x ≠ j + 1 → Function.update cache (j + 1) (cache (j + 1) + 1) x = cache x :=
      fun x hx => Function.update_of_ne hx _ _
    have hls : Lines (Function.update cache (j + 1) (cache (j + 1) + 1)) (j + 2) ls :=
      lines_congr h3 fun x hx _ => hkeep x (by omega)
    obtain ⟨i1,i2⟩ := ih (n := n) hls (by omega) (by omega)
    rw [bump,if_pos (by omega),show j + 1 + 2 = j + 2 + 1 by omega]
    refine ⟨⟨?_,?_,i1⟩,fun x hx => ?_⟩
    · rw [i2 j (by omega),hkeep j (by omega),h1]
      rfl
    · rw [i2 (j + 1) (by omega),Function.update_self,h2]
      rfl
    · rw [i2 x (by omega),hkeep x (by omega)]

theorem bumpValid_lines (h : Lines cache j ls) (hn : ls.length ≤ n) (hl : limit = j + 2 * n + 1)
    (hp : ∀ e ∈ ls, e.mark ≠ 0) (hz : ls.length < n → cache (j + 2 * ls.length + 1) = 0) :
    Lines (bumpValid limit n (j + 1) cache) j (ls.map older) ∧
      ∀ x, x < j ∨ j + 2 * ls.length ≤ x → bumpValid limit n (j + 1) cache x = cache x := by
  induction ls generalizing j n cache with
  | nil =>
    have hb : bumpValid limit n (j + 1) cache = cache := by
      cases n with
      | zero => rfl
      | succ n => rw [bumpValid,if_neg fun hc => hc.1 (by simpa using hz (by simp))]
    exact ⟨trivial,fun x _ => by rw [hb]⟩
  | cons e ls ih =>
    obtain ⟨h1,h2,h3⟩ := h
    have he : cache (j + 1) ≠ 0 := h2 ▸ hp e (by simp)
    simp only [List.length_cons] at hz hn ⊢
    obtain ⟨n,rfl⟩ : ∃ m, n = m + 1 := ⟨n - 1,by omega⟩
    have hkeep : ∀ x, x ≠ j + 1 → Function.update cache (j + 1) (cache (j + 1) + 1) x = cache x :=
      fun x hx => Function.update_of_ne hx _ _
    have hls : Lines (Function.update cache (j + 1) (cache (j + 1) + 1)) (j + 2) ls :=
      lines_congr h3 fun x hx _ => hkeep x (by omega)
    obtain ⟨i1,i2⟩ := ih (n := n) hls (by omega) (by omega) (fun d hd => hp d (by simp [hd]))
      fun hlt => by
        rw [hkeep _ (by omega),← hz (by omega)]
        congr 1
        omega
    rw [bumpValid,if_pos ⟨he,by omega⟩,show j + 1 + 2 = j + 2 + 1 by omega]
    refine ⟨⟨?_,?_,i1⟩,fun x hx => ?_⟩
    · rw [i2 j (by omega),hkeep j (by omega),h1]
      rfl
    · rw [i2 (j + 1) (by omega),Function.update_self,h2]
      rfl
    · rw [i2 x (by omega),hkeep x (by omega)]

theorem lines_set {t a : Int} (h : Lines cache j (xs ++ e :: ys))
    (ht : cache' (j + 2 * xs.length) = t) (ha : cache' (j + 2 * xs.length + 1) = a)
    (hk : ∀ x, x < j + 2 * xs.length ∨ j + 2 * xs.length + 2 ≤ x → cache' x = cache x) :
    Lines cache' j (xs ++ ⟨t,a⟩ :: ys) := by
  obtain ⟨h1,h2,h3,h4⟩ := lines_append.mp h
  refine lines_append.mpr ⟨lines_congr h1 fun x _ hx => hk x (Or.inl hx),ht,ha,?_⟩
  exact lines_congr h4 fun x hx _ => hk x (Or.inr hx)

end Lines

section Scan

variable {index tag j : Int} {n m : Nat} {l : Locals} {c : State} {ls xs ys : List (Entry Int Int)}
  {e : Entry Int Int}

-- what the loop remembers of lines it passes without a hit
def seen : Int → List (Entry Int Int) → Locals → Locals
  | _, [], l => l
  | j, e :: ls, l =>
    seen (j + 2) ls (if e.mark > l.last then { l with last := e.mark, evictIn := j } else l)

theorem scan_lines (h : Lines c.cache j ls) (hend : j + 2 * (ls.length + m : Nat) = endOf c index)
    (ht : tag ∉ tags ls) (hp : ∀ e ∈ ls, e.mark ≠ 0) :
    scan index tag (ls.length + m) j l c = scan index tag m (j + 2 * ls.length) (seen j ls l) c := by
  induction ls generalizing j l with
  | nil => simp [seen]
  | cons e ls ih =>
    obtain ⟨h1,h2,h3⟩ := h
    simp only [tags,List.map_cons,List.mem_cons,not_or] at ht
    have he := hp e (by simp)
    rw [List.length_cons] at hend
    have hstep := ih (l := if e.mark > l.last then { l with last := e.mark, evictIn := j } else l) h3
      (by omega) ht.2 fun d hd => hp d (by simp [hd])
    rw [List.length_cons,Nat.add_right_comm,scan,if_pos (by omega),h1,h2,
      if_neg (fun hc => ht.1 hc.1.symm),if_neg (fun hc => he hc.2.2),seen,
      show j + 2 * ((ls.length + 1 : Nat) : Int) = j + 2 + 2 * ls.length by omega,← hstep]
    split <;> rfl

theorem scan_empty (hz : ∀ x, j ≤ x → x < j + 2 * m → c.cache x = 0)
    (hend : j + 2 * m = endOf c index) (hl : 0 ≤ l.last) (hm : l.miss = true) :
    scan index tag m j l c = (l,c) := by
  induction m generalizing j with
  | zero => rfl
  | succ m ih =>
    have h1 := hz j (by omega) (by omega)
    have h2 := hz (j + 1) (by omega) (by omega)
    rw [scan,if_pos (by omega),if_neg (fun hc => hc.2 h2),if_neg (fun hc => by simp [hm] at hc),
      if_neg (by omega)]
    exact ih (fun x hx hx' => hz x (by omega) (by omega)) (by omega)

theorem scan_first_empty (hz : ∀ x, j ≤ x → x < j + 2 * m → c.cache x = 0)
    (hend : j + 2 * m = endOf c index) (hl : 0 ≤ l.last) (hm : l.miss = false) (h0 : 0 < m) :
    scan index tag m j l c = ({ l with miss := true, missIn := j },c) := by
  obtain ⟨m,rfl⟩ : ∃ k, m = k + 1 := ⟨m - 1,by omega⟩
  have h1 := hz j (by omega) (by omega)
  have h2 := hz (j + 1) (by omega) (by omega)
  rw [scan,if_pos (by omega),if_neg (fun hc => hc.2 h2),if_pos ⟨hm,h1,h2⟩]
  exact scan_empty (fun x hx hx' => hz x (by omega) (by omega)) (by omega) hl rfl

theorem scan_hit (h : Lines c.cache j (xs ++ e :: ys))
    (hend : j + 2 * (xs.length + (m + 1) : Nat) = endOf c index) (ht : e.tag ∉ tags xs)
    (hp : ∀ d ∈ xs ++ e :: ys, d.mark ≠ 0) : scan index e.tag (xs.length + (m + 1)) j l c =
      ({ seen j xs l with hit := true },hitLine index (j + 2 * xs.length) c) := by
  obtain ⟨h1,h2,h3,_⟩ := lines_append.mp h
  rw [scan_lines h1 hend ht fun d hd => hp d (by simp [hd]),scan,if_pos (by omega),
    if_pos ⟨h2,h3 ▸ hp e (by simp)⟩]

theorem seen_fields (j : Int) (ls : List (Entry Int Int)) (l : Locals) :
    (seen j ls l).hit = l.hit ∧ (seen j ls l).miss = l.miss ∧ (seen j ls l).evict = l.evict := by
  induction ls generalizing j l with
  | nil => exact ⟨rfl,rfl,rfl⟩
  | cons e ls ih =>
    obtain ⟨h1,h2,h3⟩ := ih (j + 2) (if e.mark > l.last then { l with last := e.mark, evictIn := j } else l)
    rw [seen,h1,h2,h3]
    split <;> exact ⟨rfl,rfl,rfl⟩

theorem seen_last (j : Int) (ls : List (Entry Int Int)) (l : Locals) :
    l.last ≤ (seen j ls l).last ∧ (∀ e ∈ ls, e.mark ≤ (seen j ls l).last) ∧
      ((seen j ls l).last = l.last ∧ (seen j ls l).evictIn = l.evictIn ∨
        ∃ xs e ys, ls = xs ++ e :: ys ∧ (seen j ls l).evictIn = j + 2 * xs.length ∧
          (seen j ls l).last = e.mark) := by
  induction ls generalizing j l with
  | nil => exact ⟨le_rfl,by simp,Or.inl ⟨rfl,rfl⟩⟩
  | cons e ls ih =>
    rw [seen]
    split
    · obtain ⟨h1,h2,h3⟩ := ih (j + 2) { l with last := e.mark, evictIn := j }
      simp only at h1 h3
      refine ⟨by omega,by simpa using ⟨h1,h2⟩,Or.inr ?_⟩
      rcases h3 with ⟨h3,h4⟩ | ⟨xs,d,ys,rfl,h4,h5⟩
      · exact ⟨[],e,ls,rfl,by rw [h4]; simp,h3⟩
      · exact ⟨e :: xs,d,ys,rfl,by rw [h4,List.length_cons]; omega,h5⟩
    · obtain ⟨h1,h2,h3⟩ := ih (j + 2) l
      refine ⟨h1,by simpa using ⟨by omega,h2⟩,h3.imp id ?_⟩
      rintro ⟨xs,d,ys,rfl,h4,h5⟩
      exact ⟨e :: xs,d,ys,rfl,by rw [h4,List.length_cons]; omega,h5⟩

end Scan

end Csim
