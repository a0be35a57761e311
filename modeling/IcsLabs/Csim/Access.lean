import IcsLabs.Csim.Lines

namespace Csim
open Lru

structure Touch (c c' : State) (j : Int) (n : Nat) (r : List (Entry Int Int) × Outcome) : Prop where
  geometry : c'.E = c.E ∧ c'.S = c.S ∧ c'.B = c.B
  hits : c'.hitCount = c.hitCount + if r.2 = .hit then 1 else 0
  misses : c'.missCount = c.missCount + if r.2 = .hit then 0 else 1
  evictions : c'.evictionCount = c.evictionCount + if r.2 = .evict then 1 else 0
  stored : Stored c'.cache j n r.1
  keep : ∀ x, x < j ∨ j + 2 * n ≤ x → c'.cache x = c.cache x

section Access

variable {index tag : Int} {n : Nat} {c : State} {ls xs ys : List (Entry Int Int)}
  {e : Entry Int Int}

theorem endOf_eq (index : Int) (hE : c.E = n) : endOf c index = startOf c index + 2 * n := by
  rw [endOf,startOf,hE,Int.add_mul,Int.add_mul,Int.one_mul]

theorem hitLine_touch (hs : Stored c.cache (startOf c index) n (xs ++ e :: ys)) (hE : c.E = n)
    (hp : ∀ d ∈ xs ++ e :: ys, d.mark ≠ 0) :
    Touch c (hitLine index (startOf c index + 2 * xs.length) c) (startOf c index) n
      (xs.map older ++ ⟨e.tag,1⟩ :: ys.map older,.hit) := by
  obtain ⟨h1,h2,h3⟩ := hs
  have hlen : (xs ++ e :: ys).length = xs.length + (ys.length + 1) := by simp
  have hn : c.E.toNat = n := by simp [hE]
  obtain ⟨b1,b2⟩ := bumpValid_lines h1 h2 rfl hp fun hlt => h3 _ (by omega) (by omega)
  rw [List.map_append,List.map_cons] at b1
  rw [← endOf_eq index hE,← hn] at b1 b2
  have hset : ∀ x, x ≠ startOf c index + 2 * xs.length + 1 →
      (hitLine index (startOf c index + 2 * xs.length) c).cache x =
        bumpValid (endOf c index + 1) c.E.toNat (startOf c index + 1) c.cache x :=
    fun x hx => Function.update_of_ne hx _ _
  refine ⟨⟨rfl,rfl,rfl⟩,rfl,by simp [hitLine],by simp [hitLine],⟨?_,by simpa using h2,?_⟩,?_⟩
  · have hxs : (xs.map older).length = xs.length := List.length_map _
    refine lines_set b1 ?_ ?_ ?_
    · rw [hxs,hset _ (by omega)]
      exact (hxs ▸ (lines_append.mp b1).2.1)
    · rw [hxs]
      exact Function.update_self _ _ _
    · intro x hx
      rw [hxs] at hx
      exact hset x (by omega)
  · intro x hx hx'
    simp only [List.length_append,List.length_cons,List.length_map] at hx
    rw [hset x (by omega),b2 x (by omega)]
    exact h3 x (by omega) hx'
  · intro x hx
    rw [hset x (by omega),b2 x (by omega)]

theorem fillLine_touch (hs : Stored c.cache (startOf c index) n ls) (hE : c.E = n)
    (hlt : ls.length < n) : Touch c (fillLine index tag (startOf c index + 2 * ls.length) c)
      (startOf c index) n (ls.map older ++ [⟨tag,1⟩],.fill) := by
  obtain ⟨h1,h2,h3⟩ := hs
  have hn : c.E.toNat = n := by simp [hE]
  have hl1 : Lines (Function.update c.cache (startOf c index + 2 * ls.length) tag)
      (startOf c index) ls :=
    lines_congr h1 fun x _ hx => Function.update_of_ne (by omega) _ _
  obtain ⟨b1,b2⟩ := bump_lines hl1 h2 rfl
  rw [← hn] at b1 b2
  have hset : ∀ x, x ≠ startOf c index + 2 * ls.length + 1 →
      (fillLine index tag (startOf c index + 2 * ls.length) c).cache x =
        bump (startOf c index + 2 * ls.length + 1) c.E.toNat (startOf c index + 1)
          (Function.update c.cache (startOf c index + 2 * ls.length) tag) x :=
    fun x hx => Function.update_of_ne hx _ _
  refine ⟨⟨rfl,rfl,rfl⟩,by simp [fillLine],rfl,by simp [fillLine],⟨?_,by simp; omega,?_⟩,?_⟩
  · refine lines_append.mpr ⟨lines_congr b1 fun x _ hx => ?_,?_,?_,trivial⟩
    · rw [List.length_map] at hx
      exact hset x (by omega)
    · rw [List.length_map,hset _ (by omega),b2 _ (Or.inr (by omega))]
      exact Function.update_self _ _ _
    · rw [List.length_map]
      exact Function.update_self _ _ _
  · intro x hx hx'
    simp only [List.length_append,List.length_map,List.length_singleton] at hx
    rw [hset x (by omega),b2 x (by omega),Function.update_of_ne (by omega)]
    exact h3 x (by omega) hx'
  · intro x hx
    rw [hset x (by omega),b2 x (by omega),Function.update_of_ne (by omega)]

theorem evictLine_touch (hs : Stored c.cache (startOf c index) n (xs ++ e :: ys)) (hE : c.E = n)
    (hfull : (xs ++ e :: ys).length = n) :
    Touch c (evictLine index tag (startOf c index + 2 * xs.length) c) (startOf c index) n
      (xs.map older ++ ⟨tag,1⟩ :: ys.map older,.evict) := by
  obtain ⟨h1,h2,h3⟩ := hs
  have hlen : (xs ++ e :: ys).length = xs.length + (ys.length + 1) := by simp
  have hn : c.E.toNat = n := by simp [hE]
  obtain ⟨b1,b2⟩ := bump_lines h1 h2 rfl
  rw [List.map_append,List.map_cons] at b1
  rw [hfull,← endOf_eq index hE,← hn] at b1 b2
  have hset : ∀ x, x ≠ startOf c index + 2 * xs.length → x ≠ startOf c index + 2 * xs.length + 1 →
      (evictLine index tag (startOf c index + 2 * xs.length) c).cache x =
        bump (endOf c index + 1) c.E.toNat (startOf c index + 1) c.cache x :=
    fun x hx hx' => (Function.update_of_ne hx' _ _).trans (Function.update_of_ne hx _ _)
  refine ⟨⟨rfl,rfl,rfl⟩,by simp [evictLine],rfl,rfl,⟨?_,by simp; omega,?_⟩,?_⟩
  · have hxs : (xs.map older).length = xs.length := List.length_map _
    refine lines_set b1 ?_ ?_ ?_
    · rw [hxs]
      exact (Function.update_of_ne (by omega) _ _).trans (Function.update_self _ _ _)
    · rw [hxs]
      exact Function.update_self _ _ _
    · intro x hx
      rw [hxs] at hx
      exact hset x (by omega) (by omega)
  · intro x hx hx'
    simp only [List.length_append,List.length_cons,List.length_map] at hx
    omega
  · intro x hx
    have hend := endOf_eq index hE
    rw [hset x (by omega) (by omega)]
    exact b2 x (by omega)

theorem accessLine_hit (hs : Stored c.cache (startOf c index) n (xs ++ e :: ys)) (hE : c.E = n)
    (ha : Apart (xs ++ e :: ys)) (hp : ∀ d ∈ xs ++ e :: ys, d.mark ≠ 0) :
    accessLine index e.tag c = hitLine index (startOf c index + 2 * xs.length) c := by
  have hn : c.E.toNat = n := by simp [hE]
  have hlen := hs.length
  rw [List.length_append,List.length_cons] at hlen
  obtain ⟨m,rfl⟩ : ∃ m, n = xs.length + (m + 1) := ⟨n - xs.length - 1,by omega⟩
  have hnx : e.tag ∉ tags xs := fun hm => by
    obtain ⟨d,hd,hde⟩ := List.mem_map.mp hm
    exact (ha.ne (by simp [hd])).1 hde
  have hscan := scan_hit (l := ⟨false,false,true,0,0,0⟩) hs.lines (endOf_eq index hE).symm
    hnx hp
  simp only [accessLine,hn,hscan]
  rw [if_neg (by simp),if_neg (by simp)]

theorem scan_fill (hs : Stored c.cache (startOf c index) n ls) (hE : c.E = n)
    (ht : tag ∉ tags ls) (hp : ∀ d ∈ ls, d.mark ≠ 0) (hlt : ls.length < n) :
    ∃ l, scan index tag n (startOf c index) ⟨false,false,true,0,0,0⟩ c = (l,c) ∧
      l.hit = false ∧ l.miss = true ∧ l.missIn = startOf c index + 2 * ls.length := by
  obtain ⟨m,rfl⟩ : ∃ m, n = ls.length + m := ⟨n - ls.length,by omega⟩
  have hend := (endOf_eq index hE).symm
  obtain ⟨f1,f2,f3⟩ := seen_fields (startOf c index) ls ⟨false,false,true,0,0,0⟩
  have hscan := scan_lines (l := ⟨false,false,true,0,0,0⟩) hs.lines hend ht hp
  rw [scan_first_empty (fun x hx hx' => hs.empty x hx (by omega)) (by omega) (seen_last _ _ _).1 f2
    (by omega)] at hscan
  exact ⟨_,hscan,f1,rfl,rfl⟩

theorem accessLine_fill (hs : Stored c.cache (startOf c index) n ls) (hE : c.E = n)
    (ht : tag ∉ tags ls) (hp : ∀ d ∈ ls, d.mark ≠ 0) (hlt : ls.length < n) :
    accessLine index tag c = fillLine index tag (startOf c index + 2 * ls.length) c := by
  have hn : c.E.toNat = n := by simp [hE]
  obtain ⟨l,hscan,hh,hm,hi⟩ := scan_fill hs hE ht hp hlt
  simp only [accessLine,hn,hscan]
  rw [if_pos ⟨hh,hm⟩,hi]

theorem scan_evict (hs : Stored c.cache (startOf c index) n ls) (hE : c.E = n)
    (ht : tag ∉ tags ls) (hp : ∀ d ∈ ls, 1 ≤ d.mark) (hfull : ls.length = n) (h0 : 0 < n) :
    ∃ l xs e ys, scan index tag n (startOf c index) ⟨false,false,true,0,0,0⟩ c = (l,c) ∧
      (l.hit = false ∧ l.miss = false ∧ l.evict = true) ∧
      ls = xs ++ e :: ys ∧ (∀ d ∈ ls, d.mark ≤ e.mark) ∧
      l.evictIn = startOf c index + 2 * xs.length := by
  subst hfull
  obtain ⟨f1,f2,f3⟩ := seen_fields (startOf c index) ls ⟨false,false,true,0,0,0⟩
  have hscan := scan_lines (m := 0) (l := ⟨false,false,true,0,0,0⟩) hs.lines
    (endOf_eq index hE).symm ht fun d hd => by
      have := hp d hd
      omega
  obtain ⟨_,h2,⟨h3,_⟩ | ⟨xs,e,ys,h3,h4,h5⟩⟩ := seen_last (startOf c index) ls ⟨false,false,true,0,0,0⟩
  · obtain ⟨d,hd⟩ := List.exists_mem_of_length_pos h0
    have := hp d hd
    have := h2 d hd
    simp only at h3
    omega
  · rw [scan,Nat.add_zero] at hscan
    exact ⟨_,xs,e,ys,hscan,⟨f1,f2,f3⟩,h3,fun d hd => h5 ▸ h2 d hd,h4⟩

theorem accessLine_evict (hs : Stored c.cache (startOf c index) n ls) (hE : c.E = n)
    (ht : tag ∉ tags ls) (hp : ∀ d ∈ ls, 1 ≤ d.mark) (hfull : ls.length = n) (h0 : 0 < n) :
    ∃ xs e ys, ls = xs ++ e :: ys ∧ (∀ d ∈ ls, d.mark ≤ e.mark) ∧
      accessLine index tag c = evictLine index tag (startOf c index + 2 * xs.length) c := by
  have hn : c.E.toNat = n := by simp [hE]
  obtain ⟨l,xs,e,ys,hscan,⟨hh,hm,he⟩,hls,hmax,hi⟩ := scan_evict hs hE ht hp hfull h0
  refine ⟨xs,e,ys,hls,hmax,?_⟩
  simp only [accessLine,hn,hscan]
  rw [if_neg (by simp [hm]),if_pos ⟨hh,he⟩,hi]

theorem accessLine_spec (hs : Stored c.cache (startOf c index) n ls) (hE : c.E = n)
    (ha : Apart ls) (hp : ∀ e ∈ ls, 1 ≤ e.mark) (h0 : 0 < n) :
    Touch c (accessLine index tag c) (startOf c index) n (accessAged n tag ls) := by
  have hp' : ∀ e ∈ ls, e.mark ≠ 0 := fun e he => by
    have := hp e he
    omega
  rw [accessAged]
  by_cases ht : tag ∈ tags ls
  · obtain ⟨e,he,rfl⟩ := List.mem_map.mp ht
    obtain ⟨xs,ys,rfl⟩ := List.append_of_mem he
    rw [if_pos ht,restamp_split ha,accessLine_hit hs hE ha hp']
    exact hitLine_touch hs hE hp'
  · rw [if_neg ht]
    by_cases hlt : ls.length < n
    · rw [if_pos hlt,accessLine_fill hs hE ht hp' hlt]
      exact fillLine_touch hs hE hlt
    · rw [if_neg hlt]
      have hfull : ls.length = n := Nat.le_antisymm hs.length (Nat.not_lt.mp hlt)
      obtain ⟨xs,e,ys,rfl,hmax,heq⟩ := accessLine_evict hs hE ht hp hfull h0
      cases hv : (xs ++ e :: ys).argmax Entry.mark with
      | none => simp at hv
      | some v =>
        have hvm := List.argmax_mem hv
        have hve : v = e := ha.eq_of_mark hvm (by simp)
          (le_antisymm (hmax v hvm) (List.le_of_mem_argmax (by simp) hv))
        subst hve
        simp only
        rw [restamp_split ha,heq]
        exact evictLine_touch hs hE hfull

end Access

end Csim
