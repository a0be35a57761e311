import IcsLabs.Lib.Libc
import Mathlib.Computability.Language
import Mathlib.Data.List.TakeWhile

namespace Libc

-- the words over one class of characters
def allOf (p : Char → Bool) : Language Char := {w | ∀ c ∈ w, p c = true}

def digitsOf (base : Nat) : Language Char := allOf fun c => digitOf c < base

def sign : Language Char := {[],['-'],['+']}

def hexadecimal : Language Char :=
  {w | ∃ x d ds, w = '0' :: x :: d :: ds ∧ (x = 'x' ∨ x = 'X') ∧ d :: ds ∈ digitsOf 16}

def octal : Language Char := {w | ∃ ds, w = '0' :: ds ∧ ds ∈ digitsOf 8}

def decimals : Language Char := {w | ∃ d ds, w = d :: ds ∧ d ≠ '0' ∧ d :: ds ∈ digitsOf 10}

-- the subject sequence of strtoull in base 0, less its leading blanks
def numeral : Language Char := sign * (hexadecimal + octal + decimals)

section Numeral

variable {s t u w : List Char} {c : Char} {base : Nat} {v : BitVec 64}

theorem digitOf_cases (c : Char) : digitOf c = 36 ∨ '0' ≤ c ∧ c ≤ '9' ∨ 'a' ≤ c ∧ c ≤ 'z' ∨
    'A' ≤ c ∧ c ≤ 'Z' := by
  rw [digitOf]
  split_ifs with h1 h2 h3
  · exact Or.inr (Or.inl h1)
  · exact Or.inr (Or.inr (Or.inl h2))
  · exact Or.inr (Or.inr (Or.inr h3))
  · exact Or.inl rfl

theorem digitOf_decimal (h : digitOf c < 10) : '0' ≤ c ∧ c ≤ '9' := by
  rw [digitOf] at h
  split_ifs at h with h1 h2 h3
  · exact h1
  · have : 'a'.toNat ≤ c.toNat := h2.1
    have ha : 'a'.toNat = 97 := rfl
    omega
  · have : 'A'.toNat ≤ c.toNat := h3.1
    have ha : 'A'.toNat = 65 := rfl
    omega
  · omega

theorem isSpace_of_digit (h : digitOf c < 36) : isSpace c.toNat = false := by
  have hne : ∀ d : Char, isSpace d.toNat = true → digitOf d = 36 := by
    intro d hd
    have hle : d.toNat ≤ 32 := by
      simp only [isSpace,decide_eq_true_eq] at hd
      omega
    have hlt {e : Char} (he : 32 < e.toNat) : ¬ e ≤ d := fun h => by
      have : e.toNat ≤ d.toNat := h
      omega
    rw [digitOf,if_neg (fun h => hlt (by decide) h.1),if_neg (fun h => hlt (by decide) h.1),
      if_neg (fun h => hlt (by decide) h.1)]
  cases hs : isSpace c.toNat with
  | false => rfl
  | true =>
    have := hne c hs
    omega

theorem signOf_digit {cs : List Char} (hc : digitOf c < 36) (hw : w ∈ sign) :
    ∃ neg, ∀ t, signOf (w ++ (c :: cs ++ t)) = (neg,c :: cs ++ t) := by
  have hne : digitOf '-' = 36 ∧ digitOf '+' = 36 := by decide
  rcases hw with rfl | rfl | rfl
  · refine ⟨false,fun t => ?_⟩
    rw [List.nil_append,List.cons_append,signOf]
    · rintro r he
      cases he
      omega
    · rintro r he
      cases he
      omega
  · exact ⟨true,fun t => rfl⟩
  · exact ⟨false,fun t => rfl⟩

theorem signOf_split (s : List Char) : ∃ w ∈ sign, w ++ (signOf s).2 = s := by
  unfold signOf
  split
  · exact ⟨['-'],Or.inr (Or.inl rfl),rfl⟩
  · exact ⟨['+'],Or.inr (Or.inr rfl),rfl⟩
  · exact ⟨[],Or.inl rfl,rfl⟩

-- what makes no hexadecimal number of a 0 before it
def NoMark (t : List Char) : Prop :=
  ∀ x d r, t = x :: d :: r → (x = 'x' ∨ x = 'X') → ¬ digitOf d < 16

theorem baseOf_numeral (hu : u ∈ hexadecimal + octal + decimals) :
    ∃ base x ds, u = x ++ ds ∧ ds ≠ [] ∧ ds ∈ digitsOf base ∧ base ≤ 36 ∧
      ∀ t, (u = ['0'] → NoMark t) → baseOf (u ++ t) = (base,ds ++ t) := by
  rcases hu with (⟨x,d,ds,rfl,hx,hd⟩ | ⟨ds,rfl,hd⟩) | ⟨d,ds,rfl,hd0,hd⟩
  · have h16 : digitOf d < 16 := by simpa using hd d (List.mem_cons_self ..)
    refine ⟨16,['0',x],d :: ds,rfl,List.cons_ne_nil _ _,hd,by omega,fun t _ => ?_⟩
    simp only [List.cons_append,baseOf]
    rw [if_pos ⟨hx,h16⟩]
  · refine ⟨8,[],'0' :: ds,rfl,List.cons_ne_nil _ _,List.forall_mem_cons.mpr ⟨by decide,hd⟩,
      by omega,fun t ht => ?_⟩
    rw [List.cons_append]
    cases hr : ds ++ t with
    | nil => rfl
    | cons x r =>
      cases r with
      | nil => rfl
      | cons d r =>
        rw [baseOf,if_neg]
        rintro ⟨hx,hd16⟩
        cases ds with
        | nil => exact ht rfl x d r hr hx hd16
        | cons y ds =>
          have hy : digitOf y < 8 := by simpa using hd y (List.mem_cons_self ..)
          have hbig : ¬ digitOf x < 8 := by
            rcases hx with rfl | rfl <;> decide
          exact hbig ((List.cons.inj hr).1 ▸ hy)
  · refine ⟨10,[],d :: ds,rfl,List.cons_ne_nil _ _,hd,by omega,fun t _ => ?_⟩
    rw [List.cons_append,baseOf]
    · intro x e r he
      exact hd0 (List.cons.inj he).1
    · intro r he
      exact hd0 (List.cons.inj he).1

theorem takeWhile_digits (base : Nat) (s : List Char) :
    s.takeWhile (fun c => digitOf c < base) ∈ digitsOf base :=
  fun _ hc => List.mem_takeWhile_imp (p := fun c => digitOf c < base) hc

theorem octal_split (s : List Char) :
    ∃ u ∈ octal, u ++ ('0' :: s).dropWhile (fun c => digitOf c < 8) = '0' :: s := by
  refine ⟨'0' :: s.takeWhile (fun c => digitOf c < 8),⟨_,rfl,takeWhile_digits 8 s⟩,?_⟩
  rw [List.dropWhile_cons_of_pos (by decide),List.cons_append,List.takeWhile_append_dropWhile]

theorem baseOf_split (s : List Char)
    (hne : (baseOf s).2.takeWhile (fun c => digitOf c < (baseOf s).1) ≠ []) :
    ∃ u ∈ hexadecimal + octal + decimals,
      u ++ (baseOf s).2.dropWhile (fun c => digitOf c < (baseOf s).1) = s := by
  revert hne
  have hoct (r : List Char) : ∃ u ∈ hexadecimal + octal + decimals,
      u ++ ('0' :: r).dropWhile (fun c => digitOf c < 8) = '0' :: r := by
    obtain ⟨u,hu,he⟩ := octal_split r
    exact ⟨u,Or.inl (Or.inr hu),he⟩
  unfold baseOf
  split
  · rename_i x d r
    split
    · rename_i hc
      intro _
      have hd : decide (digitOf d < 16) = true := by simpa using hc.2
      refine ⟨'0' :: x :: d :: r.takeWhile (fun c => digitOf c < 16),
        Or.inl (Or.inl ⟨x,d,_,rfl,hc.1,List.forall_mem_cons.mpr ⟨hd,takeWhile_digits 16 r⟩⟩),?_⟩
      change _ ++ (d :: r).dropWhile (fun c => digitOf c < 16) = _
      rw [List.dropWhile_cons_of_pos (p := fun c => digitOf c < 16) hd]
      simp only [List.cons_append,List.takeWhile_append_dropWhile]
    · intro _
      exact hoct _
  · intro _
    exact hoct _
  · rename_i h1 h2
    intro hne
    cases s with
    | nil => exact absurd rfl hne
    | cons d r =>
      by_cases hd : digitOf d < 10
      · have h10 : decide (digitOf d < 10) = true := by simpa using hd
        refine ⟨d :: r.takeWhile (fun c => digitOf c < 10),
          Or.inr ⟨d,_,rfl,?_,List.forall_mem_cons.mpr ⟨h10,takeWhile_digits 10 r⟩⟩,?_⟩
        · rintro rfl
          exact h2 r rfl
        · change _ ++ (d :: r).dropWhile (fun c => digitOf c < 10) = _
          rw [List.dropWhile_cons_of_pos (p := fun c => digitOf c < 10) h10]
          simp only [List.cons_append,List.takeWhile_append_dropWhile]
      · exact absurd (List.takeWhile_cons_of_neg (by simpa using hd)) hne

theorem strtoull_eq (s : List Char) (hs : ∀ c ∈ s.head?, isSpace c.toNat = false) :
    (strtoull s).2 =
      if (baseOf (signOf s).2).2.takeWhile (fun c => digitOf c < (baseOf (signOf s).2).1) = [] then s
      else (baseOf (signOf s).2).2.dropWhile (fun c => digitOf c < (baseOf (signOf s).2).1) := by
  have hd : s.dropWhile (fun c => isSpace c.toNat) = s := by
    cases s with
    | nil => rfl
    | cons c s => exact List.dropWhile_cons_of_neg (by simpa using hs c rfl)
  rw [strtoull,hd]
  dsimp only
  split_ifs <;> rfl

theorem numeral_head (hw : w ∈ numeral) :
    ∃ c cs, w = c :: cs ∧ (c = '-' ∨ c = '+' ∨ digitOf c < 10) := by
  obtain ⟨a,ha,u,hu,rfl⟩ := Language.mem_mul.mp hw
  rcases ha with rfl | rfl | rfl
  · rcases hu with (⟨y,d,r,rfl,-,-⟩ | ⟨r,rfl,-⟩) | ⟨d,r,rfl,-,hd⟩
    · exact ⟨_,_,rfl,Or.inr (Or.inr (by decide))⟩
    · exact ⟨_,_,rfl,Or.inr (Or.inr (by decide))⟩
    · have h10 : digitOf d < 10 := by simpa using hd d (List.mem_cons_self ..)
      exact ⟨_,_,rfl,Or.inr (Or.inr h10)⟩
  · exact ⟨_,_,rfl,Or.inl rfl⟩
  · exact ⟨_,_,rfl,Or.inr (Or.inl rfl)⟩

-- a numeral as strtoull takes it apart: w less its sign is u, and u less the mark of its base is ds
structure Shape (w u : List Char) (base : Nat) (ds : List Char) (neg : Bool) : Prop where
  nonempty : ds ≠ []
  digits : ds ∈ digitsOf base
  le : base ≤ 36
  skip : ∀ t, (w ++ t).dropWhile (fun c => isSpace c.toNat) = w ++ t
  sign : ∀ t, signOf (w ++ t) = (neg,u ++ t)
  base : ∀ t, (u = ['0'] → NoMark t) → baseOf (u ++ t) = (base,ds ++ t)

theorem unsigned_head (hu : u ∈ hexadecimal + octal + decimals) :
    ∃ c cs, u = c :: cs ∧ digitOf c < 36 := by
  rcases hu with (⟨x,d,ds,rfl,-,-⟩ | ⟨ds,rfl,-⟩) | ⟨d,ds,rfl,-,hd⟩
  · exact ⟨'0',_,rfl,by decide⟩
  · exact ⟨'0',_,rfl,by decide⟩
  · have h10 : digitOf d < 10 := by simpa using hd d (List.mem_cons_self ..)
    exact ⟨d,ds,rfl,by omega⟩

theorem decimal_numeral (hc : '0' ≤ c ∧ c ≤ '9') : [c] ∈ numeral := by
  have hd : digitOf c < 10 := by
    have hle : c.toNat ≤ '9'.toNat := hc.2
    have h9 : '9'.toNat = 57 := rfl
    rw [digitOf,if_pos hc]
    omega
  refine Language.mem_mul.mpr ⟨[],Or.inl rfl,[c],?_,rfl⟩
  by_cases h0 : c = '0'
  · exact Or.inl (Or.inr ⟨[],by rw [h0],fun d hd => absurd hd List.not_mem_nil⟩)
  · refine Or.inr ⟨c,[],rfl,h0,fun d hd' => ?_⟩
    rw [List.mem_singleton.mp hd']
    exact decide_eq_true hd

theorem numeral_letters (hw : w ∈ numeral) : ∀ c ∈ w, c = '-' ∨ c = '+' ∨ digitOf c < 36 := by
  obtain ⟨a,ha,u,hu,rfl⟩ := Language.mem_mul.mp hw
  have hds {base : Nat} {ds : List Char} (hd : ds ∈ digitsOf base) (hb : base ≤ 36) :
      ∀ c ∈ ds, c = '-' ∨ c = '+' ∨ digitOf c < 36 := fun c hc => by
    have hlt : digitOf c < base := by simpa using hd c hc
    exact Or.inr (Or.inr (by omega))
  intro c hc
  rcases List.mem_append.mp hc with hc | hc
  · rcases ha with rfl | rfl | rfl
    · cases hc
    · exact Or.inl (List.mem_singleton.mp hc)
    · exact Or.inr (Or.inl (List.mem_singleton.mp hc))
  · have hzero : '0' = '-' ∨ '0' = '+' ∨ digitOf '0' < 36 := by decide
    rcases hu with (⟨x,d,ds,rfl,hx,hd⟩ | ⟨ds,rfl,hd⟩) | ⟨d,ds,rfl,-,hd⟩
    · have hmark : x = '-' ∨ x = '+' ∨ digitOf x < 36 := by rcases hx with rfl | rfl <;> decide
      rcases List.mem_cons.mp hc with rfl | hc
      · exact hzero
      · rcases List.mem_cons.mp hc with rfl | hc
        · exact hmark
        · exact hds hd (by omega) c hc
    · rcases List.mem_cons.mp hc with rfl | hc
      · exact hzero
      · exact hds hd (by omega) c hc
    · exact hds hd (by omega) c hc

theorem numeral_shape (hw : w ∈ numeral) : ∃ u base ds neg, Shape w u base ds neg := by
  obtain ⟨c,cs,hc,hhead⟩ := numeral_head hw
  obtain ⟨a,ha,u,hu,rfl⟩ := Language.mem_mul.mp hw
  obtain ⟨base,x,ds,-,hne,hd,h36,hb⟩ := baseOf_numeral hu
  obtain ⟨d,us,rfl,hd36⟩ := unsigned_head hu
  obtain ⟨neg,hs⟩ := @signOf_digit a d us hd36 ha
  refine ⟨d :: us,base,ds,neg,hne,hd,h36,fun t => ?_,fun t => ?_,hb⟩
  · have hsp : isSpace c.toNat = false := by
      rcases hhead with rfl | rfl | h10
      · rfl
      · rfl
      · exact isSpace_of_digit (by omega)
    rw [hc]
    exact List.dropWhile_cons_of_neg (by simp [hsp])
  · rw [List.append_assoc]
    exact hs t

def digitsValue (base : Nat) (neg : Bool) (ds : List Char) : BitVec 64 :=
  let n := ds.foldl (fun n c => n * base + digitOf c) 0
  let v := if n < 2 ^ 64 then BitVec.ofNat 64 n else BitVec.allOnes 64
  if n < 2 ^ 64 ∧ neg then -v else v

section Shapes

variable {ds t' : List Char} {neg : Bool}

theorem Shape.takes (h : Shape w u base ds neg) (t : List Char) :
    (ds ++ t).takeWhile (fun c => digitOf c < base) ≠ [] := by
  rw [List.takeWhile_append_of_pos h.digits]
  exact List.append_ne_nil_of_left_ne_nil h.nonempty _

theorem Shape.rest (h : Shape w u base ds neg) (ht : u = ['0'] → NoMark t) :
    (strtoull (w ++ t)).2 = t.dropWhile fun c => digitOf c < base := by
  rw [strtoull,h.skip,h.sign]
  dsimp only
  rw [h.base t ht]
  dsimp only
  rw [if_neg (h.takes t),List.dropWhile_append_of_pos h.digits]

theorem Shape.read (h : Shape w u base ds neg) (ht : u = ['0'] → NoMark t)
    (hc : ∀ c ∈ t.head?, ¬ digitOf c < base) : strtoull (w ++ t) = (digitsValue base neg ds,t) := by
  have hstop : t.takeWhile (fun c => digitOf c < base) = [] ∧
      t.dropWhile (fun c => digitOf c < base) = t := by
    cases t with
    | nil => exact ⟨rfl,rfl⟩
    | cons c t => exact ⟨List.takeWhile_cons_of_neg (by simpa using hc c rfl),
        List.dropWhile_cons_of_neg (by simpa using hc c rfl)⟩
  have htake : (ds ++ t).takeWhile (fun c => digitOf c < base) = ds := by
    rw [List.takeWhile_append_of_pos h.digits,hstop.1,List.append_nil]
  have hdrop : (ds ++ t).dropWhile (fun c => digitOf c < base) = t := by
    rw [List.dropWhile_append_of_pos h.digits,hstop.2]
  rw [strtoull,h.skip,h.sign]
  dsimp only
  rw [h.base t ht]
  dsimp only
  rw [htake,hdrop,if_neg h.nonempty]
  rfl

-- a 0 before a hexadecimal mark is no number of its own
theorem Shape.mark (h : Shape w u base ds neg) (hu : u = ['0']) (ht : ¬ NoMark t) :
    (strtoull (w ++ t)).2.length < t.length := by
  simp only [NoMark,not_forall,not_not] at ht
  obtain ⟨x,d,r,rfl,hx,hd⟩ := ht
  have hb : baseOf ('0' :: x :: d :: r) = (16,d :: r) := if_pos ⟨hx,hd⟩
  have hd' : decide (digitOf d < 16) = true := by simpa using hd
  rw [strtoull,h.skip,h.sign,hu]
  dsimp only [List.cons_append,List.nil_append]
  rw [hb]
  dsimp only
  rw [List.takeWhile_cons_of_pos (p := fun c => digitOf c < 16) hd',if_neg (List.cons_ne_nil _ _),
    List.dropWhile_cons_of_pos (p := fun c => digitOf c < 16) hd']
  have hle := (List.dropWhile_suffix (l := r) fun c => decide (digitOf c < 16)).length_le
  change (r.dropWhile fun c => decide (digitOf c < 16)).length < r.length + 2
  omega

theorem strtoull_length (hw : w ∈ numeral) (t : List Char) :
    (strtoull (w ++ t)).2.length ≤ t.length := by
  obtain ⟨u,base,ds,neg,h⟩ := numeral_shape hw
  by_cases hmark : u = ['0'] → NoMark t
  · rw [h.rest hmark]
    exact (List.dropWhile_suffix _).length_le
  · obtain ⟨hu,hn⟩ := Classical.not_imp.mp hmark
    exact (h.mark hu hn).le

theorem strtoull_follow (hw : w ∈ numeral) (ht : (strtoull (w ++ t)).2 = t)
    (hr : ∀ x, x <+: t' → (∀ c ∈ x, digitOf c < 36) → x <+: t) :
    strtoull (w ++ t') = ((strtoull (w ++ t)).1,t') := by
  obtain ⟨u,base,ds,neg,h⟩ := numeral_shape hw
  have hmark : u = ['0'] → NoMark t := fun hu => by_contra fun hn => by
    have := h.mark hu hn
    rw [ht] at this
    omega
  have hstop : ∀ c ∈ t.head?, ¬ digitOf c < base := by
    intro c hc hlt
    obtain ⟨r,rfl⟩ := List.head?_eq_some_iff.mp hc
    rw [h.rest hmark,List.dropWhile_cons_of_pos (p := fun c => digitOf c < base) (by simpa using hlt)] at ht
    have hle := (List.dropWhile_suffix (l := r) fun c => decide (digitOf c < base)).length_le
    rw [ht,List.length_cons] at hle
    omega
  have hmark' : u = ['0'] → NoMark t' := by
    intro hu x d r he hx hd
    have hx36 : digitOf x < 36 := by rcases hx with rfl | rfl <;> decide
    obtain ⟨z,hz⟩ := hr [x,d] ⟨r,he.symm⟩ (by simp [hx36]; omega)
    exact hmark hu x d z hz.symm hx hd
  have hstop' : ∀ c ∈ t'.head?, ¬ digitOf c < base := by
    intro c hc hlt
    have hle := h.le
    obtain ⟨r,he⟩ := List.head?_eq_some_iff.mp hc
    obtain ⟨z,hz⟩ := hr [c] ⟨r,he.symm⟩ (by simp; omega)
    exact hstop c (by rw [← hz]; rfl) hlt
  rw [h.read hmark hstop,h.read hmark' hstop']

end Shapes

theorem strtoull_split (hs : ∀ c ∈ s.head?, isSpace c.toNat = false) :
    (strtoull s).2 = s ∨ ∃ w ∈ numeral, w ++ (strtoull s).2 = s := by
  rw [strtoull_eq s hs]
  split_ifs with hne
  · exact Or.inl rfl
  · obtain ⟨a,ha,hsa⟩ := signOf_split s
    obtain ⟨u,hu,hub⟩ := baseOf_split (signOf s).2 hne
    refine Or.inr ⟨a ++ u,Language.mem_mul.mpr ⟨a,ha,u,hu,rfl⟩,?_⟩
    rw [List.append_assoc,hub,hsa]

section Hex

variable {ds t : List Char}

-- the number that hexadecimal digits stand for
def hexValue (ds : List Char) : Nat := Nat.ofDigits 16 (ds.reverse.map digitOf)

theorem foldl_hex (ds : List Char) :
    ds.foldl (fun n c => n * 16 + digitOf c) 0 = hexValue ds := by
  induction ds using List.reverseRecOn with
  | nil => rfl
  | append_singleton ds c ih =>
    rw [List.foldl_append,ih,hexValue,hexValue,List.reverse_append,List.reverse_singleton,
      List.singleton_append,List.map_cons,Nat.ofDigits_cons,List.foldl_cons,List.foldl_nil]
    omega

theorem hexValue_concat (ds : List Char) (c : Char) :
    hexValue (ds ++ [c]) = hexValue ds * 16 + digitOf c := by
  rw [← foldl_hex,← foldl_hex,List.foldl_append]
  rfl

theorem hexValue_lt (hd : ds ∈ digitsOf 16) : hexValue ds < 16 ^ ds.length := by
  have h := Nat.ofDigits_lt_base_pow_length (b := 16) (l := ds.reverse.map digitOf) (by decide) ?_
  · rwa [List.length_map,List.length_reverse] at h
  · intro x hx
    obtain ⟨c,hc,rfl⟩ := List.mem_map.mp hx
    simpa using hd c (List.mem_reverse.mp hc)

theorem strtollHex_digits (hd : ds ∈ digitsOf 16) (hs : ds.length < 16) :
    strtollHex ds = hexValue ds := by
  have hdig : ∀ c ∈ ds, digitOf c < 16 := fun c hc => by simpa using hd c hc
  have hskip : ds.dropWhile (fun c => isSpace c.toNat) = ds := by
    cases ds with
    | nil => rfl
    | cons c ds =>
      have := hdig c List.mem_cons_self
      exact List.dropWhile_cons_of_neg (by simpa using isSpace_of_digit (by omega))
  have hsign : signOf ds = (false,ds) := by
    unfold signOf
    split
    · exact absurd (hdig '-' List.mem_cons_self) (by decide)
    · exact absurd (hdig '+' List.mem_cons_self) (by decide)
    · rfl
  have hmark : skipHexMark ds = ds := by
    unfold skipHexMark
    split
    · rename_i x d r
      rw [if_neg]
      rintro ⟨hx,-⟩
      have := hdig x (by simp)
      rcases hx with rfl | rfl <;> exact absurd this (by decide)
    · rfl
  have hlt := hexValue_lt hd
  have hle : 16 ^ ds.length ≤ 16 ^ 15 := Nat.pow_le_pow_right (by decide) (by omega)
  rw [strtollHex,hskip,hsign]
  dsimp only
  rw [hmark,List.takeWhile_eq_self_iff.mpr hd,foldl_hex,if_neg Bool.false_ne_true,clamp,
    if_neg (by omega),if_neg (by omega)]

end Hex

end Numeral

end Libc
