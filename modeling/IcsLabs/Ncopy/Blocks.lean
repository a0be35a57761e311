import IcsLabs.Ncopy.Program

namespace Ncopy
open Bytes Y86

def words (m : Nat → Byte) (a : Word) : Nat → List Word
  | 0 => []
  | n + 1 => load m a :: words m (a + 8) n

def putWords (m : Nat → Byte) (a : Word) : List Word → Nat → Byte
  | [] => m
  | v :: vs => putWords (store m a v) (a + 8) vs

def positive (v : Word) : Bool := decide (0 < v.toInt)

section Words

variable {m m' : Nat → Byte} {a b v : Word} {n i : Nat} {vs : List Word}

theorem toNat_add_eight (h : a.toNat + 8 < 2 ^ 64) : (a + 8).toNat = a.toNat + 8 := by
  rw [BitVec.toNat_add]
  exact Nat.mod_eq_of_lt h

theorem toNat_add_words (h : a.toNat + 8 * i < 2 ^ 64) :
    (a + BitVec.ofNat 64 (8 * i)).toNat = a.toNat + 8 * i := by
  rw [BitVec.toNat_add,BitVec.toNat_ofNat]
  omega

theorem add_word (a : Word) (i n : Nat) :
    a + BitVec.ofNat 64 (8 * i) + BitVec.ofNat 64 (8 * n) = a + BitVec.ofNat 64 (8 * (i + n)) := by
  rw [BitVec.add_assoc,← BitVec.ofNat_add,← Nat.mul_add]

theorem add_eight_word (a : Word) (i : Nat) :
    a + 8 + BitVec.ofNat 64 (8 * i) = a + BitVec.ofNat 64 (8 * (i + 1)) := by
  rw [show (8 : Word) = BitVec.ofNat 64 8 from rfl,BitVec.add_assoc,← BitVec.ofNat_add,
    show 8 + 8 * i = 8 * (i + 1) by omega]

theorem load_congr (h : ∀ k < 8, m (a.toNat + k) = m' (b.toNat + k)) : load m a = load m' b := by
  rw [load,load,readLE_congr h]

theorem words_append (m : Nat → Byte) (a : Word) (i n : Nat) :
    words m a (i + n) = words m a i ++ words m (a + BitVec.ofNat 64 (8 * i)) n := by
  induction i generalizing a with
  | zero => simp [words]
  | succ i ih =>
    rw [show i + 1 + n = (i + n) + 1 by omega,words,words,ih,add_eight_word]
    rfl

theorem words_eq_map (m : Nat → Byte) (a : Word) (n : Nat) :
    words m a n = (List.range n).map fun i => load m (a + BitVec.ofNat 64 (8 * i)) := by
  induction n generalizing a with
  | zero => rfl
  | succ n ih =>
    rw [words,ih,List.range_succ_eq_map,List.map_cons,List.map_map]
    simp only [add_eight_word]
    simp [Function.comp_def]

theorem words_congr (hf : a.toNat + 8 * n ≤ 2 ^ 64)
    (h : ∀ k < 8 * n, m (a.toNat + k) = m' (a.toNat + k)) : words m a n = words m' a n := by
  induction n generalizing a with
  | zero => rfl
  | succ n ih =>
    have hl : load m a = load m' a := load_congr fun k hk => h k (by omega)
    rw [words,words,hl]
    by_cases hn : n = 0
    · subst hn
      rfl
    · have ha : (a + 8).toNat = a.toNat + 8 := toNat_add_eight (by omega)
      rw [ih (by omega) fun k hk => ?_]
      rw [ha,Nat.add_assoc]
      exact h (8 + k) (by omega)

theorem store_outside {x : Nat} (h : x < a.toNat ∨ a.toNat + 8 ≤ x) : store m a v x = m x :=
  writeLE_outside h

theorem store_load_copy (hd : b.toNat + 8 * (i + 1) ≤ 2 ^ 64) (hs : a.toNat + 8 * (i + 1) ≤ 2 ^ 64) :
    store (copy m b.toNat a.toNat (8 * i)) (b + BitVec.ofNat 64 (8 * i))
      (load m (a + BitVec.ofNat 64 (8 * i))) = copy m b.toNat a.toNat (8 * (i + 1)) := by
  funext x
  rw [store,toNat_add_words (by omega),load,toNat_add_words (by omega),BitVec.toNat_ofNat]
  by_cases h : b.toNat + 8 * i ≤ x ∧ x < b.toNat + 8 * i + 8
  · obtain ⟨k,rfl⟩ := Nat.exists_eq_add_of_le h.1
    rw [writeLE_inside (by omega),Nat.add_assoc b.toNat,copy_inside (by omega)]
    have hk : k < 8 := by omega
    have hr : readLE m (a.toNat + 8 * i) 8 < 2 ^ 64 := readLE_lt m (a.toNat + 8 * i) 8
    rw [Nat.mod_eq_of_lt hr,readLE_digit m hk,Nat.add_assoc]
  · rw [writeLE_outside (by omega)]
    by_cases h' : b.toNat ≤ x ∧ x < b.toNat + 8 * i
    · obtain ⟨k,rfl⟩ := Nat.exists_eq_add_of_le h'.1
      rw [copy_inside (by omega),copy_inside (by omega)]
    · rw [copy_outside (by omega),copy_outside (by omega)]

theorem putWords_copy (hd : b.toNat + 8 * (i + n) ≤ 2 ^ 64) (hs : a.toNat + 8 * (i + n) ≤ 2 ^ 64) :
    putWords (copy m b.toNat a.toNat (8 * i)) (b + BitVec.ofNat 64 (8 * i))
      (words m (a + BitVec.ofNat 64 (8 * i)) n) = copy m b.toNat a.toNat (8 * (i + n)) := by
  induction n generalizing i with
  | zero => rfl
  | succ n ih =>
    have hn (c : Word) : c + BitVec.ofNat 64 (8 * i) + 8 = c + BitVec.ofNat 64 (8 * (i + 1)) :=
      add_word c i 1
    rw [words,putWords,store_load_copy (by omega) (by omega),hn,hn,ih (by omega) (by omega),
      show i + 1 + n = i + (n + 1) by omega]

end Words

section Runs

variable {prog pre post : List Op} {start : Word} {s : Machine}

theorem pc_next {n : Nat} (op : Op) (h : s.pc = addr start pre) (hl : op.length = n) :
    s.pc + BitVec.ofNat 64 n = addr start (pre ++ [op]) := by
  rw [h,addr_append,← hl]
  simp [size]

theorem loads_run {p : Reg} (rs : List Reg) (d : Nat) (hr : Ready prog start s.mem)
    (hp : prog = pre ++ loads p d rs ++ post) (hpc : s.pc = addr start pre) (hn : (p :: rs).Nodup) :
    ∃ s', Reaches s s' ∧ s'.pc = addr start (pre ++ loads p d rs) ∧ s'.mem = s.mem ∧
      rs.map s'.reg = words s.mem (s.reg p + BitVec.ofNat 64 d) rs.length ∧
      ∀ r ∉ rs, s'.reg r = s.reg r := by
  induction rs generalizing s pre d with
  | nil => exact ⟨s,.refl,by simpa [loads] using hpc,rfl,rfl,fun _ _ => rfl⟩
  | cons r rs ih =>
    let op : Op := .base (.mrmovq (BitVec.ofNat 64 d) p r)
    have hstep : Reaches s (op.exec s) :=
      hr.step (loads p (d + 8) rs ++ post) (by simp [hp,loads,op]) hpc (by simp [op])
    obtain ⟨hpr,hn⟩ := List.nodup_cons.mp hn
    obtain ⟨hrr,hrs⟩ := List.nodup_cons.mp hn
    have hpr' : p ≠ r := fun h => hpr (h ▸ List.mem_cons_self)
    have hpc' : (op.exec s).pc = addr start (pre ++ [op]) := pc_next op hpc rfl
    obtain ⟨s',hs',hpc',hm,hw,hk⟩ := ih (d + 8) (s := op.exec s) hr
      (by simp [hp,loads,op]) hpc'
      (List.nodup_cons.mpr ⟨fun h => hpr (List.mem_cons_of_mem _ h),hrs⟩)
    have hreg : (op.exec s).reg = Function.update s.reg r (load s.mem (s.reg p + BitVec.ofNat 64 d)) :=
      rfl
    refine ⟨s',hstep.trans hs',by simpa [loads,op] using hpc',hm,?_,fun q hq => ?_⟩
    · rw [List.map_cons,hw,hk r hrr,hreg,Function.update_self,Function.update_of_ne hpr',
        List.length_cons,words,BitVec.add_assoc,BitVec.ofNat_add]
      rfl
    · rw [List.mem_cons,not_or] at hq
      rw [hk q hq.2,hreg,Function.update_of_ne hq.1]

theorem stores_run {p : Reg} (rs : List Reg) (d : Nat) {b : Word}
    (hr : Ready prog start s.mem) (hp : prog = pre ++ stores p d rs ++ post) (hpc : s.pc = addr start pre)
    (hb : s.reg p + BitVec.ofNat 64 d = b) (hf : b.toNat + 8 * rs.length ≤ 2 ^ 64)
    (hc : b.toNat + 8 * rs.length ≤ start.toNat ∨ start.toNat + size prog ≤ b.toNat) :
    ∃ s', Reaches s s' ∧ s'.pc = addr start (pre ++ stores p d rs) ∧
      s'.mem = putWords s.mem b (rs.map s.reg) ∧ s'.reg = s.reg := by
  induction rs generalizing s pre d b with
  | nil => exact ⟨s,.refl,by simpa [stores] using hpc,rfl,rfl⟩
  | cons r rs ih =>
    let op : Op := .base (.rmmovq r p (BitVec.ofNat 64 d))
    have hstep : Reaches s (op.exec s) :=
      hr.step (stores p (d + 8) rs ++ post) (by simp [hp,stores,op]) hpc (by simp [op])
    have hpc' : (op.exec s).pc = addr start (pre ++ [op]) := pc_next op hpc rfl
    have hmem : (op.exec s).mem = store s.mem b (s.reg r) := hb ▸ rfl
    rw [List.length_cons] at hf hc
    have hr' : Ready prog start (op.exec s).mem := hr.congr fun x h1 h2 => by
      rw [hmem]
      exact store_outside (by omega)
    cases rs with
    | nil => exact ⟨op.exec s,hstep,by simpa [stores,op] using hpc',by simp [hmem,putWords],rfl⟩
    | cons q rs =>
      rw [List.length_cons] at hf hc ih
      have hb8 : (b + 8).toNat = b.toNat + 8 := toNat_add_eight (by omega)
      obtain ⟨s',hs',hpc',hm,hg⟩ := ih (d + 8) (s := op.exec s)
        (b := b + 8) hr' (by simp [hp,stores,op]) hpc'
        (by rw [← hb,BitVec.add_assoc,BitVec.ofNat_add]; rfl) (by omega) (by omega)
      refine ⟨s',hstep.trans hs',by simpa [stores,op] using hpc',?_,hg⟩
      rw [hm,hmem]
      rfl

theorem tally_run (rs : List Reg) {off : Nat} (hr : Ready prog start s.mem)
    (hp : prog = pre ++ tally start off rs ++ post) (hpc : s.pc = addr start pre)
    (ho : size pre = off) (hn : rax ∉ rs) :
    ∃ s', Reaches s s' ∧ s'.pc = addr start (pre ++ tally start off rs) ∧ s'.mem = s.mem ∧
      s'.reg rax = s.reg rax + BitVec.ofNat 64 ((rs.map s.reg).countP positive) ∧
      ∀ r ≠ rax, s'.reg r = s.reg r := by
  induction rs generalizing s pre off with
  | nil => exact ⟨s,.refl,by simpa [tally] using hpc,rfl,by simp,fun _ _ => rfl⟩
  | cons r rs ih =>
    rw [List.mem_cons,not_or] at hn
    let test : Op := .base (.opq .and r r)
    let skip : Op := .base (.jxx .le (start + BitVec.ofNat 64 (off + 21)))
    let bump : Op := .iaddq 1 rax
    let rest : List Op := tally start (off + 21) rs ++ post
    have h1 : Reaches s (test.exec s) :=
      hr.step (skip :: bump :: rest) (by simp [hp,tally,test,skip,bump,rest]) hpc
        (by simp [test])
    have hpc1 : (test.exec s).pc = addr start (pre ++ [test]) := pc_next test hpc rfl
    have hreg1 : (test.exec s).reg = s.reg := by
      change Function.update s.reg r (s.reg r &&& s.reg r) = s.reg
      rw [BitVec.and_self,Function.update_eq_self]
    have h2 : Reaches (test.exec s) (skip.exec (test.exec s)) :=
      Ready.step (bump :: rest) hr (by simp [hp,tally,test,skip,bump,rest]) hpc1
        (by simp [skip])
    have hpc2 : (skip.exec (test.exec s)).pc =
        if positive (s.reg r) then addr start (pre ++ [test] ++ [skip])
        else addr start (pre ++ [test,skip,bump]) := by
      have hs : size [test,skip,bump] = 21 := rfl
      rw [← pc_next skip hpc1 rfl,addr_append,addr,hs,ho,BitVec.add_assoc,← BitVec.ofNat_add]
      change (if Cond.le.holds (Flags.ofAlu .and (s.reg r) (s.reg r)) then _ else _) = _
      rw [holds_le_and]
      by_cases hv : 0 < (s.reg r).toInt
      · rw [if_neg (by simpa using hv),positive,if_pos (by simpa using hv)]
        rfl
      · rw [if_pos (by simpa using hv),positive,if_neg (by simpa using hv)]
    obtain ⟨s3,h3,hpc3,hm3,hx3,hk3⟩ : ∃ s3, Reaches s s3 ∧
        s3.pc = addr start (pre ++ [test,skip,bump]) ∧ s3.mem = s.mem ∧
        s3.reg rax = s.reg rax + BitVec.ofNat 64 (if positive (s.reg r) then 1 else 0) ∧
        ∀ q ≠ rax, s3.reg q = s.reg q := by
      by_cases hv : positive (s.reg r)
      · rw [if_pos hv] at hpc2 ⊢
        have h3 : Reaches (skip.exec (test.exec s)) (bump.exec (skip.exec (test.exec s))) :=
          Ready.step (rest) hr (by simp [hp,tally,test,skip,bump,rest]) hpc2 (by simp [bump])
        refine ⟨_,(h1.trans h2).trans h3,?_,rfl,?_,fun q hq => ?_⟩
        · rw [show pre ++ [test,skip,bump] = pre ++ [test] ++ [skip] ++ [bump] by simp]
          exact pc_next bump hpc2 rfl
        · change Function.update (test.exec s).reg rax ((test.exec s).reg rax + 1) rax = _
          rw [Function.update_self,hreg1]
          rfl
        · change Function.update (test.exec s).reg rax ((test.exec s).reg rax + 1) q = _
          rw [Function.update_of_ne hq,hreg1]
      · rw [if_neg hv] at hpc2 ⊢
        have hreg2 : (skip.exec (test.exec s)).reg = s.reg := hreg1
        exact ⟨_,h1.trans h2,hpc2,rfl,by simp [hreg2],fun q _ => by rw [hreg2]⟩
    have ho3 : size (pre ++ [test,skip,bump]) = off + 21 := by
      rw [size_append,ho]
      rfl
    obtain ⟨s',hs',hpc',hm,hx,hk⟩ := ih (s := s3)
      (hm3 ▸ hr) (by simp [hp,tally,test,skip,bump]) hpc3 ho3 hn.2
    have hrs : rs.map s3.reg = rs.map s.reg :=
      List.map_congr_left fun q hq => hk3 q fun h => hn.2 (h ▸ hq)
    refine ⟨s',h3.trans hs',by simpa [tally,test,skip,bump] using hpc',hm.trans hm3,?_,
      fun q hq => (hk q hq).trans (hk3 q hq)⟩
    rw [hx,hx3,hrs,List.map_cons,List.countP_cons,BitVec.add_assoc,← BitVec.ofNat_add,Nat.add_comm]

theorem turn_run (post : List Op) {v : Int} {c : Cond} {l : Label} (hr : Ready prog start s.mem)
    (hp : prog = pre ++ turn start v c l ++ post) (hpc : s.pc = addr start pre) :
    ∃ s', Reaches s s' ∧ s'.mem = s.mem ∧
      s'.reg = Function.update s.reg rdx (s.reg rdx + BitVec.ofInt 64 v) ∧
      s'.pc = if c.holds (Flags.ofAlu .add (BitVec.ofInt 64 v) (s.reg rdx)) then target start l
        else addr start (pre ++ turn start v c l) := by
  let shift : Op := .iaddq (BitVec.ofInt 64 v) rdx
  let leave : Op := .base (.jxx c (target start l))
  have h1 : Reaches s (shift.exec s) :=
    hr.step (leave :: post) (by simp [hp,turn,shift,leave]) hpc (by simp [shift])
  have hpc1 : (shift.exec s).pc = addr start (pre ++ [shift]) := pc_next shift hpc rfl
  have h2 : Reaches (shift.exec s) (leave.exec (shift.exec s)) :=
    Ready.step post hr (by simp [hp,turn,shift,leave]) hpc1 (by simp [leave])
  refine ⟨_,h1.trans h2,rfl,rfl,?_⟩
  have hnext : addr start (pre ++ turn start v c l) = (shift.exec s).pc + 9 := by
    rw [show pre ++ turn start v c l = pre ++ [shift] ++ [leave] by simp [turn,shift,leave]]
    exact (pc_next leave hpc1 rfl).symm
  rw [hnext]
  rfl

end Runs

end Ncopy
