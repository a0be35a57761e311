import IcsLabs.Ncopy.Blocks

namespace Ncopy
open Bytes Y86

def positives (m : Nat → Byte) (a : Word) (n : Nat) : Nat :=
  (List.range n).countP fun i => positive (load m (a + BitVec.ofNat 64 (8 * i)))

-- a call of ncopy: the three arguments and the code are in place
structure Enters (start src dst : Word) (len : Nat) (s : Machine) : Prop where
  pc : s.pc = start
  rdi : s.reg rdi = src
  rsi : s.reg rsi = dst
  rdx : s.reg rdx = BitVec.ofNat 64 len
  short : len < 2 ^ 60
  ready : Ready (program start) start s.mem
  srcFits : src.toNat + 8 * len ≤ 2 ^ 64
  dstFits : dst.toNat + 8 * len ≤ 2 ^ 64
  apart : src.toNat + 8 * len ≤ dst.toNat ∨ dst.toNat + 8 * len ≤ src.toNat
  apartCode : dst.toNat + 8 * len ≤ start.toNat ∨
    start.toNat + size (program start) ≤ dst.toNat

-- i words are copied and counted, and rdx holds k
structure Held (src dst : Word) (s0 : Machine) (i : Nat) (k : Int) (s : Machine) : Prop where
  rdi : s.reg rdi = src + BitVec.ofNat 64 (8 * i)
  rsi : s.reg rsi = dst + BitVec.ofNat 64 (8 * i)
  rdx : s.reg rdx = BitVec.ofInt 64 k
  rax : s.reg rax = BitVec.ofNat 64 (positives s0.mem src i)
  rsp : s.reg rsp = s0.reg rsp
  mem : s.mem = copy s0.mem dst.toNat src.toNat (8 * i)

def Scratch (rs : List Reg) : Prop := (rax :: rdx :: rsp :: rsi :: rdi :: rs).Nodup

instance (rs : List Reg) : Decidable (Scratch rs) :=
  inferInstanceAs (Decidable (List.Nodup _))

theorem positives_eq_words (m : Nat → Byte) (a : Word) (n : Nat) :
    positives m a n = (words m a n).countP positive := by
  rw [positives,words_eq_map,List.countP_map,Function.comp_def]

theorem positives_add (m : Nat → Byte) (a : Word) (i n : Nat) :
    positives m a (i + n) =
      positives m a i + (words m (a + BitVec.ofNat 64 (8 * i)) n).countP positive := by
  rw [positives_eq_words,words_append,List.countP_append,← positives_eq_words]

theorem toInt_ofInt_of_short {k : Int} (h1 : -2 ^ 61 ≤ k) (h2 : k < 2 ^ 61) :
    (BitVec.ofInt 64 k).toInt = k := by
  rw [BitVec.toInt_ofInt]
  exact Int.bmod_eq_of_le (by omega) (by omega)

variable {start src dst : Word} {len i : Nat} {k : Int} {s0 s : Machine}

section Steps

variable {pre post : List Op}

theorem ready_copied (he : Enters start src dst len s0) (hi : i ≤ len)
    (hm : s.mem = copy s0.mem dst.toNat src.toNat (8 * i)) : Ready (program start) start s.mem := by
  refine he.ready.congr fun x h1 h2 => ?_
  have ha := he.apartCode
  rw [hm,copy_outside (by omega)]

theorem move_run (rs : List Reg) (post : List Op) (he : Enters start src dst len s0)
    (hs : Held src dst s0 i k s) (hi : i + rs.length ≤ len) (hr : Scratch rs)
    (hp : program start = pre ++ move rs ++ post)
    (hpc : s.pc = addr start pre) :
    ∃ s', Reaches s s' ∧ s'.pc = addr start (pre ++ move rs) ∧
      s'.mem = copy s0.mem dst.toNat src.toNat (8 * (i + rs.length)) ∧
      rs.map s'.reg = words s0.mem (src + BitVec.ofNat 64 (8 * i)) rs.length ∧
      ∀ r ∉ rs, s'.reg r = s.reg r := by
  have hsf := he.srcFits
  have hdf := he.dstFits
  have hap := he.apart
  have hac := he.apartCode
  simp only [Scratch,List.nodup_cons,List.mem_cons,not_or] at hr
  obtain ⟨_,_,_,⟨_,hrsi⟩,hrdi,hrs⟩ := hr
  obtain ⟨s1,h1,hpc1,hm1,hw1,hk1⟩ := loads_run rs 0
    (ready_copied he (by omega) hs.mem)
    (show program start = pre ++ loads rdi 0 rs ++ (stores rsi 0 rs ++ post) by simp [hp,move]) hpc
    (List.nodup_cons.mpr ⟨hrdi,hrs⟩)
  by_cases h0 : rs = []
  · subst h0
    exact ⟨s,.refl,by simpa [move,loads,stores] using hpc,hs.mem,rfl,fun _ _ => rfl⟩
  have hlen : 0 < rs.length := List.length_pos_iff.mpr h0
  have hsrc : (src + BitVec.ofNat 64 (8 * i)).toNat = src.toNat + 8 * i :=
    toNat_add_words (by omega)
  have hdst : (dst + BitVec.ofNat 64 (8 * i)).toNat = dst.toNat + 8 * i :=
    toNat_add_words (by omega)
  -- the source is read as it was on entry: the words copied so far lie elsewhere
  have hwords : rs.map s1.reg = words s0.mem (src + BitVec.ofNat 64 (8 * i)) rs.length := by
    rw [hw1,hs.rdi,hs.mem,BitVec.add_zero]
    refine words_congr (by omega) fun b hb => copy_outside ?_
    omega
  obtain ⟨s2,h2,hpc2,hm2,hg2⟩ := stores_run rs 0
    (b := dst + BitVec.ofNat 64 (8 * i)) (hm1 ▸ ready_copied he (by omega) hs.mem)
    (show program start = pre ++ loads rdi 0 rs ++ stores rsi 0 rs ++ post by simp [hp,move]) hpc1
    (by rw [hk1 rsi hrsi,hs.rsi,BitVec.add_zero]) (by omega) (by omega)
  refine ⟨s2,h1.trans h2,by simpa [move] using hpc2,?_,by rw [hg2,hwords],fun r h => ?_⟩
  · rw [hm2,hwords,hm1,hs.mem,putWords_copy (by omega) (by omega)]
  · rw [hg2,hk1 r h]

theorem advance_run (post : List Op) {n : Nat} (hr : Ready (program start) start s.mem)
    (hp : program start = pre ++ advance n ++ post) (hpc : s.pc = addr start pre) :
    ∃ s', Reaches s s' ∧ s'.pc = addr start (pre ++ advance n) ∧ s'.mem = s.mem ∧
      s'.reg rdi = s.reg rdi + BitVec.ofNat 64 (8 * n) ∧
      s'.reg rsi = s.reg rsi + BitVec.ofNat 64 (8 * n) ∧
      ∀ r, r ≠ rdi → r ≠ rsi → s'.reg r = s.reg r := by
  let right : Op := .iaddq (BitVec.ofNat 64 (8 * n)) rdi
  let cross : Op := .iaddq (BitVec.ofNat 64 (8 * n)) rsi
  have h1 : Reaches s (right.exec s) :=
    hr.step (cross :: post) (by simp [hp,advance,right,cross]) hpc (by simp [right])
  have hpc1 : (right.exec s).pc = addr start (pre ++ [right]) := pc_next right hpc rfl
  have h2 : Reaches (right.exec s) (cross.exec (right.exec s)) :=
    Ready.step post hr (by simp [hp,advance,right,cross]) hpc1 (by simp [cross])
  have hne : rsi ≠ rdi := by decide
  refine ⟨_,h1.trans h2,?_,rfl,?_,?_,fun r hd hs => ?_⟩
  · rw [show pre ++ advance n = pre ++ [right] ++ [cross] by simp [advance,right,cross]]
    exact pc_next cross hpc1 rfl
  all_goals
    simp only [cross,right,Op.exec]
  · rw [Function.update_of_ne hne.symm,Function.update_self]
  · rw [Function.update_self,Function.update_of_ne hne]
  · rw [Function.update_of_ne hs,Function.update_of_ne hd]

-- one round of an unrolled loop, up to the turn at its end
theorem body_run (post : List Op) {rs : List Reg} {off : Nat} (he : Enters start src dst len s0)
    (hs : Held src dst s0 i k s) (hi : i + rs.length ≤ len) (hr : Scratch rs) (hpc : s.pc = addr start pre)
    (ho : size (pre ++ move rs ++ advance rs.length) = off)
    (hp : program start = pre ++ move rs ++ advance rs.length ++ tally start off rs ++ post) :
    ∃ s', Reaches s s' ∧ Held src dst s0 (i + rs.length) k s' ∧
      s'.pc = addr start (pre ++ move rs ++ advance rs.length ++ tally start off rs) := by
  obtain ⟨s1,h1,hpc1,hm1,hw1,hk1⟩ :=
    move_run rs (advance rs.length ++ tally start off rs ++ post) he hs hi hr (by simp [hp]) hpc
  obtain ⟨s2,h2,hpc2,hm2,hdi2,hsi2,hk2⟩ :=
    advance_run (n := rs.length) (tally start off rs ++ post) (ready_copied he hi hm1) (by simp [hp]) hpc1
  simp only [Scratch,List.nodup_cons,List.mem_cons,not_or] at hr
  obtain ⟨⟨_,_,_,_,hax⟩,⟨_,_,_,hdx⟩,⟨_,_,hsp⟩,⟨_,hsi⟩,hdi,_⟩ := hr
  obtain ⟨s3,h3,hpc3,hm3,hx3,hk3⟩ :=
    tally_run rs (hm2 ▸ ready_copied he hi hm1) hp hpc2 ho hax
  have hws : rs.map s2.reg = rs.map s1.reg := List.map_congr_left fun r hr =>
    hk2 r (fun h => hdi (h ▸ hr)) (fun h => hsi (h ▸ hr))
  refine ⟨s3,h1.trans (h2.trans h3),?_,hpc3⟩
  refine ⟨?_,?_,?_,?_,?_,hm3.trans (hm2.trans hm1)⟩
  · rw [hk3 rdi (by decide),hdi2,hk1 rdi hdi,hs.rdi,add_word]
  · rw [hk3 rsi (by decide),hsi2,hk1 rsi hsi,hs.rsi,add_word]
  · rw [hk3 rdx (by decide),hk2 rdx (by decide) (by decide),hk1 rdx hdx,hs.rdx]
  · rw [hx3,hws,hw1,hk2 rax (by decide) (by decide),hk1 rax hax,hs.rax,positives_add,
      BitVec.ofNat_add]
  · rw [hk3 rsp (by decide),hk2 rsp (by decide) (by decide),hk1 rsp hsp,hs.rsp]

theorem turn_held {v : Int} {c : Cond} {l : Label} (he : Enters start src dst len s0)
    (hs : Held src dst s0 i k s) (hi : i ≤ len) (hp : program start = pre ++ turn start v c l ++ post)
    (hpc : s.pc = addr start pre) :
    ∃ s', Reaches s s' ∧ Held src dst s0 i (k + v) s' ∧
      s'.pc = if c.holds (Flags.ofAlu .add (BitVec.ofInt 64 v) (BitVec.ofInt 64 k))
        then target start l else addr start (pre ++ turn start v c l) := by
  obtain ⟨s',h,hm,hg,hpc'⟩ := turn_run post (ready_copied he hi hs.mem) hp hpc
  have hk (r : Reg) (hr : r ≠ rdx) : s'.reg r = s.reg r := by rw [hg,Function.update_of_ne hr]
  refine ⟨s',h,⟨?_,?_,?_,?_,?_,hm.trans hs.mem⟩,hs.rdx ▸ hpc'⟩
  · rw [hk rdi (by decide),hs.rdi]
  · rw [hk rsi (by decide),hs.rsi]
  · rw [hg,Function.update_self,hs.rdx,BitVec.ofInt_add]
  · rw [hk rax (by decide),hs.rax]
  · rw [hk rsp (by decide),hs.rsp]

end Steps

section Loops

theorem holds_l_shift {v : Int} (hk : -2 ^ 61 ≤ k ∧ k < 2 ^ 61) (hv : -2 ^ 61 ≤ v ∧ v < 2 ^ 61) :
    Cond.l.holds (Flags.ofAlu .add (BitVec.ofInt 64 v) (BitVec.ofInt 64 k)) = decide (k + v < 0) := by
  rw [holds_l_add,toInt_ofInt_of_short hk.1 hk.2,toInt_ofInt_of_short hv.1 hv.2]

def round (start : Word) (off : Nat) (rs : List Reg) : List Op :=
  move rs ++ advance rs.length ++ tally start off rs

theorem loop_run (rs : List Reg) {pre post : List Op} {off : Nat} {l : Label}
    (he : Enters start src dst len s0) (hr : Scratch rs) (h0 : 0 < rs.length) (h8 : rs.length ≤ 8)
    (hp : program start = pre ++ round start off rs ++ turn start (-rs.length) .ge l ++ post)
    (ho : size (pre ++ move rs ++ advance rs.length) = off) (hl : target start l = addr start pre)
    (hs : Held src dst s0 i (len - i - rs.length) s) (hpc : s.pc = addr start pre)
    (hi : i + rs.length ≤ len) :
    ∃ j s', Reaches s s' ∧ Held src dst s0 j (len - j - rs.length) s' ∧
      s'.pc = addr start (pre ++ round start off rs ++ turn start (-rs.length) .ge l) ∧
      j ≤ len ∧ len < j + rs.length := by
  have hshort := he.short
  induction hd : len - i using Nat.strong_induction_on generalizing i s with
  | _ d ih =>
    obtain ⟨s1,h1,hs1,hpc1⟩ := body_run (turn start (-rs.length) .ge l ++ post) he hs hi hr
      hpc ho (by simp [hp,round])
    have hp' : program start = pre ++ move rs ++ advance rs.length ++ tally start off rs ++
        turn start (-rs.length) .ge l ++ post := by simp [hp,round]
    obtain ⟨s2,h2,hs2,hpc2⟩ := turn_held he hs1 hi hp' hpc1
    rw [show (len - i - rs.length + -rs.length : Int) = len - (i + rs.length : Nat) - rs.length by
      omega] at hs2
    rw [holds_ge,holds_l_shift (by omega) (by omega)] at hpc2
    by_cases hmore : i + rs.length + rs.length ≤ len
    · rw [if_pos (by simp; omega),hl] at hpc2
      obtain ⟨j,s',h',hs',hpc',hj⟩ := ih (len - (i + rs.length)) (by omega) hs2 hpc2 hmore rfl
      exact ⟨j,s',(h1.trans h2).trans h',hs',hpc',hj⟩
    · rw [if_neg (by simp; omega)] at hpc2
      exact ⟨i + rs.length,s2,h1.trans h2,hs2,by simpa [round] using hpc2,hi,by omega⟩

end Loops

section Phases

variable (he : Enters start src dst len s0)
include he

-- the header clears the count and biases the length by eight
theorem entry_run : ∃ s, Reaches s0 s ∧ Held src dst s0 0 (len - 0 - 8) s ∧
    s.pc = if len < 8 then addr start (upToNpos12 start) else addr start (upTo8 start) := by
  have hshort := he.short
  let clear : Op := .base (.opq .xor rax rax)
  have hpc0 : s0.pc = addr start [] := by simp [he.pc,addr,size]
  have h1 : Reaches s0 (clear.exec s0) := he.ready.step _ rfl hpc0 (by simp [clear])
  have hreg : (clear.exec s0).reg = Function.update s0.reg rax 0 := by
    change Function.update s0.reg rax (s0.reg rax ^^^ s0.reg rax) = _
    rw [BitVec.xor_self]
    rfl
  have hk (r : Reg) (hr : r ≠ rax) : (clear.exec s0).reg r = s0.reg r := by
    rw [hreg,Function.update_of_ne hr]
  have hheld : Held src dst s0 0 len (clear.exec s0) := by
    refine ⟨?_,?_,?_,?_,hk rsp (by decide),?_⟩
    · simp [hk rdi (by decide),he.rdi]
    · simp [hk rsi (by decide),he.rsi]
    · rw [hk rdx (by decide),he.rdx,BitVec.ofInt_natCast]
    · simp [hreg,positives]
    · funext x
      rw [copy_outside (by omega)]
      rfl
  have hp : program start = [clear] ++ turn start (-8) .l .npos12 ++ _ := program_upTo8 start
  have hpc1 : s0.pc + BitVec.ofNat 64 2 = addr start ([] ++ [clear]) := pc_next clear hpc0 rfl
  obtain ⟨s,h2,hs,hpc⟩ := turn_held he hheld (by omega) hp hpc1
  refine ⟨s,h1.trans h2,by simpa [sub_eq_add_neg] using hs,?_⟩
  rw [hpc,holds_l_shift (by omega) (by omega)]
  by_cases h : len < 8
  · rw [if_pos (by simp; omega),if_pos h,target_npos12]
  · rw [if_neg (by simp; omega),if_neg h]
    rfl

theorem eight_run : ∃ i s, Reaches s0 s ∧ Held src dst s0 i (len - i - 8) s ∧
    s.pc = addr start (upToNpos12 start) ∧ i ≤ len ∧ len < i + 8 := by
  obtain ⟨s,h,hs,hpc⟩ := entry_run he
  by_cases h8 : len < 8
  · rw [if_pos h8] at hpc
    exact ⟨0,s,h,hs,hpc,by omega,by omega⟩
  · rw [if_neg h8] at hpc
    obtain ⟨i,s',h',hs',hpc',hi⟩ := loop_run eight he (by decide) (by decide) (by decide)
      (program_upTo8 start) (tally_offsets start).1 (target_loop1 start) hs hpc
      (show 0 + 8 ≤ len by omega)
    exact ⟨i,s',h.trans h',hs',hpc',hi⟩

theorem two_run : ∃ i s, Reaches s0 s ∧ Held src dst s0 i (len - i - 2) s ∧
    s.pc = addr start (upToLoop start) ∧ i ≤ len ∧ len < i + 2 := by
  have hshort := he.short
  obtain ⟨i,s,h,hs,hpc,hi,hi8⟩ := eight_run he
  obtain ⟨s1,h1,hs1,hpc1⟩ := turn_held he hs hi (program_upToNpos12 start) hpc
  rw [holds_l_shift (by omega) (by omega)] at hpc1
  rw [show (len - i - 8 + 6 : Int) = len - i - 2 by omega] at hs1 hpc1
  by_cases h2 : len < i + 2
  · rw [if_pos (by simp; omega),target_loop] at hpc1
    exact ⟨i,s1,h.trans h1,hs1,hpc1,hi,h2⟩
  · rw [if_neg (by simp; omega)] at hpc1
    obtain ⟨j,s',h',hs',hpc',hj⟩ := loop_run two he (by decide) (by decide) (by decide)
      (program_upTo2 start) (tally_offsets start).2.1 (target_loop2 start) hs1 hpc1
      (show i + 2 ≤ len by omega)
    exact ⟨j,s',h.trans (h1.trans h'),hs',hpc',hj⟩

theorem last_run : ∃ s, Reaches s0 s ∧ s.pc = addr start (upToDone start) ∧
    s.mem = copy s0.mem dst.toNat src.toNat (8 * len) ∧
    s.reg rax = BitVec.ofNat 64 (positives s0.mem src len) ∧ s.reg rsp = s0.reg rsp := by
  have hshort := he.short
  obtain ⟨i,s,h,hs,hpc,hi,hi2⟩ := two_run he
  obtain ⟨s1,h1,hs1,hpc1⟩ := turn_held he hs hi (program_upToLoop start) hpc
  rw [holds_l_shift (by omega) (by omega)] at hpc1
  by_cases hlast : len = i
  · subst hlast
    rw [if_pos (by simp),target_done] at hpc1
    exact ⟨s1,h.trans h1,hpc1,hs1.mem,hs1.rax,hs1.rsp⟩
  · obtain rfl : len = i + 1 := by omega
    rw [if_neg (by simp)] at hpc1
    obtain ⟨s2,h2,hpc2,hm2,hw2,hk2⟩ := move_run one _ he hs1 (show i + 1 ≤ i + 1 by omega)
      (by decide) ((program_upToLast start).trans (List.append_assoc _ _ _)) hpc1
    have hdone : upToLast start ++ move one ++ tally start 567 one = upToDone start := by
      rw [upToDone,last,List.append_assoc]
    obtain ⟨s3,h3,hpc3,hm3,hx3,hk3⟩ := tally_run one (ready_copied he (Nat.le_refl (i + 1)) hm2)
      (program_upToLast start) hpc2 (tally_offsets start).2.2 (by decide)
    rw [hdone] at hpc3
    refine ⟨s3,h.trans (h1.trans (h2.trans h3)),hpc3,hm3.trans hm2,?_,?_⟩
    · rw [hx3,hw2,hk2 rax (by decide),hs1.rax,positives_add,BitVec.ofNat_add]
      rfl
    · rw [hk3 rsp (by decide),hk2 rsp (by decide),hs1.rsp]

end Phases

theorem positives_le (m : Nat → Byte) (a : Word) (n : Nat) : positives m a n ≤ n := by
  have h := List.countP_le_length (p := fun i => positive (load m (a + BitVec.ofNat 64 (8 * i))))
    (l := List.range n)
  rwa [List.length_range] at h

theorem copy_word {m : Nat → Byte} {a b : Word} (ha : a.toNat + 8 * len ≤ 2 ^ 64)
    (hb : b.toNat + 8 * len ≤ 2 ^ 64) (hi : i < len) :
    load (copy m b.toNat a.toNat (8 * len)) (b + BitVec.ofNat 64 (8 * i)) =
      load m (a + BitVec.ofNat 64 (8 * i)) := by
  refine load_congr fun k hk => ?_
  rw [toNat_add_words (by omega),toNat_add_words (by omega),Nat.add_assoc,copy_inside (by omega),
    Nat.add_assoc]

theorem ncopy_copies (he : Enters start src dst len s0) :
    ∃ s, Reaches s0 s ∧ s.pc = target start .done ∧
      decodeOp s.mem s.pc.toNat = some (.base .ret) ∧
      (∀ i < len, load s.mem (dst + BitVec.ofNat 64 (8 * i)) =
        load s0.mem (src + BitVec.ofNat 64 (8 * i))) ∧
      (∀ x, ¬ (dst.toNat ≤ x ∧ x < dst.toNat + 8 * len) → s.mem x = s0.mem x) ∧
      (s.reg rax).toNat = positives s0.mem src len ∧ s.reg rsp = s0.reg rsp := by
  obtain ⟨s,h,hpc,hm,hx,hsp⟩ := last_run he
  have hshort := he.short
  refine ⟨s,h,hpc.trans (target_done start).symm,?_,fun i hi => ?_,fun x hx => ?_,?_,hsp⟩
  · rw [hpc]
    exact (ready_copied he (Nat.le_refl len) hm).decode (program_segments start)
  · rw [hm,copy_word he.srcFits he.dstFits hi]
  · rw [hm,copy_outside (by omega)]
  · have hp := positives_le s0.mem src len
    rw [hx,BitVec.toNat_ofNat]
    omega

-- eleven words of both signs at 1024, to be copied to 2048
def demo : Machine where
  pc := 0
  reg r := if r = rdi then 1024 else if r = rsi then 2048 else if r = rdx then 11 else 0
  mem x := if x < 589 then (code (program 0)).getD x 0 else BitVec.ofNat 8 (17 * x)
  cc := ⟨false,false,false⟩

theorem demo_enters : Enters 0 1024 2048 11 demo where
  pc := rfl
  rdi := rfl
  rsi := rfl
  rdx := rfl
  short := by decide
  ready := by
    have hs : size (program 0) = 589 := by
      rw [program_segments,size_append,size_upToDone]
      rfl
    refine ⟨by rw [hs]; decide,fun k hk => ?_⟩
    have hk' : k < 589 := by rwa [length_code,hs] at hk
    change (if 0 + k < 589 then (code (program 0)).getD (0 + k) 0 else _) = _
    rw [Nat.zero_add,if_pos hk',List.getD_eq_getElem?_getD,List.getElem?_eq_getElem hk]
    rfl
  srcFits := by decide
  dstFits := by decide
  apart := by decide
  apartCode := by
    rw [program_segments,size_append,size_upToDone]
    decide

theorem ncopy_copies_eleven : ∃ s, Reaches demo s ∧ s.pc = target 0 .done ∧
    decodeOp s.mem s.pc.toNat = some (.base .ret) ∧
    (∀ i < 11, load s.mem (2048 + BitVec.ofNat 64 (8 * i)) =
      load demo.mem (1024 + BitVec.ofNat 64 (8 * i))) ∧
    (∀ x, ¬ (2048 ≤ x ∧ x < 2048 + 8 * 11) → s.mem x = demo.mem x) ∧
    (s.reg rax).toNat = 5 ∧ s.reg rsp = demo.reg rsp := by
  rw [← show positives demo.mem 1024 11 = 5 by decide +kernel]
  exact ncopy_copies demo_enters

end Ncopy
