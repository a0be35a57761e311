import IcsLabs.Lib.Code

namespace Ncopy
open Bytes Y86

inductive Label where
  | ncopy
  | loop1
  | npos1
  | npos2
  | npos3
  | npos4
  | npos5
  | npos6
  | npos7
  | npos8
  | npos9
  | npos12
  | loop2
  | npos10
  | npos11
  | npos13
  | loop
  | done
  | fin
deriving DecidableEq

inductive Line where
  | label (l : Label)
  | op (o : Op)
  | jump (c : Cond) (l : Label)

def iaddq (v : Int) (r : Reg) : Line := .op (.iaddq (BitVec.ofInt 64 v) r)
def mrmovq (d : Nat) (rB rA : Reg) : Line := .op (.base (.mrmovq (BitVec.ofNat 64 d) rB rA))
def rmmovq (rA : Reg) (d : Nat) (rB : Reg) : Line := .op (.base (.rmmovq rA rB (BitVec.ofNat 64 d)))
def andq (rA rB : Reg) : Line := .op (.base (.opq .and rA rB))
def xorq (rA rB : Reg) : Line := .op (.base (.opq .xor rA rB))
def jl (l : Label) : Line := .jump .l l
def jle (l : Label) : Line := .jump .le l
def jge (l : Label) : Line := .jump .ge l
def ret : Line := .op (.base .ret)

def source : List Line :=
  [.label .ncopy,
    xorq rax rax,
    iaddq (-8) rdx,
    jl .npos12,
   .label .loop1,
    mrmovq 0 rdi r8,
    mrmovq 0x8 rdi r9,
    mrmovq 0x10 rdi r10,
    mrmovq 0x18 rdi r11,
    mrmovq 0x20 rdi r12,
    mrmovq 0x28 rdi r13,
    mrmovq 0x30 rdi r14,
    mrmovq 0x38 rdi rbx,
    rmmovq r8 0 rsi,
    rmmovq r9 0x8 rsi,
    rmmovq r10 0x10 rsi,
    rmmovq r11 0x18 rsi,
    rmmovq r12 0x20 rsi,
    rmmovq r13 0x28 rsi,
    rmmovq r14 0x30 rsi,
    rmmovq rbx 0x38 rsi,
    iaddq 64 rdi,
    iaddq 64 rsi,
   .label .npos1,
    andq r8 r8,
    jle .npos2,
    iaddq 1 rax,
   .label .npos2,
    andq r9 r9,
    jle .npos3,
    iaddq 1 rax,
   .label .npos3,
    andq r10 r10,
    jle .npos4,
    iaddq 1 rax,
   .label .npos4,
    andq r11 r11,
    jle .npos5,
    iaddq 1 rax,
   .label .npos5,
    andq r12 r12,
    jle .npos6,
    iaddq 1 rax,
   .label .npos6,
    andq r13 r13,
    jle .npos7,
    iaddq 1 rax,
   .label .npos7,
    andq r14 r14,
    jle .npos8,
    iaddq 1 rax,
   .label .npos8,
    andq rbx rbx,
    jle .npos9,
    iaddq 1 rax,
   .label .npos9,
    iaddq (-8) rdx,
    jge .loop1,
   .label .npos12,
    iaddq 6 rdx,
    jl .loop,
   .label .loop2,
    mrmovq 0 rdi r8,
    mrmovq 0x8 rdi r9,
    rmmovq r8 0 rsi,
    rmmovq r9 0x8 rsi,
    iaddq 16 rdi,
    iaddq 16 rsi,
   .label .npos10,
    andq r8 r8,
    jle .npos11,
    iaddq 1 rax,
   .label .npos11,
    andq r9 r9,
    jle .npos13,
    iaddq 1 rax,
   .label .npos13,
    iaddq (-2) rdx,
    jge .loop2,
   .label .loop,
    iaddq 1 rdx,
    jl .done,
    mrmovq 0 rdi r8,
    rmmovq r8 0 rsi,
    andq r8 r8,
    jle .done,
    iaddq 1 rax,
   .label .done,
    ret,
   .label .fin]

namespace Line

def length : Line → Nat
  | label _ => 0
  | op o => o.length
  | jump _ _ => 9

end Line

-- the bytes before a label
def offset (l : Label) : List Line → Nat
  | [] => 0
  | .label l' :: ls => if l' = l then 0 else offset l ls
  | ln :: ls => ln.length + offset l ls

def target (start : Word) (l : Label) : Word := start + BitVec.ofNat 64 (offset l source)

def assemble (start : Word) : List Line → List Op
  | [] => []
  | .label _ :: ls => assemble start ls
  | .op o :: ls => o :: assemble start ls
  | .jump c l :: ls => .base (.jxx c (target start l)) :: assemble start ls

def program (start : Word) : List Op := assemble start source

section Segments

def loads (p : Reg) (d : Nat) : List Reg → List Op
  | [] => []
  | r :: rs => .base (.mrmovq (BitVec.ofNat 64 d) p r) :: loads p (d + 8) rs

def stores (p : Reg) (d : Nat) : List Reg → List Op
  | [] => []
  | r :: rs => .base (.rmmovq r p (BitVec.ofNat 64 d)) :: stores p (d + 8) rs

def move (rs : List Reg) : List Op := loads rdi 0 rs ++ stores rsi 0 rs

def advance (n : Nat) : List Op :=
  [.iaddq (BitVec.ofNat 64 (8 * n)) rdi,.iaddq (BitVec.ofNat 64 (8 * n)) rsi]

def tally (start : Word) (off : Nat) : List Reg → List Op
  | [] => []
  | r :: rs =>
    .base (.opq .and r r) :: .base (.jxx .le (start + BitVec.ofNat 64 (off + 21))) ::
      .iaddq 1 rax :: tally start (off + 21) rs

-- move the remaining count by v and leave for a label on a condition
def turn (start : Word) (v : Int) (c : Cond) (l : Label) : List Op :=
  [.iaddq (BitVec.ofInt 64 v) rdx,.base (.jxx c (target start l))]

def eight : List Reg := [r8,r9,r10,r11,r12,r13,r14,rbx]
def two : List Reg := [r8,r9]
def one : List Reg := [r8]

def entry (start : Word) : List Op := .base (.opq .xor rax rax) :: turn start (-8) .l .npos12
def loop8 (start : Word) : List Op := move eight ++ advance 8 ++ tally start 201 eight
def loop2 (start : Word) : List Op := move two ++ advance 2 ++ tally start 467 two
def last (start : Word) : List Op := move one ++ tally start 567 one

def upTo8 (start : Word) : List Op := entry start
def upToTurn8 (start : Word) : List Op := upTo8 start ++ loop8 start
def upToNpos12 (start : Word) : List Op := upToTurn8 start ++ turn start (-8) .ge .loop1
def upTo2 (start : Word) : List Op := upToNpos12 start ++ turn start 6 .l .loop
def upToTurn2 (start : Word) : List Op := upTo2 start ++ loop2 start
def upToLoop (start : Word) : List Op := upToTurn2 start ++ turn start (-2) .ge .loop2
def upToLast (start : Word) : List Op := upToLoop start ++ turn start 1 .l .done
def upToDone (start : Word) : List Op := upToLast start ++ last start

set_option maxRecDepth 4000 in
theorem program_segments (start : Word) :
    program start = upToDone start ++ [.base .ret] := rfl

def from2 (start : Word) : List Op :=
  loop2 start ++ turn start (-2) .ge .loop2 ++ turn start 1 .l .done ++ last start ++ [.base .ret]

theorem program_upTo8 (start : Word) : program start =
    upTo8 start ++ loop8 start ++ turn start (-8) .ge .loop1 ++
      (turn start 6 .l .loop ++ from2 start) := by
  simp only [program_segments,upToDone,upToLast,upToLoop,upToTurn2,upTo2,upToNpos12,upToTurn8,from2,
    List.append_assoc]

theorem program_upToNpos12 (start : Word) : program start =
    upToNpos12 start ++ turn start 6 .l .loop ++ from2 start := by
  simp only [program_upTo8,upToNpos12,upToTurn8,List.append_assoc]

theorem program_upTo2 (start : Word) : program start =
    upTo2 start ++ loop2 start ++ turn start (-2) .ge .loop2 ++
      (turn start 1 .l .done ++ last start ++ [.base .ret]) := by
  simp only [program_upToNpos12,upTo2,from2,List.append_assoc]

theorem program_upToLoop (start : Word) : program start =
    upToLoop start ++ turn start 1 .l .done ++ (last start ++ [.base .ret]) := by
  simp only [program_upTo2,upToLoop,upToTurn2,List.append_assoc]

theorem program_upToLast (start : Word) : program start =
    upToLast start ++ move one ++ tally start 567 one ++ [.base .ret] := by
  simp only [program_upToLoop,upToLast,last,List.append_assoc]

end Segments

section Sizes

theorem size_cons (op : Op) (ops : List Op) : size (op :: ops) = op.length + size ops := by
  simp [size]

theorem size_loads (p : Reg) (d : Nat) (rs : List Reg) : size (loads p d rs) = 10 * rs.length := by
  induction rs generalizing d with
  | nil => rfl
  | cons r rs ih =>
    rw [loads,size_cons,ih,List.length_cons,Op.length,Instr.length]
    omega

theorem size_stores (p : Reg) (d : Nat) (rs : List Reg) : size (stores p d rs) = 10 * rs.length := by
  induction rs generalizing d with
  | nil => rfl
  | cons r rs ih =>
    rw [stores,size_cons,ih,List.length_cons,Op.length,Instr.length]
    omega

theorem size_tally (start : Word) (off : Nat) (rs : List Reg) :
    size (tally start off rs) = 21 * rs.length := by
  induction rs generalizing off with
  | nil => rfl
  | cons r rs ih =>
    rw [tally,size_cons,size_cons,size_cons,ih,List.length_cons]
    simp only [Op.length,Instr.length]
    omega

theorem size_move (rs : List Reg) : size (move rs) = 20 * rs.length := by
  rw [move,size_append,size_loads,size_stores]
  omega

theorem size_advance (n : Nat) : size (advance n) = 20 := rfl

theorem size_turn (start : Word) (v : Int) (c : Cond) (l : Label) : size (turn start v c l) = 19 :=
  rfl

theorem size_upTo8 (start : Word) : size (upTo8 start) = 21 := rfl

theorem size_upToNpos12 (start : Word) : size (upToNpos12 start) = 388 := by
  simp only [upToNpos12,upToTurn8,loop8,size_append,size_upTo8,size_move,size_advance,size_tally,
    size_turn]
  rfl

theorem size_upTo2 (start : Word) : size (upTo2 start) = 407 := by
  rw [upTo2,size_append,size_upToNpos12,size_turn]

theorem size_upToLoop (start : Word) : size (upToLoop start) = 528 := by
  simp only [upToLoop,upToTurn2,loop2,size_append,size_upTo2,size_move,size_advance,size_tally,
    size_turn]
  rfl

theorem size_upToDone (start : Word) : size (upToDone start) = 588 := by
  simp only [upToDone,upToLast,last,size_append,size_upToLoop,size_move,size_tally,size_turn]
  rfl

theorem target_loop1 (start : Word) : target start .loop1 = addr start (upTo8 start) := by
  rw [target,addr,size_upTo8,show offset .loop1 source = 21 by decide]

theorem target_npos12 (start : Word) : target start .npos12 = addr start (upToNpos12 start) := by
  rw [target,addr,size_upToNpos12,show offset .npos12 source = 388 by decide]

theorem target_loop2 (start : Word) : target start .loop2 = addr start (upTo2 start) := by
  rw [target,addr,size_upTo2,show offset .loop2 source = 407 by decide]

theorem target_loop (start : Word) : target start .loop = addr start (upToLoop start) := by
  rw [target,addr,size_upToLoop,show offset .loop source = 528 by decide]

theorem target_done (start : Word) : target start .done = addr start (upToDone start) := by
  rw [target,addr,size_upToDone,show offset .done source = 588 by decide]

theorem tally_offsets (start : Word) :
    size (upTo8 start ++ move eight ++ advance 8) = 201 ∧
    size (upTo2 start ++ move two ++ advance 2) = 467 ∧
    size (upToLast start ++ move one) = 567 := by
  refine ⟨?_,?_,?_⟩
  · rw [size_append,size_append,size_upTo8,size_move,size_advance]
    rfl
  · rw [size_append,size_append,size_upTo2,size_move,size_advance]
    rfl
  · rw [size_append,upToLast,size_append,size_upToLoop,size_move,size_turn]
    rfl

end Sizes

end Ncopy
