import IcsLabs.Lib.Cells

namespace Transpose
open Cells

-- A[row][col] and B[row][col]
inductive Cell where
  | a (row col : Nat)
  | b (row col : Nat)
deriving DecidableEq

abbrev Prog := Cells.Prog Cell Int

def Inside (M N : Nat) : Cell → Prop
  | .a row col => row < N ∧ col < M
  | .b row col => row < M ∧ col < N

instance (M N : Nat) : DecidablePred (Inside M N)
  | .a _ _ => inferInstanceAs (Decidable (_ ∧ _))
  | .b _ _ => inferInstanceAs (Decidable (_ ∧ _))

def trans (M N : Nat) : Prog Unit :=
  (every 0 N 1).forM fun i => (every 0 M 1).forM fun j => do
    let tmp ← load (.a i j)
    store (.b j i) tmp

def transpose32 (M N : Nat) : Prog Unit :=
  (every 0 N 24).forM fun i => (every 0 M 8).forM fun j =>
    (every i (min (i + 24) N) 1).forM fun m => do
      let tmp1 ← load (.a m j)
      let tmp2 ← load (.a m (j + 1))
      let tmp3 ← load (.a m (j + 2))
      let tmp4 ← load (.a m (j + 3))
      let tmp5 ← load (.a m (j + 4))
      let tmp6 ← load (.a m (j + 5))
      let tmp7 ← load (.a m (j + 6))
      let tmp8 ← load (.a m (j + 7))
      store (.b j m) tmp1
      store (.b (j + 1) m) tmp2
      store (.b (j + 2) m) tmp3
      store (.b (j + 3) m) tmp4
      store (.b (j + 4) m) tmp5
      store (.b (j + 5) m) tmp6
      store (.b (j + 6) m) tmp7
      store (.b (j + 7) m) tmp8

-- the three inner loops of the 64 x 64 case
def upperRows (i j : Nat) : Prog Unit :=
  (every i (i + 4) 1).forM fun m => do
    let tmp1 ← load (.a m j)
    let tmp2 ← load (.a m (j + 1))
    let tmp3 ← load (.a m (j + 2))
    let tmp4 ← load (.a m (j + 3))
    let tmp5 ← load (.a m (j + 4))
    let tmp6 ← load (.a m (j + 5))
    let tmp7 ← load (.a m (j + 6))
    let tmp8 ← load (.a m (j + 7))
    store (.b j m) tmp1
    store (.b (j + 1) m) tmp2
    store (.b (j + 2) m) tmp3
    store (.b (j + 3) m) tmp4
    store (.b j (m + 4)) tmp5
    store (.b (j + 1) (m + 4)) tmp6
    store (.b (j + 2) (m + 4)) tmp7
    store (.b (j + 3) (m + 4)) tmp8

def leftColumns (i j : Nat) : Prog Unit :=
  (every j (j + 4) 1).forM fun n => do
    let m := i + 4
    let tmp1 ← load (.a m n)
    let tmp2 ← load (.a (m + 1) n)
    let tmp3 ← load (.a (m + 2) n)
    let tmp4 ← load (.a (m + 3) n)
    let tmp5 ← load (.b n m)
    let tmp6 ← load (.b n (m + 1))
    let tmp7 ← load (.b n (m + 2))
    let tmp8 ← load (.b n (m + 3))
    store (.b n m) tmp1
    store (.b n (m + 1)) tmp2
    store (.b n (m + 2)) tmp3
    store (.b n (m + 3)) tmp4
    store (.b (n + 4) (m - 4)) tmp5
    store (.b (n + 4) (m - 3)) tmp6
    store (.b (n + 4) (m - 2)) tmp7
    store (.b (n + 4) (m - 1)) tmp8

def lowerRows (i j : Nat) : Prog Unit :=
  (every (i + 4) (i + 8) 1).forM fun m => do
    let n := j + 4
    let tmp1 ← load (.a m n)
    let tmp2 ← load (.a m (n + 1))
    let tmp3 ← load (.a m (n + 2))
    let tmp4 ← load (.a m (n + 3))
    store (.b n m) tmp1
    store (.b (n + 1) m) tmp2
    store (.b (n + 2) m) tmp3
    store (.b (n + 3) m) tmp4

def transpose64 (M N : Nat) : Prog Unit :=
  (every 0 N 8).forM fun i => (every 0 M 8).forM fun j => do
    upperRows i j
    leftColumns i j
    lowerRows i j

def transpose61 (M N : Nat) : Prog Unit :=
  (every 0 N 18).forM fun i => (every 0 M 18).forM fun j =>
    (every i (min (i + 18) N) 1).forM fun m => (every j (min (j + 18) M) 1).forM fun n => do
      let tmp ← load (.a m n)
      store (.b n m) tmp

def transposeSubmit (M N : Nat) : Prog Unit :=
  if M = 32 ∧ N = 32 then transpose32 M N
  else if 64 = M ∧ 64 = N then transpose64 M N
  else if M = 61 ∧ N = 67 then transpose61 M N
  else trans M N

def isTranspose (M N : Nat) : Prog Int := do
  let same ← (every 0 N 1).allM fun i => (every 0 M 1).allM fun j => do
    let x ← load (.a i j)
    let y ← load (.b j i)
    return x == y
  return if same then 1 else 0

-- what A and B hold before
def memory (A B : Nat → Nat → Int) : Cell → Int
  | .a row col => A row col
  | .b row col => B row col

end Transpose
