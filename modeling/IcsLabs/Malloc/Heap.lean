import IcsLabs.Lib.Bytes
import IcsLabs.Lib.Conversion
import Mathlib.Data.Nat.Bitwise

namespace Malloc
open Bytes
open Libc (toInt toInt_eq toInt_neg)

def maxHeap : Nat := 20 * 2 ^ 20

structure Storage where
  addr : Nat
  maxAddr : Nat
  max : maxAddr = addr + maxHeap
  nonnull : 0 < addr
  aligned : addr % 16 = 0
  fits : addr + maxHeap < 2 ^ 64

structure Heap where
  storage : Storage
  mem : Nat → Byte
  memBrk : Nat
  heapListp : Nat
  hdFree : Nat
  ftFree : Nat

namespace Heap

def memStartBrk (h : Heap) : Nat := h.storage.addr

def memMaxAddr (h : Heap) : Nat := h.storage.maxAddr

def memResetBrk (h : Heap) : Heap := { h with memBrk := h.memStartBrk }

def memHeapsize (h : Heap) : Nat := h.memBrk - h.memStartBrk

def get (h : Heap) (p : Nat) : Nat := readLE h.mem p 4

def put (h : Heap) (p val : Nat) : Heap := { h with mem := writeLE h.mem p 4 val }

def memcpy (h : Heap) (dst src n : Nat) : Heap := { h with mem := copy h.mem dst src n }

end Heap

def sizeT (n : Nat) : Nat := n % 2 ^ 64

def subSizeT (a b : Nat) : Nat := (a + 2 ^ 64 - b) % 2 ^ 64

def addUInt (a b : Nat) : Nat := (a + b) % 2 ^ 32

-- (void *)-1
def sbrkFailed : Nat := 2 ^ 64 - 1

def memSbrk (incr : Int) (h : Heap) : Nat × Heap :=
  if incr < 0 ∨ h.memBrk + incr.toNat > h.memMaxAddr then (sbrkFailed,h)
  else (h.memBrk,{ h with memBrk := h.memBrk + incr.toNat })

def wsize : Nat := 4
def dsize : Nat := 8
def chunksize : Nat := 1 <<< 12

def pack (size alloc : Nat) : Nat := size ||| alloc

def getSize (h : Heap) (p : Nat) : Nat := h.get p &&& 0xfffffff8
def getAlloc (h : Heap) (p : Nat) : Nat := h.get p &&& 1

def hdrp (bp : Nat) : Nat := bp - wsize
def ftrp (h : Heap) (bp : Nat) : Nat := bp + getSize h (hdrp bp) - dsize

def nextBlkp (h : Heap) (bp : Nat) : Nat := bp + getSize h (bp - wsize)
def prevBlkp (h : Heap) (bp : Nat) : Nat := bp - getSize h (bp - dsize)

def selfIndex (h : Heap) (bp : Nat) : Nat := subSizeT bp h.heapListp
def selfAddr (h : Heap) (index : Nat) : Nat := index + h.heapListp

def prevFree (bp : Nat) : Nat := bp
def nextFree (bp : Nat) : Nat := bp + wsize

def prevFreeIndex (h : Heap) (bp : Nat) : Nat := h.get (prevFree bp)
def nextFreeIndex (h : Heap) (bp : Nat) : Nat := h.get (nextFree bp)

section Words

variable (h : Heap) (p q v n : Nat)

@[simp] theorem put_storage : (h.put p v).storage = h.storage := rfl
@[simp] theorem put_memBrk : (h.put p v).memBrk = h.memBrk := rfl
@[simp] theorem put_heapListp : (h.put p v).heapListp = h.heapListp := rfl
@[simp] theorem put_hdFree : (h.put p v).hdFree = h.hdFree := rfl
@[simp] theorem put_ftFree : (h.put p v).ftFree = h.ftFree := rfl
@[simp] theorem memcpy_storage : (h.memcpy p q n).storage = h.storage := rfl
@[simp] theorem memcpy_memBrk : (h.memcpy p q n).memBrk = h.memBrk := rfl
@[simp] theorem memcpy_heapListp : (h.memcpy p q n).heapListp = h.heapListp := rfl
@[simp] theorem memcpy_hdFree : (h.memcpy p q n).hdFree = h.hdFree := rfl
@[simp] theorem memcpy_ftFree : (h.memcpy p q n).ftFree = h.ftFree := rfl

theorem get_put_same : (h.put p v).get p = v % 2 ^ 32 := readLE_writeLE_same h.mem p 4 v

variable {h p q v n}

theorem get_put_apart (hpq : q + 4 ≤ p ∨ p + 4 ≤ q) : (h.put p v).get q = h.get q :=
  readLE_writeLE_disjoint hpq

theorem put_mem_apart {x : Nat} (hx : x < p ∨ p + 4 ≤ x) : (h.put p v).mem x = h.mem x :=
  writeLE_outside hx

theorem get_lt : h.get p < 2 ^ 32 := readLE_lt h.mem p 4

theorem get_congr {h h' : Heap} (hm : ∀ x, p ≤ x → x < p + 4 → h'.mem x = h.mem x) :
    h'.get p = h.get p :=
  readLE_congr fun i hi => hm (p + i) (by omega) (by omega)

end Words

theorem and_tagMask {n : Nat} (hn : n < 2 ^ 32) : n &&& 0xfffffff8 = n / 8 * 8 := by
  have hm : (0xfffffff8 : Nat) = (2 ^ 29 - 1) <<< 3 := rfl
  apply Nat.eq_of_testBit_eq
  intro i
  rw [hm,show n / 8 * 8 = (n >>> 3) <<< 3 by rw [Nat.shiftRight_eq_div_pow,Nat.shiftLeft_eq],
    Nat.testBit_and,Nat.testBit_shiftLeft,Nat.testBit_shiftLeft,Nat.testBit_shiftRight,
    Nat.testBit_two_pow_sub_one]
  by_cases h3 : 3 ≤ i
  · by_cases h32 : i < 32
    · simp [h3,show i - 3 < 29 by omega,show 3 + (i - 3) = i by omega]
    · have : n.testBit i = false :=
        Nat.testBit_lt_two_pow (hn.trans_le (Nat.pow_le_pow_right (by omega) (by omega)))
      simp [this,show 3 + (i - 3) = i by omega]
  · simp [h3]

theorem getSize_eq (h : Heap) (p : Nat) : getSize h p = h.get p / 8 * 8 := and_tagMask get_lt

theorem getAlloc_eq (h : Heap) (p : Nat) : getAlloc h p = h.get p % 2 := Nat.and_one_is_mod _

theorem pack_zero (size : Nat) : pack size 0 = size := Nat.or_zero _

theorem pack_one {size : Nat} (hs : size % 8 = 0) : pack size 1 = size + 1 := by
  obtain ⟨k,rfl⟩ : ∃ k, size = k <<< 3 := ⟨size / 8,by rw [Nat.shiftLeft_eq]; omega⟩
  exact (Nat.shiftLeft_add_eq_or_of_lt (by omega) k).symm

theorem sizeT_eq {n : Nat} (hn : n < 2 ^ 64) : sizeT n = n := Nat.mod_eq_of_lt hn

theorem subSizeT_eq {a b : Nat} (hb : b ≤ a) (ha : a < 2 ^ 64) : subSizeT a b = a - b := by
  rw [subSizeT]
  omega

theorem memSbrk_ok {h : Heap} {n : Nat} (hn : n < 2 ^ 31) (hfit : h.memBrk + n ≤ h.memMaxAddr) :
    memSbrk (toInt n) h = (h.memBrk,{ h with memBrk := h.memBrk + n }) := by
  rw [memSbrk,toInt_eq hn,if_neg (by omega)]
  rfl

theorem memSbrk_fail {h : Heap} {n : Nat} (hn : n < 2 ^ 32)
    (hfit : 2 ^ 31 ≤ n ∨ h.memMaxAddr < h.memBrk + n) : memSbrk (toInt n) h = (sbrkFailed,h) := by
  rw [memSbrk,if_pos]
  by_cases hs : n < 2 ^ 31
  · rw [toInt_eq hs]
    omega
  · exact Or.inl (toInt_neg (by omega) hn)

end Malloc
