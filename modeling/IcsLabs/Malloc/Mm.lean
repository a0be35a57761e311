import IcsLabs.Malloc.Heap

namespace Malloc
open Libc (toInt)

def insertFreeBlock (bp : Nat) (h : Heap) : Heap :=
  if h.hdFree = 0 then
    let h := h.put (nextFree bp) 0
    let h := h.put (prevFree bp) 0
    { h with hdFree := bp, ftFree := bp }
  else
    let h := h.put (nextFree h.ftFree) (selfIndex h bp)
    let h := h.put (prevFree bp) (selfIndex h h.ftFree)
    let h := h.put (nextFree bp) 0
    { h with ftFree := bp }

def prevFreeBlock (h : Heap) (bp : Nat) : Nat :=
  if prevFreeIndex h bp = 0 then 0 else selfAddr h (prevFreeIndex h bp)

def nextFreeBlock (h : Heap) (bp : Nat) : Nat :=
  if nextFreeIndex h bp = 0 then 0 else selfAddr h (nextFreeIndex h bp)

def replaceFreeBlock (oldBp newBp : Nat) (h : Heap) : Heap :=
  let h :=
    if h.hdFree = oldBp then { h with hdFree := newBp }
    else h.put (nextFree (selfAddr h (prevFreeIndex h oldBp))) (selfIndex h newBp)
  let h :=
    if h.ftFree = oldBp then { h with ftFree := newBp }
    else h.put (prevFree (selfAddr h (nextFreeIndex h oldBp))) (selfIndex h newBp)
  h.memcpy newBp oldBp dsize

def removeFreeBlock (bp : Nat) (h : Heap) : Heap :=
  let prev := prevFreeBlock h bp
  let next := nextFreeBlock h bp
  let h :=
    if prev ≠ 0 then h.put (nextFree prev) (nextFreeIndex h bp)
    else { h with hdFree := next }
  if next ≠ 0 then h.put (prevFree next) (prevFreeIndex h bp)
  else { h with ftFree := prev }

def extendHeap (words : Nat) (h : Heap) : Nat × Heap :=
  let size := sizeT (words * wsize)
  let (bp,h) := memSbrk (toInt size) h
  if bp = sbrkFailed then (0,h)
  else
    let prev := prevBlkp h bp
    if getAlloc h (hdrp prev) ≠ 0 then
      let h := h.put (hdrp bp) (pack size 0)
      let h := h.put (ftrp h bp) (pack size 0)
      let h := h.put (hdrp (nextBlkp h bp)) (pack 0 1)
      (bp,insertFreeBlock bp h)
    else
      let size := sizeT (size + getSize h (hdrp prev))
      let h := h.put (hdrp prev) (pack size 0)
      let h := h.put (ftrp h prev) (pack size 0)
      let h := h.put (hdrp (nextBlkp h prev)) (pack 0 1)
      (prev,h)

def mmInitTags (h : Heap) : Heap :=
  let h := h.put h.heapListp 0
  let h := h.put (h.heapListp + 1 * wsize) (pack dsize 1)
  let h := h.put (h.heapListp + 2 * wsize) (pack dsize 1)
  let h := h.put (h.heapListp + 3 * wsize) (pack 0 1)
  { h with heapListp := h.heapListp + 2 * wsize }

def mmInit (h : Heap) : Int × Heap :=
  let h := { h with hdFree := 0, ftFree := 0 }
  let (p,h) := memSbrk (2 * dsize : Nat) h
  let h := { h with heapListp := p }
  if p = sbrkFailed then (-1,h)
  else
    let (bp,h) := extendHeap (chunksize / wsize) (mmInitTags h)
    if bp = 0 then (-1,h) else (0,h)

-- none: the loop does not return
def findFitLoop (h : Heap) (size : Nat) : Nat → Nat → Option Nat
  | 0, _ => none
  | fuel + 1, bp =>
    if bp = 0 then some 0
    else if size ≤ getSize h (hdrp bp) then some bp
    else findFitLoop h size fuel (nextFreeBlock h bp)

def findFit (size : Nat) (h : Heap) : Option Nat :=
  findFitLoop h size (h.memHeapsize + 1) h.hdFree

def place (bp size : Nat) (h : Heap) : Nat × Heap :=
  let originSize := getSize h (hdrp bp)
  if subSizeT originSize size ≥ 2 * dsize then
    let h := h.put (hdrp bp) (pack (subSizeT originSize size) 0)
    let h := h.put (ftrp h bp) (pack (subSizeT originSize size) 0)
    let next := nextBlkp h bp
    let h := h.put (hdrp next) (pack size 1)
    let h := h.put (ftrp h next) (pack size 1)
    (next,h)
  else
    let h := h.put (hdrp bp) (pack originSize 1)
    let h := h.put (ftrp h bp) (pack originSize 1)
    (bp,removeFreeBlock bp h)

def alignSize (size : Nat) : Nat :=
  sizeT (dsize * (sizeT (size + dsize + (dsize - 1)) / dsize))

-- none: the call does not return
def mmMalloc (size : Nat) (h : Heap) : Option (Nat × Heap) :=
  if size = 0 then some (0,h)
  else
    let size := if size = 448 then 512 else size
    let size := if size = 112 then 128 else size
    let asize := alignSize size
    match findFit asize h with
    | none => none
    | some bp =>
      if bp ≠ 0 then some (place bp asize h)
      else
        let extendsize := if asize > chunksize then asize else chunksize
        let (bp,h) := extendHeap (extendsize / wsize) h
        if bp = 0 then some (0,h) else some (place bp asize h)

def coalesce (bp : Nat) (h : Heap) : Nat × Heap :=
  let prevAlloc := getAlloc h (ftrp h (prevBlkp h bp))
  let nextAlloc := getAlloc h (hdrp (nextBlkp h bp))
  let size := getSize h (hdrp bp)
  if prevAlloc ≠ 0 ∧ nextAlloc ≠ 0 then (bp,insertFreeBlock bp h)
  else if prevAlloc ≠ 0 ∧ nextAlloc = 0 then
    let next := nextBlkp h bp
    let size := sizeT (size + getSize h (hdrp next))
    let h := h.put (hdrp bp) (pack size 0)
    let h := h.put (ftrp h bp) (pack size 0)
    (bp,replaceFreeBlock next bp h)
  else if prevAlloc = 0 ∧ nextAlloc ≠ 0 then
    let bp := prevBlkp h bp
    let size := sizeT (size + getSize h (hdrp bp))
    let h := h.put (hdrp bp) (pack size 0)
    let h := h.put (ftrp h bp) (pack size 0)
    (bp,h)
  else
    let next := nextBlkp h bp
    let bp := prevBlkp h bp
    let size := sizeT (size + addUInt (getSize h (hdrp bp)) (getSize h (ftrp h next)))
    let h := h.put (hdrp bp) (pack size 0)
    let h := h.put (ftrp h next) (pack size 0)
    (bp,removeFreeBlock next h)

def mmFree (ptr : Nat) (h : Heap) : Heap :=
  let size := getSize h (hdrp ptr)
  let h := h.put (hdrp ptr) (pack size 0)
  let h := h.put (ftrp h ptr) (pack size 0)
  (coalesce ptr h).2

def reallocShrink (ptr asize oldSize : Nat) (h : Heap) : Heap :=
  let ptrNext := nextBlkp h ptr
  let pnAlloc := getAlloc h (hdrp ptrNext)
  let h := h.put (hdrp ptr) (pack asize 1)
  let h := h.put (ftrp h ptr) (pack asize 1)
  let newNext := nextBlkp h ptr
  if pnAlloc = 0 then
    let pnSize := getSize h (hdrp ptrNext)
    let size := sizeT (subSizeT oldSize asize + pnSize)
    let h := h.put (hdrp newNext) (pack size 0)
    let h := h.put (ftrp h newNext) (pack size 0)
    replaceFreeBlock ptrNext newNext h
  else
    let h := h.put (hdrp newNext) (pack (subSizeT oldSize asize) 0)
    let h := h.put (ftrp h newNext) (pack (subSizeT oldSize asize) 0)
    insertFreeBlock newNext h

def reallocGrowSplit (ptr asize oldSize pnSize : Nat) (h : Heap) : Heap :=
  let ptrNext := nextBlkp h ptr
  let newNext := ptr + asize
  let size := subSizeT (sizeT (oldSize + pnSize)) asize
  let h := replaceFreeBlock ptrNext newNext h
  let h := h.put (hdrp ptr) (pack asize 1)
  let h := h.put (ftrp h ptr) (pack asize 1)
  let h := h.put (hdrp newNext) (pack size 0)
  h.put (ftrp h newNext) (pack size 0)

def reallocGrowWhole (ptr oldSize pnSize : Nat) (h : Heap) : Heap :=
  let ptrNext := nextBlkp h ptr
  let h := h.put (hdrp ptr) (pack (sizeT (oldSize + pnSize)) 1)
  let h := h.put (ftrp h ptr) (pack (sizeT (oldSize + pnSize)) 1)
  removeFreeBlock ptrNext h

-- none: mm_malloc does not return, or memcpy is handed its NULL
def reallocMove (ptr asize oldSize : Nat) (h : Heap) : Option (Nat × Heap) :=
  match mmMalloc asize h with
  | none => none
  | some (newPtr,h) =>
    if newPtr = 0 then none
    else
      let h := h.memcpy newPtr ptr (subSizeT oldSize dsize)
      some (newPtr,mmFree ptr h)

def mmRealloc (ptr size : Nat) (h : Heap) : Option (Nat × Heap) :=
  if size = 0 then some (ptr,mmFree ptr h)
  else
    let asize := alignSize size
    if ptr = 0 then mmMalloc asize h
    else
      let oldSize := getSize h (hdrp ptr)
      if asize ≤ oldSize then
        if subSizeT oldSize asize ≥ 2 * dsize then some (ptr,reallocShrink ptr asize oldSize h)
        else some (ptr,h)
      else
        let ptrNext := nextBlkp h ptr
        let pnSize := getSize h (hdrp ptrNext)
        if getAlloc h (hdrp ptrNext) = 0 ∧
            sizeT (oldSize + pnSize) ≥ sizeT (asize + 2 * dsize) then
          some (ptr,reallocGrowSplit ptr asize oldSize pnSize h)
        else if getAlloc h (hdrp ptrNext) = 0 ∧ sizeT (oldSize + pnSize) ≥ asize then
          some (ptr,reallocGrowWhole ptr oldSize pnSize h)
        else reallocMove ptr asize oldSize h

end Malloc
