import IcsLabs.Lib.Traced
import IcsLabs.Malloc.Mm

namespace Malloc

-- a call of replace_free_block and the heap it finds
structure Relocation where
  old : Nat
  new : Nat
  heap : Heap

-- the functions on the way to replace_free_block, with the calls of it that they make
namespace Logged

def replaceFreeBlock (oldBp newBp : Nat) (h : Heap) : Traced Relocation Heap :=
  ⟨Malloc.replaceFreeBlock oldBp newBp h,[⟨oldBp,newBp,h⟩]⟩

def coalesce (bp : Nat) (h : Heap) : Traced Relocation (Nat × Heap) :=
  let prevAlloc := getAlloc h (ftrp h (prevBlkp h bp))
  let nextAlloc := getAlloc h (hdrp (nextBlkp h bp))
  let size := getSize h (hdrp bp)
  if prevAlloc ≠ 0 ∧ nextAlloc ≠ 0 then return (bp,insertFreeBlock bp h)
  else if prevAlloc ≠ 0 ∧ nextAlloc = 0 then do
    let next := nextBlkp h bp
    let size := sizeT (size + getSize h (hdrp next))
    let h := h.put (hdrp bp) (pack size 0)
    let h := h.put (ftrp h bp) (pack size 0)
    return (bp,← replaceFreeBlock next bp h)
  else if prevAlloc = 0 ∧ nextAlloc ≠ 0 then
    let bp := prevBlkp h bp
    let size := sizeT (size + getSize h (hdrp bp))
    let h := h.put (hdrp bp) (pack size 0)
    let h := h.put (ftrp h bp) (pack size 0)
    return (bp,h)
  else
    let next := nextBlkp h bp
    let bp := prevBlkp h bp
    let size := sizeT (size + addUInt (getSize h (hdrp bp)) (getSize h (ftrp h next)))
    let h := h.put (hdrp bp) (pack size 0)
    let h := h.put (ftrp h next) (pack size 0)
    return (bp,removeFreeBlock next h)

def mmFree (ptr : Nat) (h : Heap) : Traced Relocation Heap := do
  let size := getSize h (hdrp ptr)
  let h := h.put (hdrp ptr) (pack size 0)
  let h := h.put (ftrp h ptr) (pack size 0)
  return (← coalesce ptr h).2

def reallocShrink (ptr asize oldSize : Nat) (h : Heap) : Traced Relocation Heap :=
  let ptrNext := nextBlkp h ptr
  let pnAlloc := getAlloc h (hdrp ptrNext)
  let h := h.put (hdrp ptr) (pack asize 1)
  let h := h.put (ftrp h ptr) (pack asize 1)
  let newNext := nextBlkp h ptr
  if pnAlloc = 0 then
    let pnSize := getSize h (hdrp ptrNext)
    let size := sizeT (subSizeT oldSize asize + pnSize)
    let h := h.put (hdrp newNext) (pack size 0)
    let h := h.put (ftrp h newNext) (pack size 0)
    replaceFreeBlock ptrNext newNext h
  else
    let h := h.put (hdrp newNext) (pack (subSizeT oldSize asize) 0)
    let h := h.put (ftrp h newNext) (pack (subSizeT oldSize asize) 0)
    return insertFreeBlock newNext h

def reallocGrowSplit (ptr asize oldSize pnSize : Nat) (h : Heap) : Traced Relocation Heap := do
  let ptrNext := nextBlkp h ptr
  let newNext := ptr + asize
  let size := subSizeT (sizeT (oldSize + pnSize)) asize
  let h ← replaceFreeBlock ptrNext newNext h
  let h := h.put (hdrp ptr) (pack asize 1)
  let h := h.put (ftrp h ptr) (pack asize 1)
  let h := h.put (hdrp newNext) (pack size 0)
  return h.put (ftrp h newNext) (pack size 0)

def reallocMove (ptr asize oldSize : Nat) (h : Heap) : Traced Relocation (Option (Nat × Heap)) :=
  match mmMalloc asize h with
  | none => return none
  | some (newPtr,h) => do
    if newPtr = 0 then return none
    else
      let h := h.memcpy newPtr ptr (subSizeT oldSize dsize)
      return some (newPtr,← mmFree ptr h)

def mmRealloc (ptr size : Nat) (h : Heap) : Traced Relocation (Option (Nat × Heap)) := do
  if size = 0 then return some (ptr,← mmFree ptr h)
  else
    let asize := alignSize size
    if ptr = 0 then return mmMalloc asize h
    else
      let oldSize := getSize h (hdrp ptr)
      if asize ≤ oldSize then
        if subSizeT oldSize asize ≥ 2 * dsize then
          return some (ptr,← reallocShrink ptr asize oldSize h)
        else return some (ptr,h)
      else
        let ptrNext := nextBlkp h ptr
        let pnSize := getSize h (hdrp ptrNext)
        if getAlloc h (hdrp ptrNext) = 0 ∧
            sizeT (oldSize + pnSize) ≥ sizeT (asize + 2 * dsize) then
          return some (ptr,← reallocGrowSplit ptr asize oldSize pnSize h)
        else if getAlloc h (hdrp ptrNext) = 0 ∧ sizeT (oldSize + pnSize) ≥ asize then
          return some (ptr,reallocGrowWhole ptr oldSize pnSize h)
        else reallocMove ptr asize oldSize h

theorem coalesce_val (bp : Nat) (h : Heap) : (coalesce bp h).val = Malloc.coalesce bp h := by
  simp only [coalesce,Malloc.coalesce]
  split_ifs <;> rfl

theorem mmFree_val (ptr : Nat) (h : Heap) : (mmFree ptr h).val = Malloc.mmFree ptr h := by
  simp only [mmFree,Malloc.mmFree,← coalesce_val]
  rfl

theorem reallocShrink_val (ptr asize oldSize : Nat) (h : Heap) :
    (reallocShrink ptr asize oldSize h).val = Malloc.reallocShrink ptr asize oldSize h := by
  simp only [reallocShrink,Malloc.reallocShrink]
  split_ifs <;> rfl

theorem reallocMove_val (ptr asize oldSize : Nat) (h : Heap) :
    (reallocMove ptr asize oldSize h).val = Malloc.reallocMove ptr asize oldSize h := by
  simp only [reallocMove,Malloc.reallocMove]
  cases mmMalloc asize h with
  | none => rfl
  | some r =>
    simp only [← mmFree_val]
    split_ifs <;> rfl

theorem mmRealloc_val (ptr size : Nat) (h : Heap) :
    (mmRealloc ptr size h).val = Malloc.mmRealloc ptr size h := by
  simp only [mmRealloc,Malloc.mmRealloc,← mmFree_val,← reallocShrink_val,← reallocMove_val]
  split_ifs <;> rfl

end Logged

end Malloc
