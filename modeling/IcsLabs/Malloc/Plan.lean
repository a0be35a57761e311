import IcsLabs.Malloc.Layout

namespace Malloc

-- the allocator as it is meant: a list of blocks in address order and the free list in its order
structure Plan where
  blocks : List Blk
  free : List Nat

-- q takes the place of p on the free list
def relink (p q : Nat) (fl : List Nat) : List Nat := fl.map fun x => if x = p then q else x

def freeBlk (o : Option Blk) : Option Blk := o.filter fun b => !b.alloc

namespace Plan

variable (pre post : List Blk) (fl : List Nat)

-- b, not yet on the free list, joined with the free blocks around it
def merge (b : Blk) : Plan :=
  match freeBlk pre.getLast?,freeBlk post.head? with
  | none,none => ⟨pre ++ b :: post,fl ++ [b.addr]⟩
  | none,some n => ⟨pre ++ ⟨b.addr,b.size + n.size,false⟩ :: post.tail,relink n.addr b.addr fl⟩
  | some q,none => ⟨pre.dropLast ++ ⟨q.addr,b.size + q.size,false⟩ :: post,fl⟩
  | some q,some n =>
    ⟨pre.dropLast ++ ⟨q.addr,b.size + (q.size + n.size),false⟩ :: post.tail,fl.erase n.addr⟩

-- size bytes taken from the end of the free block ⟨p,o,false⟩, or all of it
def place (p o size : Nat) : Nat × Plan :=
  if size + 16 ≤ o then
    (p + (o - size),⟨pre ++ ⟨p,o - size,false⟩ :: ⟨p + (o - size),size,true⟩ :: post,fl⟩)
  else (p,⟨pre ++ ⟨p,o,true⟩ :: post,fl.erase p⟩)

-- the block ⟨p,s,true⟩ cut down to a bytes
def shrink (p s a : Nat) : Plan :=
  match freeBlk post.head? with
  | none => ⟨pre ++ ⟨p,a,true⟩ :: ⟨p + a,s - a,false⟩ :: post,fl ++ [p + a]⟩
  | some n =>
    ⟨pre ++ ⟨p,a,true⟩ :: ⟨p + a,s - a + n.size,false⟩ :: post.tail,relink n.addr (p + a) fl⟩

-- the block ⟨p,s,true⟩ grown to a bytes, or to all of the free block n after it
def grow (p s a : Nat) (n : Blk) : Plan :=
  if a + 16 ≤ s + n.size then
    ⟨pre ++ ⟨p,a,true⟩ :: ⟨p + a,s + n.size - a,false⟩ :: post,relink n.addr (p + a) fl⟩
  else ⟨pre ++ ⟨p,s + n.size,true⟩ :: post,fl.erase n.addr⟩

variable (A : Plan)

def sizeAt (p : Nat) : Nat := ((A.blocks.find? (·.addr = p)).map Blk.size).getD 0

def before (p : Nat) : List Blk := A.blocks.takeWhile (·.addr ≠ p)

def after (p : Nat) : List Blk := (A.blocks.dropWhile (·.addr ≠ p)).tail

def last : Blk := A.blocks.getLast?.getD ⟨0,0,true⟩

def brk : Nat := A.last.addr + A.last.size

def extend (k : Nat) : Plan :=
  if A.last.alloc then ⟨A.blocks ++ [⟨A.brk,k,false⟩],A.free ++ [A.brk]⟩
  else ⟨A.blocks.dropLast ++ [⟨A.last.addr,k + A.last.size,false⟩],A.free⟩

-- the plan mm_init leaves: the prologue block and one free block
def fresh : Plan := extend ⟨[⟨8,8,true⟩],[]⟩ chunksize

def placeAt (p size : Nat) : Nat × Plan :=
  place (A.before p) (A.after p) A.free p (A.sizeAt p) size

def padded (size : Nat) : Nat :=
  let size := if size = 448 then 512 else size
  let size := if size = 112 then 128 else size
  alignSize size

-- none: the heap cannot grow by what is missing
def malloc (top size : Nat) : Option (Nat × Plan) :=
  match A.free.find? fun p => padded size ≤ A.sizeAt p with
  | some p => some (A.placeAt p (padded size))
  | none =>
    if max (padded size) chunksize < 2 ^ 31 ∧ A.brk + max (padded size) chunksize ≤ top then
      some ((A.extend (max (padded size) chunksize)).placeAt
        (A.extend (max (padded size) chunksize)).last.addr (padded size))
    else none

def release (p : Nat) : Plan := merge (A.before p) (A.after p) A.free ⟨p,A.sizeAt p,false⟩

-- none: the block has to move and the heap cannot grow by what is missing
def realloc (top p size : Nat) : Option (Nat × Plan) :=
  if alignSize size ≤ A.sizeAt p then
    if alignSize size + 16 ≤ A.sizeAt p then
      some (p,shrink (A.before p) (A.after p) A.free p (A.sizeAt p) (alignSize size))
    else some (p,A)
  else
    match freeBlk (A.after p).head? with
    | some n =>
      if alignSize size ≤ A.sizeAt p + n.size then
        some (p,grow (A.before p) (A.after p).tail A.free p (A.sizeAt p) (alignSize size) n)
      else (A.malloc top (alignSize size)).map fun (q,B) => (q,B.release p)
    | none => (A.malloc top (alignSize size)).map fun (q,B) => (q,B.release p)

end Plan

-- the same plan in a heap that starts d bytes higher
def Blk.up (d : Nat) (b : Blk) : Blk := { b with addr := d + b.addr }

def Plan.up (d : Nat) (A : Plan) : Plan := ⟨A.blocks.map (Blk.up d),A.free.map (d + ·)⟩

section Up

variable {d p q : Nat} {fl : List Nat} {pre post : List Blk} {A : Plan}

theorem freeBlk_up (o : Option Blk) : freeBlk (o.map (Blk.up d)) = (freeBlk o).map (Blk.up d) := by
  rw [freeBlk,freeBlk,Option.filter_map]
  rfl

theorem erase_up : (fl.map (d + ·)).erase (d + p) = (fl.erase p).map (d + ·) :=
  (List.map_erase (fun _ _ => Nat.add_left_cancel) fl).symm

theorem relink_up : relink (d + p) (d + q) (fl.map (d + ·)) = (relink p q fl).map (d + ·) := by
  rw [relink,relink,List.map_map,List.map_map]
  refine List.map_congr_left fun x _ => ?_
  simp only [Function.comp_apply,Nat.add_left_cancel_iff]
  split <;> rfl

namespace Plan

theorem merge_up (b : Blk) :
    merge (pre.map (Blk.up d)) (post.map (Blk.up d)) (fl.map (d + ·)) (b.up d) =
      (merge pre post fl b).up d := by
  simp only [merge,List.getLast?_map,List.head?_map,freeBlk_up]
  rcases freeBlk pre.getLast? with _ | q <;> rcases freeBlk post.head? with _ | n <;>
    simp [up,Blk.up,erase_up,relink_up,List.map_dropLast]

theorem place_up (o size : Nat) :
    place (pre.map (Blk.up d)) (post.map (Blk.up d)) (fl.map (d + ·)) (d + p) o size =
      (d + (place pre post fl p o size).1,(place pre post fl p o size).2.up d) := by
  simp only [place]
  split <;> simp [up,Blk.up,erase_up,Nat.add_assoc]

theorem shrink_up (s a : Nat) :
    shrink (pre.map (Blk.up d)) (post.map (Blk.up d)) (fl.map (d + ·)) (d + p) s a =
      (shrink pre post fl p s a).up d := by
  simp only [shrink,List.head?_map,freeBlk_up]
  rcases freeBlk post.head? with _ | n <;>
    simp [up,Blk.up,relink_up,Nat.add_assoc]

theorem grow_up (s a : Nat) (n : Blk) :
    grow (pre.map (Blk.up d)) (post.map (Blk.up d)) (fl.map (d + ·)) (d + p) s a (n.up d) =
      (grow pre post fl p s a n).up d := by
  have hs : (n.up d).size = n.size := rfl
  have hn : (n.up d).addr = d + n.addr := rfl
  simp only [grow,hs,hn]
  split <;> simp [up,Blk.up,erase_up,relink_up,Nat.add_assoc]

theorem sizeAt_up (A : Plan) (p : Nat) : (A.up d).sizeAt (d + p) = A.sizeAt p := by
  simp only [sizeAt,up,List.find?_map,Option.map_map,Function.comp_def,Blk.up,
    Nat.add_left_cancel_iff]

theorem before_up (A : Plan) (p : Nat) : (A.up d).before (d + p) = (A.before p).map (Blk.up d) := by
  simp only [before,up,List.takeWhile_map,Function.comp_def,Blk.up,ne_eq,Nat.add_left_cancel_iff]

theorem after_up (A : Plan) (p : Nat) : (A.up d).after (d + p) = (A.after p).map (Blk.up d) := by
  simp only [after,up,List.dropWhile_map,Function.comp_def,Blk.up,ne_eq,Nat.add_left_cancel_iff,
    List.map_tail]

theorem placeAt_up (A : Plan) (p size : Nat) :
    (A.up d).placeAt (d + p) size = (d + (A.placeAt p size).1,(A.placeAt p size).2.up d) := by
  rw [placeAt,before_up,after_up,sizeAt_up]
  exact place_up (A.sizeAt p) size

theorem release_up (A : Plan) (p : Nat) : (A.up d).release (d + p) = (A.release p).up d := by
  rw [release,before_up,after_up,sizeAt_up]
  exact merge_up ⟨p,A.sizeAt p,false⟩

theorem last_up (hA : A.blocks ≠ []) : (A.up d).last = A.last.up d := by
  rw [last,last,up,List.getLast?_map,List.getLast?_eq_some_getLast hA]
  rfl

theorem brk_up (hA : A.blocks ≠ []) : (A.up d).brk = d + A.brk := by
  rw [brk,last_up hA,brk,Blk.up,Nat.add_assoc]

theorem extend_up (hA : A.blocks ≠ []) (k : Nat) : (A.up d).extend k = (A.extend k).up d := by
  simp only [extend,last_up hA,brk_up hA]
  by_cases ha : A.last.alloc <;> simp [ha,up,Blk.up,List.map_dropLast]

theorem extend_ne_nil (A : Plan) (k : Nat) : (A.extend k).blocks ≠ [] := by
  rw [extend]
  split <;> simp

theorem malloc_up (hA : A.blocks ≠ []) (top size : Nat) : (A.up d).malloc (d + top) size =
    (A.malloc top size).map fun (p,B) => (d + p,B.up d) := by
  have hfind : (A.up d).free.find? (fun p => decide (padded size ≤ (A.up d).sizeAt p)) =
      (A.free.find? fun p => decide (padded size ≤ A.sizeAt p)).map (d + ·) := by
    simp only [up,List.find?_map,Function.comp_def]
    simp only [← sizeAt_up (d := d) A]
    rfl
  simp only [malloc,hfind,brk_up hA,extend_up hA,last_up (extend_ne_nil A _),Nat.add_assoc,
    Nat.add_le_add_iff_left]
  cases A.free.find? fun p => decide (padded size ≤ A.sizeAt p) with
  | some p => simp [placeAt_up]
  | none =>
    simp only [Option.map_none]
    split
    · simp only [Blk.up,placeAt_up,Option.map_some]
    · rfl

theorem realloc_up (hA : A.blocks ≠ []) (top p size : Nat) : (A.up d).realloc (d + top) (d + p) size =
    (A.realloc top p size).map fun (q,B) => (d + q,B.up d) := by
  have hmove : ((A.up d).malloc (d + top) (alignSize size)).map (fun (q,B) => (q,B.release (d + p))) =
      ((A.malloc top (alignSize size)).map fun (q,B) => (q,B.release p)).map
        fun (q,B) => (d + q,B.up d) := by
    rw [malloc_up hA,Option.map_map,Option.map_map]
    congr 1
    funext ⟨q,B⟩
    simp [release_up]
  simp only [realloc,sizeAt_up,before_up,after_up,List.head?_map,freeBlk_up,hmove]
  split
  · split
    · simp only [Option.map_some,← shrink_up]
      rfl
    · rfl
  · cases freeBlk (A.after p).head? with
    | none => rfl
    | some n =>
      have hs : (n.up d).size = n.size := rfl
      simp only [Option.map_some,hs]
      split
      · simp only [Option.map_some,← grow_up,List.map_tail]
        rfl
      · rfl

end Plan

end Up

end Malloc
