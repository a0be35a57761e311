import IcsLabs.Asm.Image

namespace Asm
open Bytes

-- an item with bytes of its own: vmaddr when it was read and what it left in the line's record
structure Placed where
  addr : Word
  bin : Bin
  ref : Option Text

def Placed.Covers (p : Placed) (x : Nat) : Prop :=
  p.addr.toNat ≤ x ∧ x < p.addr.toNat + p.bin.bytes

-- the record once the item's own reference is resolved
def Placed.final (symtab : List Symbol) (p : Placed) : Bin :=
  p.ref.elim p.bin fun name => p.bin.relocate (addrOf symtab name)

def Piece.placed (d : Draft) (p : Piece) : List Placed :=
  match p with
  | .label _ => []
  | .item inst arg => if inst.bytes = 0 then [] else [⟨d.vmaddr,(d.add p).line.y64bin,arg.ref⟩]

def placed (d : Draft) : List Piece → List Placed
  | [] => []
  | p :: ps => p.placed d ++ placed (d.add p) ps

-- the items of a source, in the order they are read
def placedLines (v : Word) : List (Text × List Piece) → List Placed
  | [] => []
  | (t,ps) :: src => placed (Draft.blank v t) ps ++ placedLines ((Draft.blank v t).addAll ps).vmaddr src

-- every item has its bytes at its place, except where a later item lies
def Kept (symtab : List Symbol) (items : List Placed) (out : File) : Prop :=
  ∀ pre p post, items = pre ++ p :: post → ∀ i < p.bin.bytes,
    (∃ q ∈ post, q.Covers (p.addr.toNat + i)) ∨ out (p.addr.toNat + i) = some ((p.final symtab).codes i)

-- nothing stands on a line after an item with bytes of its own
def tidy : List Piece → Bool
  | [] => true
  | .label _ :: ps => tidy ps
  | .item inst _ :: ps => if inst.bytes = 0 then tidy ps else ps.isEmpty

section Writes

variable {symtab : List Symbol} {k : Nat} {v : Word} {d : Draft} {ps : List Piece} {inst : Instr}
  {arg : Arg} {t : Text} {b : Bin} {bs : List Bin} {out out' : File} {x : Nat} {l : Line}
  {lines : List Line} {src : List (Text × List Piece)}

theorem fwrite_outside (h : x < b.addr.toNat ∨ b.addr.toNat + b.bytes ≤ x) : fwrite b out x = out x := by
  simp only [fwrite]
  rw [if_neg (by omega)]

theorem fwrite_empty (h : b.bytes = 0) : fwrite b out = out := funext fun _ =>
  fwrite_outside (by omega)

theorem fwrites_outside (h : ∀ b ∈ bs, x < b.addr.toNat ∨ b.addr.toNat + b.bytes ≤ x) :
    (bs.foldl (fun o b => fwrite b o) out) x = out x := by
  induction bs generalizing out with
  | nil => rfl
  | cons b bs ih =>
    obtain ⟨hb,hbs⟩ := List.forall_mem_cons.mp h
    exact (ih hbs).trans (fwrite_outside hb)

def Line.bins (l : Line) : List Bin := if l.type ≠ .ins ∨ l.y64bin.bytes = 0 then [] else [l.y64bin]

theorem binfile_eq (h : binfile lines out = some out') :
    out' = (lines.flatMap Line.bins).foldl (fun o b => fwrite b o) out := by
  induction lines generalizing out with
  | nil => exact (Option.some.inj h).symm
  | cons l ls ih =>
    rw [List.flatMap_cons,List.foldl_append,Line.bins]
    rw [binfile] at h
    by_cases hl : l.type ≠ .ins
    · rw [if_pos hl] at h
      rw [if_pos (Or.inl hl)]
      exact ih h
    · rw [if_neg hl] at h
      obtain ⟨-,h⟩ | ⟨-,h⟩ := ite_eq_iff.mp h
      · cases h
      · by_cases hb : l.y64bin.bytes = 0
        · rw [if_pos (Or.inr hb)]
          rw [fwrite_empty hb] at h
          exact ih h
        · rw [if_neg (by simp [hb,not_not.mp hl])]
          exact ih h

theorem item_ref (hw : (Piece.item inst arg).WellFormed) (hb : inst.bytes = 0) :
    arg.ref = none := by
  have hlen := length_image hw 0
  cases arg with
  | none | reg a | regs a b | regMem a disp b | memReg disp b a | pos v | align v => rfl
  | immReg imm b | dest imm => simp [Arg.image,hb] at hlen
  | data imm =>
    obtain ⟨-,-,-,-,-,hz⟩ := bytes_eq hw.1
    have hz := hz hw.2.1
    rw [if_pos hw.2.2] at hz
    omega

theorem item_addr (hw : (Piece.item inst arg).WellFormed) (hb : inst.bytes ≠ 0) (v : Word) :
    arg.addr inst v = v := by
  have hlen := length_image hw 0
  cases arg with
  | none | reg a | regs a b | regMem a disp b | memReg disp b a | immReg imm b | dest imm
  | data imm => rfl
  | pos v | align v => exact absurd hlen.symm hb

theorem tidy_bins (h : tidy ps = true) (hw : ∀ p ∈ ps, p.WellFormed) (hb : d.line.y64bin.bytes = 0) :
    ((d.addAll ps).line.patchAll symtab (refs k ps).reverse).bins =
      (placed d ps).map (Placed.final symtab) ∧
      ∀ p ∈ placed d ps, p.bin.addr = p.addr := by
  induction ps generalizing d with
  | nil =>
    exact ⟨if_pos (Or.inr ((patchAll_bin _ _ _).2.trans hb)),by simp [placed]⟩
  | cons p ps ih =>
    obtain ⟨hp,hps⟩ := List.forall_mem_cons.mp hw
    cases p with
    | label name => exact @ih (d.add (.label name)) h hps hb
    | item inst arg =>
      rw [tidy] at h
      by_cases hz : inst.bytes = 0
      · rw [if_pos hz] at h
        have hr : refs k (.item inst arg :: ps) = refs k ps := by
          rw [refs,List.flatMap_cons,Piece.refs,Piece.ref,item_ref hp hz]
          rfl
        rw [hr,placed,Piece.placed,if_pos hz,List.nil_append]
        exact @ih (d.add (.item inst arg)) h hps hz
      · rw [if_neg hz] at h
        obtain rfl := List.isEmpty_iff.mp h
        rw [placed,Piece.placed,if_neg hz]
        refine ⟨?_,?_⟩
        · have hr : (refs k [.item inst arg]).reverse = arg.ref.toList.map fun name => ⟨name,k⟩ := by
            rw [refs,List.flatMap_singleton,refs_reverse]
            rfl
          have hne : ¬ (((d.addAll [.item inst arg]).line.patchAll symtab
              (refs k [.item inst arg]).reverse).type ≠ .ins ∨ ((d.addAll [.item inst arg]).line.patchAll
                symtab (refs k [.item inst arg]).reverse).y64bin.bytes = 0) := by
            rw [(patchAll_bin _ _ _).2]
            rintro (h | h)
            · exact h rfl
            · exact hz h
          rw [Line.bins,if_neg hne,hr]
          cases hn : arg.ref with
          | none => simp [placed,Placed.final,Line.patchAll,Draft.addAll]
          | some name => simp [placed,Placed.final,Line.patchAll,Draft.addAll,Bin.patch,addrOf]
        · simp only [placed,List.append_nil,List.mem_singleton,forall_eq]
          exact item_addr hp hz d.vmaddr

theorem finalLines_bins (h : ∀ q ∈ src, tidy q.2 = true ∧ ∀ p ∈ q.2, p.WellFormed) :
    (finalLines symtab k v src).flatMap Line.bins = (placedLines v src).map (Placed.final symtab) ∧
      ∀ p ∈ placedLines v src, p.bin.addr = p.addr := by
  induction src generalizing k v with
  | nil => exact ⟨rfl,by simp [placedLines]⟩
  | cons q src ih =>
    obtain ⟨t,ps⟩ := q
    obtain ⟨⟨ht,hw⟩,hs⟩ := List.forall_mem_cons.mp h
    obtain ⟨h1,h2⟩ := @tidy_bins symtab k (Draft.blank v t) _ ht hw rfl
    obtain ⟨h3,h4⟩ := @ih (k + 1) ((Draft.blank v t).addAll ps).vmaddr hs
    rw [finalLines,placedLines,List.flatMap_cons,List.map_append]
    exact ⟨congrArg₂ (· ++ ·) h1 h3,List.forall_mem_append.mpr ⟨h2,h4⟩⟩

theorem final_bin (symtab : List Symbol) (p : Placed) :
    (p.final symtab).addr = p.bin.addr ∧ (p.final symtab).bytes = p.bin.bytes := by
  rw [Placed.final]
  cases p.ref <;> exact ⟨rfl,rfl⟩

theorem kept_of_writes {items : List Placed} (h : ∀ p ∈ items, p.bin.addr = p.addr) :
    Kept symtab items ((items.map (Placed.final symtab)).foldl (fun o b => fwrite b o) out) := by
  intro pre p post hitems i hi
  by_cases hc : ∃ q ∈ post, q.Covers (p.addr.toNat + i)
  · exact Or.inl hc
  · right
    have hp : p.bin.addr = p.addr := h p (by simp [hitems])
    obtain ⟨ha,hb⟩ := final_bin symtab p
    rw [hitems,List.map_append,List.map_cons,List.foldl_append,List.foldl_cons,fwrites_outside]
    · simp only [fwrite,ha,hb,hp]
      rw [if_pos (by omega),Nat.add_sub_cancel_left]
    · intro b hbm
      obtain ⟨q,hq,rfl⟩ := List.mem_map.mp hbm
      obtain ⟨hqa,hqb⟩ := final_bin symtab q
      have hqp : q.bin.addr = q.addr := h q (by simp [hitems,hq])
      have hn : ¬ q.Covers (p.addr.toNat + i) := fun hcov => hc ⟨q,hq,hcov⟩
      rw [hqa,hqb,hqp]
      rw [Placed.Covers] at hn
      omega

theorem scanLines_mem {ts : List Text} {pss : List (List Piece)} (h : scanLines ts = some pss) :
    ∀ ps ∈ pss, ∀ p ∈ ps, p.WellFormed := by
  intro ps hps
  obtain ⟨k,hk⟩ := List.mem_iff_getElem?.mp hps
  obtain ⟨t,-,hs⟩ := scanLines_get h k hk
  exact scanLoop_wellFormed hs

end Writes

-- main: the tables and the file of a source for which nothing fails
def compile (file : Text) : Option (State × File) :=
  match assemble file with
  | .error _ => none
  | .ok st =>
    match relocate st with
    | .error _ => none
    | .ok lines => (binfile lines fun _ => none).map fun out => (st,out)

theorem items_kept {file : Text} {st : State} {out : File} (h : compile file = some (st,out)) :
    ∃ pss, scanLines (sourceLines file) = some pss ∧ ((∀ ps ∈ pss, tidy ps = true) →
      Kept st.symtab (placedLines 0 ((sourceLines file).zip pss)) out) := by
  rw [compile] at h
  split at h
  · cases h
  · rename_i st' ha
    split at h
    · cases h
    · rename_i lines hr
      obtain ⟨out',hb,he⟩ := Option.map_eq_some_iff.mp h
      obtain ⟨rfl,rfl⟩ := Prod.mk.inj he
      obtain ⟨pss,hs,hl⟩ := built_lines ha hr
      refine ⟨pss,hs,fun htidy => ?_⟩
      have hsrc : ∀ q ∈ (sourceLines file).zip pss, tidy q.2 = true ∧ ∀ p ∈ q.2, p.WellFormed := by
        intro q hq
        have hm := (List.of_mem_zip hq).2
        exact ⟨htidy q.2 hm,scanLines_mem hs q.2 hm⟩
      obtain ⟨h1,h2⟩ := @finalLines_bins st'.symtab 0 0 _ hsrc
      rw [binfile_eq hb,hl,h1]
      exact kept_of_writes h2

def jumpTable : Text := ".pos 8\ns: jmp e\n.quad s\ne: halt".toList

theorem items_kept_jump_table : ∃ st out, compile jumpTable = some (st,out) ∧
    ∃ pss, scanLines (sourceLines jumpTable) = some pss ∧
      Kept st.symtab (placedLines 0 ((sourceLines jumpTable).zip pss)) out := by
  have hs : (scanLines (sourceLines jumpTable)).map (fun pss => pss.all tidy) = some true := by
    decide +kernel
  have hc : (compile jumpTable).isSome = true := by decide +kernel
  obtain ⟨⟨st,out⟩,h⟩ := Option.isSome_iff_exists.mp hc
  obtain ⟨pss,hp,hk⟩ := items_kept h
  rw [hp] at hs
  exact ⟨st,out,h,pss,hp,hk (List.all_eq_true.mp (Option.some.inj hs))⟩

def twoNops : Text := "nop nop".toList

-- the second item takes the record of the line over: nothing is written at offset 0
theorem items_kept_two_nops : ∃ st out pss, compile twoNops = some (st,out) ∧
    scanLines (sourceLines twoNops) = some pss ∧
    ¬ Kept st.symtab (placedLines 0 ((sourceLines twoNops).zip pss)) out := by
  have hc : (compile twoNops).any (fun c => c.2 0 = none) = true := by decide +kernel
  obtain ⟨⟨st,out⟩,h,ho⟩ := (Option.any_eq_true _ _).mp hc
  have hs : scanLines (sourceLines twoNops) =
      some [[.item ⟨"nop".toList,3,0x10,1⟩ .none,.item ⟨"nop".toList,3,0x10,1⟩ .none]] := by
    decide +kernel
  refine ⟨st,out,_,h,hs,fun hk => ?_⟩
  obtain ⟨q,hq,hcov⟩ | ho' := hk [] _ [_] rfl 0 Nat.one_pos
  · obtain rfl := List.mem_singleton.mp hq
    exact absurd hcov.1 (by decide)
  · have ho : out 0 = none := of_decide_eq_true ho
    exact absurd (ho.symm.trans ho') (by simp)

end Asm
