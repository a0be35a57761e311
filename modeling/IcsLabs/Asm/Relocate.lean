import IcsLabs.Asm.Layout
import IcsLabs.Lib.Code
import Mathlib.Data.List.Nodup

namespace Asm
open Bytes

def resolve (symtab : List Symbol) (name : Text) : Option Word :=
  (findSymbol name symtab).map Symbol.addr

def Bin.patch (symtab : List Symbol) (b : Bin) (r : Reloc) : Bin :=
  b.relocate ((resolve symtab r.name).getD 0)

def Line.patchAll (symtab : List Symbol) (rs : List Reloc) (l : Line) : Line :=
  { l with y64bin := rs.foldl (Bin.patch symtab) l.y64bin }

section Loop

variable {symtab : List Symbol} {rs : List Reloc} {lines lines' : List Line} {j k : Nat} {name : Text}

theorem resolve_eq_none : resolve symtab name = none ↔ name ∉ names symtab := by
  rw [resolve,Option.map_eq_none_iff,findSymbol_eq_none]

theorem patchAll_bin (symtab : List Symbol) (rs : List Reloc) (l : Line) :
    (l.patchAll symtab rs).y64bin.addr = l.y64bin.addr ∧
      (l.patchAll symtab rs).y64bin.bytes = l.y64bin.bytes := by
  rw [Line.patchAll]
  generalize l.y64bin = b
  induction rs generalizing b with
  | nil => exact ⟨rfl,rfl⟩
  | cons r rs ih => exact ih (b.patch symtab r)

theorem relocateLoop_cons (r : Reloc) : relocateLoop symtab (r :: rs) lines =
    match resolve symtab r.name with
    | none => .error (.err ("Unknown symbol:'" ++ String.ofList r.name ++ "'"))
    | some a => relocateLoop symtab rs
        (lines.modify r.y64bin fun l => { l with y64bin := l.y64bin.relocate a }) := by
  rw [relocateLoop,resolve]
  cases findSymbol r.name symtab <;> rfl

theorem relocateLoop_get (h : relocateLoop symtab rs lines = .ok lines') (k : Nat) :
    lines'[k]? = (lines[k]?).map (Line.patchAll symtab (rs.filter fun r => r.y64bin = k)) := by
  induction rs generalizing lines with
  | nil =>
    obtain rfl := Except.ok.inj h
    rw [show Line.patchAll symtab ([].filter fun r : Reloc => r.y64bin = k) = id from rfl,Option.map_id]
    rfl
  | cons r rs ih =>
    rw [relocateLoop_cons] at h
    cases ha : resolve symtab r.name with
    | none =>
      rw [ha] at h
      cases h
    | some a =>
      rw [ha] at h
      rw [ih h,List.getElem?_modify]
      by_cases hk : r.y64bin = k
      · rw [List.filter_cons_of_pos (by simpa using hk)]
        simp only [if_pos hk]
        cases lines[k]? with
        | none => rfl
        | some l => simp [Line.patchAll,Bin.patch,ha]
      · rw [List.filter_cons_of_neg (by simpa using hk)]
        simp only [if_neg hk]
        cases lines[k]? <;> rfl

theorem relocateLoop_cases (symtab : List Symbol) (rs : List Reloc) (lines : List Line) :
    ((∃ r ∈ rs, r.name ∉ names symtab) ∧
        ∃ text, relocateLoop symtab rs lines = .error (.err text)) ∨
      (∀ r ∈ rs, r.name ∈ names symtab) ∧ ∃ lines', relocateLoop symtab rs lines = .ok lines' := by
  induction rs generalizing lines with
  | nil => exact Or.inr ⟨by simp,lines,rfl⟩
  | cons r rs ih =>
    rw [relocateLoop_cons]
    cases ha : resolve symtab r.name with
    | none => exact Or.inl ⟨⟨r,List.mem_cons_self,resolve_eq_none.mp ha⟩,_,rfl⟩
    | some a =>
      obtain ⟨⟨u,hu,hn⟩,he⟩ | ⟨hall,he⟩ :=
        ih (lines.modify r.y64bin fun l => { l with y64bin := l.y64bin.relocate a })
      · exact Or.inl ⟨⟨u,List.mem_cons_of_mem _ hu,hn⟩,he⟩
      · refine Or.inr ⟨List.forall_mem_cons.mpr ⟨?_,hall⟩,he⟩
        by_contra hn
        rw [resolve_eq_none.mpr hn] at ha
        cases ha

theorem mem_refs {r : Reloc} {ps : List Piece} :
    r ∈ refs k ps ↔ r.y64bin = k ∧ ∃ p ∈ ps, p.ref = some r.name := by
  simp only [refs,Piece.refs,List.mem_flatMap,List.mem_map,Option.mem_toList]
  constructor
  · rintro ⟨p,hp,name,hn,rfl⟩
    exact ⟨rfl,p,hp,hn⟩
  · rintro ⟨hk,p,hp,hn⟩
    exact ⟨p,hp,r.name,hn,by rw [← hk]⟩

theorem mem_refsFrom {r : Reloc} {pss : List (List Piece)} (h : r ∈ refsFrom j pss) :
    j ≤ r.y64bin ∧ ∃ p ∈ pss.flatten, p.ref = some r.name := by
  induction pss generalizing j with
  | nil => cases h
  | cons ps pss ih =>
    obtain h | h := List.mem_append.mp h
    · obtain ⟨hj,p,hp,hn⟩ := mem_refs.mp h
      exact ⟨Nat.le_of_eq hj.symm,p,by simp [hp],hn⟩
    · obtain ⟨hj,p,hp,hn⟩ := ih h
      exact ⟨Nat.le_of_succ_le hj,p,List.mem_append_right _ hp,hn⟩

theorem refsFrom_mem {p : Piece} {pss : List (List Piece)} (hp : p ∈ pss.flatten)
    (hn : p.ref = some name) : ∃ r ∈ refsFrom j pss, r.name = name := by
  induction pss generalizing j with
  | nil => simp at hp
  | cons ps pss ih =>
    obtain hp | hp := List.mem_append.mp (List.flatten_cons ▸ hp)
    · exact ⟨⟨name,j⟩,List.mem_append_left _ (mem_refs.mpr ⟨rfl,p,hp,hn⟩),rfl⟩
    · obtain ⟨r,hr,hrn⟩ := ih (j := j + 1) hp
      exact ⟨r,List.mem_append_right _ hr,hrn⟩

theorem filter_refs (ps : List Piece) :
    (refs j ps).filter (fun r => r.y64bin = k) = if j = k then refs k ps else [] := by
  split
  · rename_i h
    subst h
    exact List.filter_eq_self.mpr fun r hr => decide_eq_true (mem_refs.mp hr).1
  · rename_i h
    refine List.filter_eq_nil_iff.mpr fun r hr => ?_
    rw [(mem_refs.mp hr).1]
    simpa using h

theorem filter_refsFrom (pss : List (List Piece)) :
    (refsFrom j pss).filter (fun r => r.y64bin = j + k) = refs (j + k) (pss[k]?.getD []) := by
  induction pss generalizing j k with
  | nil => simp [refsFrom,refs]
  | cons ps pss ih =>
    rw [refsFrom,List.filter_append,filter_refs]
    cases k with
    | zero =>
      rw [List.filter_eq_nil_iff.mpr fun r hr => ?_]
      · simp
      · have := (mem_refsFrom hr).1
        simp only [decide_eq_true_eq]
        omega
    | succ k =>
      rw [if_neg (by omega),List.nil_append,show j + (k + 1) = j + 1 + k by omega,ih]
      simp

end Loop

-- a source that is assembled and relocated
structure Built (file : Text) (st : State) (lines : List Line) (pss : List (List Piece)) : Prop where
  scan : scanLines (sourceLines file) = some pss
  symtab : st.symtab = (defs 0 pss.flatten).reverse
  nodup : (labels pss.flatten).Nodup
  named : ∀ p ∈ pss.flatten, ∀ name, p.ref = some name → name ∈ labels pss.flatten
  lines : ∀ k t ps, (sourceLines file)[k]? = some t → pss[k]? = some ps → lines[k]? =
    some (((Draft.blank (counter 0 (pss.take k).flatten) t).addAll ps).line.patchAll st.symtab
      (refs k ps).reverse)

section Build

variable {file : Text} {st : State} {lines : List Line}

theorem assemble_ok (h : assemble file = .ok st) : ∃ pss, scanLines (sourceLines file) = some pss ∧
    (st.lines = draftLines 0 ((sourceLines file).zip pss) ∧
      st.symtab = (defs 0 pss.flatten).reverse ∧ st.reltab = (refsFrom 0 pss).reverse) ∧
    (labels pss.flatten).Nodup := by
  obtain ⟨pss,hs,ha⟩ := assembleLines_ok h
  have hz : ((sourceLines file).zip pss).map Prod.snd = pss :=
    List.map_snd_zip (Nat.le_of_eq (length_scanLines hs))
  have hf : ((sourceLines file).zip pss).flatMap Prod.snd = pss.flatten := by
    rw [List.flatMap_def,hz]
  have hsym : st.symtab = (defs 0 pss.flatten).reverse := by simpa [State.init,hf] using ha.symtab
  refine ⟨pss,hs,⟨by simpa [State.init] using ha.lines,hsym,by simpa [State.init,hz] using ha.reltab⟩,?_⟩
  have hn := ha.nodup List.nodup_nil
  rw [hsym,names,List.map_reverse,← names,names_defs] at hn
  exact List.nodup_reverse.mp hn

theorem mem_names_reverse {v : Word} {ps : List Piece} {name : Text} :
    name ∈ names (defs v ps).reverse ↔ name ∈ labels ps := by
  rw [names,List.map_reverse,List.mem_reverse,← names,names_defs]

theorem built (ha : assemble file = .ok st) (hr : relocate st = .ok lines) :
    ∃ pss, Built file st lines pss := by
  obtain ⟨pss,hs,⟨hl,hsym,hrel⟩,hn⟩ := assemble_ok ha
  refine ⟨pss,hs,hsym,hn,fun p hp name hname => ?_,fun k t ps ht hp => ?_⟩
  · obtain ⟨⟨_,_⟩,text,he⟩ | ⟨hall,_⟩ := relocateLoop_cases st.symtab st.reltab st.lines
    · rw [relocate,he] at hr
      cases hr
    · obtain ⟨r,hr,rfl⟩ := refsFrom_mem (j := 0) hp hname
      have := hall r (hrel ▸ List.mem_reverse.mpr hr)
      rwa [hsym,mem_names_reverse] at this
  · have hz : ((sourceLines file).zip pss)[k]? = some (t,ps) := by
      rw [List.getElem?_zip_eq_some]
      exact ⟨ht,hp⟩
    have htake : (((sourceLines file).zip pss).take k).flatMap Prod.snd = (pss.take k).flatten := by
      rw [List.flatMap_def,List.map_take,List.map_snd_zip (Nat.le_of_eq (length_scanLines hs))]
    have hf : st.reltab.filter (fun r => r.y64bin = k) = (refs k ps).reverse := by
      have := filter_refsFrom (j := 0) (k := k) pss
      rw [Nat.zero_add,hp] at this
      rw [hrel,List.filter_reverse,this]
      rfl
    rw [relocateLoop_get hr k,hl,draftLines_get hz,htake,hf]
    rfl

-- the lines after relocate
def finalLines (symtab : List Symbol) (k : Nat) (v : Word) : List (Text × List Piece) → List Line
  | [] => []
  | (t,ps) :: src =>
    let d := (Draft.blank v t).addAll ps
    d.line.patchAll symtab (refs k ps).reverse :: finalLines symtab (k + 1) d.vmaddr src

theorem finalLines_get (symtab : List Symbol) (j : Nat) (v : Word) (src : List (Text × List Piece))
    (k : Nat) : (finalLines symtab j v src)[k]? = (draftLines v src)[k]?.map
      (Line.patchAll symtab (refs (j + k) ((src.map Prod.snd)[k]?.getD [])).reverse) := by
  induction src generalizing j v k with
  | nil => rfl
  | cons q src ih =>
    cases k with
    | zero => rfl
    | succ k =>
      rw [finalLines,draftLines,List.getElem?_cons_succ,List.getElem?_cons_succ,ih,
        show j + 1 + k = j + (k + 1) by omega]
      rfl

theorem built_lines (ha : assemble file = .ok st) (hr : relocate st = .ok lines) :
    ∃ pss, scanLines (sourceLines file) = some pss ∧
      lines = finalLines st.symtab 0 0 ((sourceLines file).zip pss) := by
  obtain ⟨pss,hs,⟨hl,-,hrel⟩,-⟩ := assemble_ok ha
  refine ⟨pss,hs,List.ext_getElem? fun k => ?_⟩
  have hf : st.reltab.filter (fun r => r.y64bin = k) = (refs k (pss[k]?.getD [])).reverse := by
    have := filter_refsFrom (j := 0) (k := k) pss
    rw [Nat.zero_add] at this
    rw [hrel,List.filter_reverse,this]
  rw [relocateLoop_get hr k,hl,hf,finalLines_get,Nat.zero_add,
    List.map_snd_zip (Nat.le_of_eq (length_scanLines hs))]

end Build

end Asm
