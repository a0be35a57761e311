import IcsLabs.Asm.Token
import IcsLabs.Lib.Keywords

namespace Asm
open Keywords

variable {s t u name : Text} {inst : Instr} {r : Reg} {n : Nat}

theorem strncmp_prefix (hn : name.length = n) : strncmp name s n = true ↔ name <+: s := by
  rw [strncmp,← hn,List.take_length,beq_iff_eq,List.prefix_iff_eq_take]

section Instructions

-- the lengths are those of the names, and the longer mnemonics come first: jle, jge, cmovle and
-- cmovge, which no other one goes on from, stand before jl, jg, cmovl and cmovg
theorem instr_table : (∀ i ∈ instrSet, i.name.length = i.len ∧ 0 < i.len) ∧
    Ordered Instr.name instrSet ∧
    ∀ name ∈ ["jle".toList,"jge".toList,"cmovle".toList,"cmovge".toList],
      ∃ i ∈ instrSet, i.name = name ∧
        ∀ j ∈ instrSet, name <+: j.name → j.name.length ≤ name.length := by
  decide +kernel

theorem instr_len (hi : inst ∈ instrSet) : inst.name.length = inst.len :=
  (instr_table.1 inst hi).1

theorem instr_test : ∀ i ∈ instrSet, (strncmp i.name s i.len = true ↔ i.name <+: s) :=
  fun _ hi => strncmp_prefix (instr_len hi)

theorem findInstr_iff : findInstr s = some inst ↔ Longest Instr.name instrSet s inst :=
  instr_table.2.1.find_eq_some instr_test

theorem findInstr_mem (h : findInstr s = some inst) : inst ∈ instrSet := (findInstr_iff.mp h).mem

theorem findInstr_split (h : findInstr s = some inst) :
    inst ∈ instrSet ∧ inst.name ++ s.drop inst.len = s := by
  have hl := findInstr_iff.mp h
  refine ⟨hl.mem,?_⟩
  rw [← instr_len hl.mem]
  exact List.prefix_iff_eq_append.mp hl.starts

theorem findInstr_len (h : findInstr s = some inst) : inst.len ≤ s.length := by
  have hl := findInstr_iff.mp h
  rw [← instr_len hl.mem]
  exact hl.starts.length_le

theorem findInstr_none : findInstr s = none ↔ ∀ i ∈ instrSet, ¬ i.name <+: s :=
  find_eq_none instr_test

theorem findInstr_name : findInstr (inst.name ++ u) = some inst ↔
    inst ∈ instrSet ∧ ∀ j ∈ instrSet, ∀ r, inst.name ++ r = j.name → r <+: u → r = [] :=
  findInstr_iff.trans longest_append

theorem parseInstr_spec (h : parseInstr s = some (inst,t)) :
    inst ∈ instrSet ∧ t <:+ s ∧ t.length < s.length := by
  obtain ⟨inst',hf,he⟩ := Option.map_eq_some_iff.mp h
  cases he
  have h0 := (instr_table.1 inst (findInstr_mem hf)).2
  have hlen := findInstr_len hf
  have hle := (skipBlank_suffix s).length_le
  refine ⟨findInstr_mem hf,(List.drop_suffix _ _).trans (skipBlank_suffix s),?_⟩
  rw [List.length_drop]
  omega

end Instructions

section Registers

theorem register_table : (∀ r ∈ regTable, r.name.length = r.namelen) ∧
    PrefixFree Reg.name regTable := by
  decide +kernel

theorem register_len (hr : r ∈ regTable) : r.name.length = r.namelen := register_table.1 r hr

theorem register_test : ∀ r ∈ regTable, (strncmp s r.name r.namelen = true ↔ r.name <+: s) := by
  intro r hr
  rw [← strncmp_prefix (register_len hr),strncmp,strncmp,BEq.comm]

theorem findRegister_iff : findRegister s = some r ↔ Sole Reg.name regTable s r :=
  (register_table.2.ordered.find_eq_some register_test).trans register_table.2.longest_iff

theorem findRegister_split (h : findRegister s = some r) :
    r ∈ regTable ∧ r.name ++ s.drop r.namelen = s := by
  have hs := findRegister_iff.mp h
  refine ⟨hs.mem,?_⟩
  rw [← register_len hs.mem]
  exact List.prefix_iff_eq_append.mp hs.starts

theorem findRegister_len (h : findRegister s = some r) : r.namelen ≤ s.length := by
  have hs := findRegister_iff.mp h
  rw [← register_len hs.mem]
  exact hs.starts.length_le

theorem findRegister_append (hr : r ∈ regTable) (t : Text) : findRegister (r.name ++ t) = some r :=
  findRegister_iff.mpr (register_table.2.sole hr (List.prefix_append ..))

theorem findRegister_none : findRegister s = none ↔ ∀ r ∈ regTable, ¬ r.name <+: s :=
  find_eq_none register_test

end Registers

theorem longest_match (s : Text) :
    (∀ inst, findInstr s = some inst ↔ Longest Instr.name instrSet s inst) ∧
    (findInstr s = none ↔ ∀ inst ∈ instrSet, ¬ inst.name <+: s) ∧
    (∀ r, findRegister s = some r ↔ Sole Reg.name regTable s r) ∧
    (findRegister s = none ↔ ∀ r ∈ regTable, ¬ r.name <+: s) ∧
    ∀ name ∈ ["jle".toList,"jge".toList,"cmovle".toList,"cmovge".toList], name <+: s →
      ∃ inst, findInstr s = some inst ∧ inst.name = name := by
  refine ⟨fun _ => findInstr_iff,findInstr_none,fun _ => findRegister_iff,findRegister_none,?_⟩
  rintro name hname ⟨u,rfl⟩
  obtain ⟨inst,hi,rfl,hfull⟩ := instr_table.2.2 name hname
  refine ⟨inst,findInstr_name.mpr ⟨hi,fun j hj r hr _ => ?_⟩,rfl⟩
  have hle := hfull j hj ⟨r,hr⟩
  rw [← hr,List.length_append] at hle
  exact List.eq_nil_of_length_eq_zero (by omega)

end Asm
