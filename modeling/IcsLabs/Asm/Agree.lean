import IcsLabs.Asm.Symbols
import IcsLabs.Asm.Wording
import IcsLabs.Sim.Step

namespace Asm
open Bytes

section Agree

variable {inst : Instr} {arg : Arg} {op : Operation} {i : Y86.Instr}

theorem hpack_eq {a b : Nat} (ha : a < 16) (hb : b < 16) : hpack a b = Y86.pack a b := by
  have h : ∀ a < 16, ∀ b < 16, hpack a b = Y86.pack a b := by decide +kernel
  exact h a ha b hb

theorem regOf_eq {a : Nat} (h : a < regNone) : ∃ r : Y86.Reg, a = r ∧ Y86.Instr.regOf a = some r :=
  ⟨⟨a,h⟩,rfl,dif_pos h⟩

theorem regPair_eq {a b : Nat} (ha : a < regNone) (hb : b < regNone) : ∃ r r' : Y86.Reg,
    a = r ∧ b = r' ∧ Y86.Instr.regOf a = some r ∧ Y86.Instr.regOf b = some r' ∧
      hpack a b = Y86.pack r r' := by
  obtain ⟨r,rfl,hr⟩ := regOf_eq ha
  obtain ⟨r',rfl,hr'⟩ := regOf_eq hb
  exact ⟨r,r',rfl,rfl,hr,hr',hpack_eq r.lt r'.lt⟩

theorem resolved_eq {res : Text → Option Word} {addr : Text → Word} {imm : Operand}
    (h : ∀ name, imm.ref = some name → res name = some (addr name)) :
    imm.resolved res = some (imm.eval addr) := by
  cases imm with
  | digit v => rfl
  | symbol name => exact h name rfl

theorem image_eq_encode {res : Text → Option Word} {addr : Text → Word} (hc : inst.code = op.first)
    (hf : arg.Fits inst) (h : ∀ name, arg.ref = some name → res name = some (addr name)) :
    ∃ i, op.instr res arg = some i ∧ arg.image inst (arg.eval addr) = Y86.encode i := by
  have ht : high inst.code = op.itype := hc ▸ high_first op
  cases arg with
  | none =>
    rw [Arg.Fits,ht] at hf
    cases op with
    | nop => exact ⟨.nop,rfl,by rw [Arg.image,hc]; rfl⟩
    | halt => exact ⟨.halt,rfl,by rw [Arg.image,hc]; rfl⟩
    | ret => exact ⟨.ret,rfl,by rw [Arg.image,hc]; rfl⟩
    | _ => exact absurd hf (by rw [Operation.itype]; decide)
  | reg a =>
    obtain ⟨hf,ha⟩ := hf
    rw [ht] at hf
    obtain ⟨a,rfl,ha⟩ := regOf_eq ha
    have hp : hpack a 15 = Y86.pack a 15 := hpack_eq a.lt (by decide)
    cases op with
    | pushq => exact ⟨.pushq a,by rw [Operation.instr,ha]; rfl,by rw [Arg.image,hc,hp]; rfl⟩
    | popq => exact ⟨.popq a,by rw [Operation.instr,ha]; rfl,by rw [Arg.image,hc,hp]; rfl⟩
    | _ => exact absurd hf (by rw [Operation.itype]; decide)
  | regs a b =>
    obtain ⟨hf,ha,hb⟩ := hf
    rw [ht] at hf
    obtain ⟨a,b,rfl,rfl,ha,hb,hp⟩ := regPair_eq ha hb
    cases op with
    | rrmovq c =>
      exact ⟨.rrmovq c a b,by rw [Operation.instr,ha,hb]; rfl,by rw [Arg.image,hc,hp]; rfl⟩
    | opq k => exact ⟨.opq k a b,by rw [Operation.instr,ha,hb]; rfl,by rw [Arg.image,hc,hp]; rfl⟩
    | _ => exact absurd hf (by rw [Operation.itype]; decide)
  | immReg imm b =>
    obtain ⟨hf,hb⟩ := hf
    rw [ht] at hf
    obtain ⟨b,rfl,hb⟩ := regOf_eq hb
    have hp : hpack 15 b = Y86.pack 15 b := hpack_eq (by decide) b.lt
    have hv : imm.resolved res = some (imm.eval addr) := resolved_eq h
    cases op with
    | irmovq =>
      exact ⟨.irmovq (imm.eval addr) b,by rw [Operation.instr,hv,hb]; rfl,
        by rw [Arg.image,hc,hp]; rfl⟩
    | _ => exact absurd hf (by rw [Operation.itype]; decide)
  | regMem a disp b =>
    obtain ⟨hf,ha,hb⟩ := hf
    rw [ht] at hf
    obtain ⟨a,b,rfl,rfl,ha,hb,hp⟩ := regPair_eq ha hb
    cases op with
    | rmmovq =>
      exact ⟨.rmmovq a b (disp.getD 0),by rw [Operation.instr,ha,hb]; rfl,
        by rw [Arg.image,hc,hp]; rfl⟩
    | _ => exact absurd hf (by rw [Operation.itype]; decide)
  | memReg disp b a =>
    obtain ⟨hf,ha,hb⟩ := hf
    rw [ht] at hf
    obtain ⟨a,b,rfl,rfl,ha,hb,hp⟩ := regPair_eq ha hb
    cases op with
    | mrmovq =>
      exact ⟨.mrmovq (disp.getD 0) b a,by rw [Operation.instr,hb,ha]; rfl,
        by rw [Arg.image,hc,hp]; rfl⟩
    | _ => exact absurd hf (by rw [Operation.itype]; decide)
  | dest imm =>
    rw [Arg.Fits,ht] at hf
    have hv : imm.resolved res = some (imm.eval addr) := resolved_eq h
    cases op with
    | jxx c =>
      exact ⟨.jxx c (imm.eval addr),by rw [Operation.instr,hv]; rfl,by rw [Arg.image,hc]; rfl⟩
    | call =>
      exact ⟨.call (imm.eval addr),by rw [Operation.instr,hv]; rfl,by rw [Arg.image,hc]; rfl⟩
    | _ => exact absurd hf (by rw [Operation.itype]; decide)
  | data imm | pos v | align v =>
    have hlt := hf.1
    rw [ht] at hlt
    cases op <;> exact absurd hlt (by rw [Operation.itype]; decide)

theorem resolve_of_named {file : Text} {st : State} {lines : List Line} {pss : List (List Piece)}
    {p : Piece} {name : Text} (hb : Built file st lines pss) (hp : p ∈ pss.flatten)
    (hn : p.ref = some name) : resolve st.symtab name = some (addrOf st.symtab name) := by
  have hm := hb.named p hp name hn
  rw [← mem_names_reverse (v := 0),← hb.symtab] at hm
  cases h : resolve st.symtab name with
  | none => exact absurd hm (resolve_eq_none.mp h)
  | some a => simp [addrOf,h]

end Agree

theorem assembled_decodes {file t : Text} {st : State} {lines : List Line} {k : Nat}
    (ha : assemble file = .ok st) (hr : relocate st = .ok lines)
    (ht : (sourceLines file)[k]? = some t) :
    (∀ ls inst arg, scanLine t = some (ls ++ [.item inst arg]) → Labels ls →
      high inst.code ≠ iDirective → ∃ i, Denotes (resolve st.symtab) t i) ∧
    ∀ i, Denotes (resolve st.symtab) t i → ∃ l, lines[k]? = some l ∧ l.y64bin.bytes = i.length ∧
      ∀ sim : Sim.Y64sim, sim.m.len < 2 ^ 31 → Sim.InBounds sim.m sim.pc i.length →
        (∀ j < i.length, sim.m.data (sim.pc.toNat + j) = l.y64bin.codes j) →
        ∃ f, Sim.fetch sim = .ok f ∧ Sim.nexti sim = Sim.execute f sim ∧
          Y86.Instr.Spells f.icode f.ifun f.raid f.rbid f.addr i ∧
          f.nextPc = sim.pc + BitVec.ofNat 64 i.length := by
  obtain ⟨pss,hb⟩ := built ha hr
  obtain ⟨ps,hp⟩ : ∃ ps, pss[k]? = some ps := by
    have hlen := length_scanLines hb.scan
    have hk := (List.getElem?_eq_some_iff.mp ht).1
    exact ⟨pss[k],List.getElem?_eq_getElem (by omega)⟩
  obtain ⟨t',ht',hs⟩ := scanLines_get hb.scan k hp
  obtain rfl := Option.some.inj (ht'.symm.trans ht)
  have hitem {ls inst arg} (he : ps = ls ++ [.item inst arg]) : .item inst arg ∈ pss.flatten :=
    List.mem_flatten.mpr ⟨ps,List.mem_of_getElem? hp,by simp [he]⟩
  constructor
  · intro ls inst arg hs' hl hreal
    obtain rfl := Option.some.inj (hs.symm.trans hs')
    obtain ⟨l,-,-,hw,-⟩ := hb.image hp hl
    obtain ⟨op,ho,hc⟩ := operation_of_mem hw.1 hreal
    obtain ⟨i,hi,-⟩ := @image_eq_encode inst arg op (resolve st.symtab) _ hc hw.2 fun name hn =>
      resolve_of_named hb (hitem rfl) hn
    exact ⟨i,(denotes_iff hs).mpr ⟨ls,inst,arg,op,rfl,hl,hw.1,ho,hi⟩⟩
  · intro i hd
    obtain ⟨ls,inst,arg,op,rfl,hl,-,ho,hi⟩ := (denotes_iff hs).mp hd
    obtain ⟨l,hk,hbytes,hw,himg⟩ := hb.image hp hl
    obtain ⟨i',hi',he⟩ := @image_eq_encode inst arg op (resolve st.symtab) _
      (operation_real hw.1 ho).1 hw.2 fun name hn => resolve_of_named hb (hitem rfl) hn
    obtain rfl := Option.some.inj (hi.symm.trans hi')
    have hlen : i.length = inst.bytes := by
      rw [← Y86.Instr.length_encode,← he,length_image hw]
    refine ⟨l,hk,hbytes.trans hlen.symm,fun sim hsim hin hmatch => ?_⟩
    rw [he] at himg
    have hd : Y86.decode sim.m.data sim.pc.toNat = some i := by
      refine Y86.decode_encode fun j hj => ?_
      have hc := himg j hj
      rw [Nat.zero_add] at hc
      exact (hmatch j (by rwa [← Y86.Instr.length_encode])).trans hc
    obtain ⟨icode,ifun,rA,rB,c,hf,hspell⟩ := Sim.fetch_eq hsim hd hin
    refine ⟨_,hf,?_,hspell,rfl⟩
    rw [Sim.nexti,hf]

def loadLabel : Text := "irmovq x,%rax\nx:".toList

def loadBytes : List Byte := [0x30,0xf0,0x0a,0,0,0,0,0,0,0]

-- the simulator with the bytes at 0
def loaded (bs : List Byte) : Sim.Y64sim :=
  { Sim.newY64sim Sim.memSize with m := ⟨(Sim.initMem Sim.memSize).len,fun x => (bs[x]?).getD 0⟩ }

theorem assembled_decodes_irmovq : ∃ st lines f, assemble loadLabel = .ok st ∧
    relocate st = .ok lines ∧ Denotes (resolve st.symtab) "irmovq x,%rax".toList (.irmovq 10 Y86.rax) ∧
    Sim.fetch (loaded loadBytes) = .ok f ∧
    Y86.Instr.Spells f.icode f.ifun f.raid f.rbid f.addr (.irmovq 10 Y86.rax) ∧ f.nextPc = 10 := by
  have hok : ((assemble loadLabel).bind fun st => (relocate st).map fun lines =>
      (resolve st.symtab ['x'],lines[0]?.map fun l => (List.range 10).map l.y64bin.codes)) =
      .ok (some 10,some loadBytes) := by decide +kernel
  cases ha : assemble loadLabel with
  | error e =>
    rw [ha] at hok
    cases hok
  | ok st =>
    rw [ha] at hok
    cases hr : relocate st with
    | error e =>
      change (relocate st).map _ = _ at hok
      rw [hr] at hok
      cases hok
    | ok lines =>
      change (relocate st).map _ = _ at hok
      rw [hr] at hok
      obtain ⟨hx,hl⟩ := Prod.mk.inj (Except.ok.inj hok)
      have hd : Denotes (resolve st.symtab) ([] ++ ("irmovq".toList ++ (" x,%rax".toList ++ [])))
          (.irmovq 10 Y86.rax) := by
        refine @Denotes.instr _ _ _ _ _ .irmovq (.immReg (.symbol ['x']) 0) _ nil_blanks rfl
          (fun r hr ho => ?_) ?_ ?_ (atEnd_iff.mp rfl)
        · cases r with
          | nil => rfl
          | cons c r =>
            have hall : ∀ e ∈ mnemonics, ' ' ∉ e.1 := by decide +kernel
            obtain ⟨u,hu⟩ := hr
            obtain rfl := (List.cons.inj hu).1
            obtain ⟨op,ho⟩ := Option.isSome_iff_exists.mp ho
            exact absurd (List.mem_append_right _ List.mem_cons_self) (hall _ (mem_mnemonics ho))
        · simp only [Operation.instr,Operand.resolved,hx]
          rfl
        · have hblank : [' '] ∈ blanks := List.forall_mem_singleton.mpr rfl
          exact Language.mem_mul.mpr ⟨" x".toList,Language.mem_mul.mpr ⟨[' '],hblank,['x'],
            ⟨⟨'x',[],rfl,by decide,List.forall_mem_nil _⟩,rfl⟩,rfl⟩,",%rax".toList,Language.mem_mul.mpr
            ⟨[','],Language.mem_mul.mpr ⟨[],nil_blanks,[','],rfl,rfl⟩,"%rax".toList,
            Language.mem_mul.mpr ⟨[],nil_blanks,"%rax".toList,rfl,rfl⟩,rfl⟩,rfl⟩
      have ht : (sourceLines loadLabel)[0]? = some "irmovq x,%rax".toList := by decide +kernel
      obtain ⟨l,hk,-,hdec⟩ := (assembled_decodes ha hr ht).2 _ hd
      rw [hk] at hl
      have hcodes := Option.some.inj hl
      have hin : Sim.InBounds (loaded loadBytes).m (loaded loadBytes).pc 10 :=
        ⟨by decide +kernel,by decide +kernel⟩
      obtain ⟨f,hf,-,hsp,hn⟩ := hdec (loaded loadBytes) (by decide) hin fun j hj => by
        have hj : j < 10 := hj
        have h := congrArg (·[j]?) hcodes
        simp only [List.getElem?_map,List.getElem?_range hj,Option.map_some] at h
        change (loadBytes[0 + j]?).getD 0 = _
        rw [Nat.zero_add,← h,Option.getD_some]
      exact ⟨st,lines,f,rfl,hr,hd,hf,hsp,hn⟩

end Asm
