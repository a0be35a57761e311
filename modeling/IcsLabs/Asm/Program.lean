import IcsLabs.Asm.Agree
import IcsLabs.Asm.Output
import IcsLabs.Sim.Follow

namespace Asm
open Bytes

-- the instruction of a line; directives have none
def instrOf (res : Text → Option Word) (ps : List Piece) : Option Y86.Instr :=
  match ps.getLast? with
  | some (.item inst arg) => (operation inst.name).bind fun op => op.instr res arg
  | _ => none

-- the instructions of a source and where they stand
def entries (res : Text → Option Word) (v : Word) : List (List Piece) → List (Nat × Y86.Instr)
  | [] => []
  | ps :: pss =>
    ((instrOf res ps).map fun i => (v.toNat,i)).toList ++ entries res (counter v ps) pss

def program (symtab : List Symbol) (pss : List (List Piece)) : Y86.Listing := fun a =>
  (entries (resolve symtab) 0 pss).lookup a

def Placed.Apart (p q : Placed) : Prop :=
  p.addr.toNat + p.bin.bytes ≤ q.addr.toNat ∨ q.addr.toNat + q.bin.bytes ≤ p.addr.toNat

instance (p q : Placed) : Decidable (p.Apart q) := inferInstanceAs (Decidable (_ ∨ _))

-- data is a file with the bytes that were written
def Written (out : File) (data : List Byte) : Prop := ∀ x b, out x = some b → data[x]? = some b

-- what yas made of a source and yis can load: one item a line at most, no two on one byte
structure Loadable (file : Text) (st : State) (pss : List (List Piece)) (data : List Byte) : Prop where
  compiled : ∃ out, compile file = some (st,out) ∧ Written out data
  scan : scanLines (sourceLines file) = some pss
  plain : ∀ ps ∈ pss, plain ps = true
  apart : (placedLines 0 ((sourceLines file).zip pss)).Pairwise Placed.Apart
  short : (data.length : Int) < Sim.memSize

section Entries

variable {symtab : List Symbol} {res : Text → Option Word} {ls ps : List Piece} {inst : Instr}
  {arg : Arg} {d : Draft} {v : Word} {t : Text} {k a : Nat} {i : Y86.Instr} {op : Operation}
  {src : List (Text × List Piece)} {items : List Placed} {out : File}

theorem placed_plain (hl : Labels ls) (hb : inst.bytes ≠ 0) : placed d (ls ++ [.item inst arg]) =
    [⟨d.vmaddr,((d.addAll ls).add (.item inst arg)).line.y64bin,arg.ref⟩] := by
  induction ls generalizing d with
  | nil => rw [List.nil_append,placed,Piece.placed,if_neg hb,placed,List.append_nil]; rfl
  | cons p ls ih =>
    obtain ⟨⟨name,rfl⟩,hls⟩ := List.forall_mem_cons.mp hl
    exact ih hls

theorem final_patch (symtab : List Symbol) (v : Word) (d : Draft) (inst : Instr) (arg : Arg) :
    Placed.final symtab ⟨v,(d.add (.item inst arg)).line.y64bin,arg.ref⟩ =
      ((d.add (.item inst arg)).line.patchAll symtab ((Piece.item inst arg).refs 0)).y64bin := by
  rw [Placed.final,Piece.refs,Piece.ref]
  cases arg.ref <;> rfl

theorem line_placed (hw : ∀ p ∈ ps, p.WellFormed) (hp : plain ps = true)
    (hr : ∀ p ∈ ps, ∀ name, p.ref = some name → res name = some (addrOf symtab name))
    (hi : instrOf res ps = some i) : ∃ p ∈ placed (Draft.blank v t) ps, p.addr = v ∧
      p.bin.bytes = i.length ∧ Y86.Holds (p.final symtab).codes 0 (Y86.encode i) := by
  rw [instrOf] at hi
  split at hi
  · rename_i inst arg hlast
    have hm := List.mem_of_getLast? hlast
    obtain ⟨ls,rfl,hl⟩ := plain_item hp hm
    obtain ⟨op,ho,hi⟩ := Option.bind_eq_some_iff.mp hi
    have hwf := hw _ hm
    obtain ⟨hc,hb⟩ := operation_real hwf.1 ho
    obtain ⟨j,hj,himg⟩ := image_eq_encode hc hwf.2 (hr _ hm)
    obtain rfl := Option.some.inj (hi.symm.trans hj)
    have hlen : i.length = inst.bytes := by
      rw [← Y86.Instr.length_encode,← himg,length_image hwf]
    refine ⟨_,by rw [placed_plain hl (Nat.ne_of_gt hb)]; exact List.mem_singleton_self _,rfl,
      hlen.symm,?_⟩
    rw [final_patch,← himg]
    exact image_holds hwf (labels_value hl)
  · cases hi

theorem entries_placed (hw : ∀ q ∈ src, ∀ p ∈ q.2, p.WellFormed)
    (hp : ∀ q ∈ src, plain q.2 = true)
    (hr : ∀ q ∈ src, ∀ p ∈ q.2, ∀ name, p.ref = some name → res name = some (addrOf symtab name))
    (hm : (a,i) ∈ entries res v (src.map Prod.snd)) : ∃ p ∈ placedLines v src, p.addr.toNat = a ∧
      p.bin.bytes = i.length ∧ Y86.Holds (p.final symtab).codes 0 (Y86.encode i) := by
  induction src generalizing v with
  | nil => cases hm
  | cons q src ih =>
    obtain ⟨t,ps⟩ := q
    obtain ⟨hw,hws⟩ := List.forall_mem_cons.mp hw
    obtain ⟨hp,hps⟩ := List.forall_mem_cons.mp hp
    obtain ⟨hr,hrs⟩ := List.forall_mem_cons.mp hr
    rw [List.map_cons,entries,List.mem_append,Option.mem_toList,Option.map_eq_some_iff] at hm
    rw [placedLines]
    obtain ⟨j,hj,he⟩ | hm := hm
    · obtain ⟨rfl,rfl⟩ := Prod.mk.inj he
      obtain ⟨p,hpm,hpa,hpb,hph⟩ := @line_placed symtab res ps v t j hw hp hr hj
      exact ⟨p,List.mem_append_left _ hpm,congrArg BitVec.toNat hpa,hpb,hph⟩
    · rw [addAll_vmaddr]
      obtain ⟨p,hpm,h⟩ := ih hws hps hrs hm
      exact ⟨p,List.mem_append_right _ hpm,h⟩

theorem kept_apart (hk : Kept symtab items out) (ha : items.Pairwise Placed.Apart) {p : Placed}
    (hp : p ∈ items) {j : Nat} (hj : j < p.bin.bytes) :
    out (p.addr.toNat + j) = some ((p.final symtab).codes j) := by
  obtain ⟨pre,post,rfl⟩ := List.append_of_mem hp
  refine (hk pre p post rfl j hj).resolve_left ?_
  rintro ⟨q,hq,hc⟩
  have h := (List.pairwise_cons.mp (List.pairwise_append.mp ha).2.1).1 q hq
  obtain h | h := h <;> rw [Placed.Covers] at hc <;> omega

theorem tidy_of_plain (h : plain ps = true) : tidy ps = true := by
  induction ps with
  | nil => rfl
  | cons p ps ih =>
    cases p with
    | label name => exact ih h
    | item inst arg =>
      obtain rfl := List.isEmpty_iff.mp h
      rw [tidy]
      split <;> rfl

end Entries

section Loading

variable {file : Text} {st : State} {pss : List (List Piece)} {data : List Byte} {a n : Nat}
  {i : Y86.Instr} {out : File} {lines : List Line}

theorem compile_built (hc : compile file = some (st,out)) (hs : scanLines (sourceLines file) = some pss) :
    ∃ lines, Built file st lines pss ∧ lines = finalLines st.symtab 0 0 ((sourceLines file).zip pss) ∧
      binfile lines (fun _ => none) = some out := by
  rw [compile] at hc
  split at hc
  · cases hc
  · rename_i st' ha
    split at hc
    · cases hc
    · rename_i lines hr
      obtain ⟨out',hb,he⟩ := Option.map_eq_some_iff.mp hc
      obtain ⟨rfl,rfl⟩ := Prod.mk.inj he
      obtain ⟨qss,hq⟩ := built ha hr
      obtain rfl := Option.some.inj (hq.scan.symm.trans hs)
      obtain ⟨rss,hrs,hl⟩ := built_lines ha hr
      obtain rfl := Option.some.inj (hrs.symm.trans hs)
      exact ⟨lines,hq,hl,hb⟩

theorem compile_writes (hb : Built file st lines pss)
    (hl : lines = finalLines st.symtab 0 0 ((sourceLines file).zip pss))
    (ho : binfile lines (fun _ => none) = some out) (hp : ∀ ps ∈ pss, plain ps = true) :
    out = ((placedLines 0 ((sourceLines file).zip pss)).map (Placed.final st.symtab)).foldl
        (fun o b => fwrite b o) (fun _ => none) ∧
      ∀ p ∈ placedLines 0 ((sourceLines file).zip pss), p.bin.addr = p.addr := by
  have hwf := scanLines_mem hb.scan
  obtain ⟨h1,h2⟩ := @finalLines_bins st.symtab 0 0 ((sourceLines file).zip pss) fun q hq =>
    have hm := (List.of_mem_zip hq).2
    ⟨tidy_of_plain (hp _ hm),hwf _ hm⟩
  exact ⟨by rw [binfile_eq ho,hl,h1],h2⟩

-- the file ends with the last item; what was never written is 0
theorem written_upTo (hc : compile file = some (st,out)) (hs : scanLines (sourceLines file) = some pss)
    (hp : ∀ ps ∈ pss, plain ps = true)
    (hn : ∀ p ∈ placedLines 0 ((sourceLines file).zip pss), p.addr.toNat + p.bin.bytes ≤ n) :
    Written out ((List.range n).map fun x => (out x).getD 0) := by
  obtain ⟨lines,hb,hl,hout⟩ := compile_built hc hs
  obtain ⟨hw,ha⟩ := compile_writes hb hl hout hp
  intro x b hx
  have hlt : x < n := by
    by_contra hge
    have hnone : out x = none := by
      rw [hw]
      refine fwrites_outside fun b hb => ?_
      obtain ⟨p,hp,rfl⟩ := List.mem_map.mp hb
      obtain ⟨h1,h2⟩ := final_bin st.symtab p
      rw [h1,h2,ha p hp]
      have := hn p hp
      omega
    rw [hnone] at hx
    cases hx
  rw [List.getElem?_map,List.getElem?_range hlt,Option.map_some,hx]
  rfl

theorem Loadable.holds (h : Loadable file st pss data) (hi : program st.symtab pss a = some i) :
    Y86.Holds (fun x => (data[x]?).getD 0) a (Y86.encode i) ∧ a + i.length ≤ data.length := by
  obtain ⟨out,hc,hw⟩ := h.compiled
  obtain ⟨lines,hb,hl,hout⟩ := compile_built hc h.scan
  have hzip {q} (hq : q ∈ (sourceLines file).zip pss) : q.2 ∈ pss := (List.of_mem_zip hq).2
  have hwf := scanLines_mem h.scan
  have hk : Kept st.symtab (placedLines 0 ((sourceLines file).zip pss)) out := by
    obtain ⟨h1,h2⟩ := compile_writes hb hl hout h.plain
    rw [h1]
    exact kept_of_writes h2
  have hm : (a,i) ∈ entries (resolve st.symtab) 0 (((sourceLines file).zip pss).map Prod.snd) := by
    rw [List.map_snd_zip (Nat.le_of_eq (length_scanLines h.scan))]
    obtain ⟨pre,post,he,-⟩ := List.lookup_eq_some_iff.mp hi
    rw [he]
    exact List.mem_append_right _ List.mem_cons_self
  obtain ⟨p,hp,rfl,hlen,hcode⟩ := entries_placed (fun q hq => hwf _ (hzip hq))
    (fun q hq => h.plain _ (hzip hq))
    (fun q hq r hr name hn => resolve_of_named hb (List.mem_flatten.mpr ⟨_,hzip hq,hr⟩) hn) hm
  have hbyte (j : Nat) (hj : j < i.length) :
      data[p.addr.toNat + j]? = some ((p.final st.symtab).codes j) :=
    hw _ _ (kept_apart hk h.apart hp (hlen ▸ hj))
  refine ⟨fun j hj => ?_,?_⟩
  · have hx := hcode j hj
    rw [Nat.zero_add] at hx
    change (data[p.addr.toNat + j]?).getD 0 = _
    rw [hbyte j (by rwa [← Y86.Instr.length_encode]),Option.getD_some,hx]
  · have hpos : 0 < i.length := by cases i <;> simp [Y86.Instr.length]
    obtain ⟨hlt,-⟩ := List.getElem?_eq_some_iff.mp (hbyte (i.length - 1) (by omega))
    omega

-- yis after it has loaded the file
def started (data : List Byte) : Sim.Y64sim :=
  { Sim.newY64sim Sim.memSize with
    m := ⟨(Sim.initMem Sim.memSize).len,fun x => (data[x]?).getD 0⟩ }

theorem Loadable.follows (h : Loadable file st pss data) :
    Sim.loadImage Sim.memSize ⟨data,false⟩ = some (started data) ∧
      Sim.Follows (program st.symtab pss) (started data) := by
  have hlt : (data.length : Int) < (Sim.initMem Sim.memSize).len := h.short
  have hfits : Sim.Fits (started data) :=
    ⟨(by decide : 120 ≤ Sim.initReg.len),(by decide : (Sim.initMem Sim.memSize).len < 2 ^ 31)⟩
  refine ⟨?_,hfits,fun a i hi => (h.holds hi).1,fun a i hi => ?_⟩
  · rw [Sim.loadImage,Sim.loadBinfile,Sim.newY64sim,if_pos hlt]
    rfl
  · have hle := (h.holds hi).2
    change a + i.length ≤ (Sim.initMem Sim.memSize).len.toNat
    omega

end Loading

theorem instrOf_iff {res : Text → Option Word} {t : Text} {ps : List Piece} {i : Y86.Instr}
    (hs : scanLine t = some ps) (hp : plain ps = true) : instrOf res ps = some i ↔ Denotes res t i := by
  rw [denotes_iff hs,instrOf]
  constructor
  · intro h
    split at h
    · rename_i inst arg hlast
      have hm := List.mem_of_getLast? hlast
      obtain ⟨ls,rfl,hl⟩ := plain_item hp hm
      obtain ⟨op,ho,hi⟩ := Option.bind_eq_some_iff.mp h
      exact ⟨ls,inst,arg,op,rfl,hl,(scanLoop_wellFormed hs _ hm).1,ho,hi⟩
    · cases h
  · rintro ⟨ls,inst,arg,op,rfl,-,-,ho,hi⟩
    rw [List.getLast?_append,List.getLast?_singleton,Option.some_or]
    exact Option.bind_eq_some_iff.mpr ⟨op,ho,hi⟩

theorem assembled_runs {file : Text} {st : State} {pss : List (List Piece)} {data : List Byte}
    {n : Nat} {s : Y86.State} {f : Y86.Flags} (h : Loadable file st pss data)
    (hr : Y86.Listing.Runs (program st.symtab pss)
      (fun i s => Y86.Listing.Safe (program st.symtab pss) 8192 i s ∧ Sim.CodesAgree i s) n
      (⟨0,fun _ => 0,fun x => (data[x]?).getD 0⟩,⟨true,false,false⟩) (s,f)) :
    (∀ (k : Nat) t ps, (sourceLines file)[k]? = some t → pss[k]? = some ps → ∀ i,
      instrOf (resolve st.symtab) ps = some i ↔ Denotes (resolve st.symtab) t i) ∧
    ∃ sim, Sim.loadImage Sim.memSize ⟨data,false⟩ = some sim ∧
      Sim.view (Sim.steps n sim) = s ∧ Sim.flags (Sim.steps n sim).cc = f ∧
      Sim.simulate n sim = (.aok,Sim.steps n sim) ∧
      (program st.symtab pss s.pc.toNat = some .halt →
        ∀ k, Sim.simulate (n + k + 1) sim = (.hlt,Sim.steps n sim)) := by
  constructor
  · intro k t ps ht hp i
    obtain ⟨t',ht',hs⟩ := scanLines_get h.scan k hp
    obtain rfl := Option.some.inj (ht'.symm.trans ht)
    exact instrOf_iff hs (h.plain ps (List.mem_of_getElem? hp))
  · obtain ⟨hl,hf⟩ := h.follows
    have hv : Sim.view (started data) = ⟨0,fun _ => 0,fun x => (data[x]?).getD 0⟩ := by
      have hreg : Sim.regAt (started data).r = fun _ => 0 :=
        funext (by decide +kernel : ∀ id, Sim.regAt Sim.initReg id = 0)
      rw [Sim.view,hreg]
      rfl
    have hcc : Sim.flags (started data).cc = ⟨true,false,false⟩ := by
      change Sim.flags (Sim.packCc true false false) = _
      rw [Sim.flags,Sim.getZf_packCc,Sim.getSf_packCc,Sim.getOf_packCc]
    rw [← hv,← hcc] at hr
    obtain ⟨h1,h2,h3,h4⟩ := hf.runs hr
    obtain ⟨rfl,rfl⟩ := Prod.mk.inj h1
    refine ⟨_,hl,rfl,rfl,h4 0,fun hh k => ?_⟩
    have hno : Y86.Listing.Safe (program st.symtab pss) (Sim.steps n (started data)).m.len.toNat
        .halt (Sim.view (Sim.steps n (started data))) := by
      constructor <;> intro a h <;> cases h
    obtain ⟨h5,-,h6,-⟩ := h2.nexti hh hno (fun _ _ _ he => by cases he)
    rw [Nat.add_assoc,h4,Sim.simulate,if_neg (by rw [h5]; decide)]
    exact Prod.ext h5 (h6 rfl)

-- e is 10, the length of the first instruction
def endAddr : Text := "irmovq e,%rax\ne: halt".toList

def endPieces : List (List Piece) :=
  [[.item ⟨"irmovq".toList,6,0x30,10⟩ (.immReg (.symbol ['e']) 0)],
    [.label ['e'],.item ⟨"halt".toList,4,0,1⟩ .none]]

theorem assembled_runs_end_addr : ∃ st data sim, Loadable endAddr st endPieces data ∧
    Sim.loadImage Sim.memSize ⟨data,false⟩ = some sim ∧
    (Sim.view (Sim.steps 1 sim)).reg Y86.rax = 10 ∧
    Sim.simulate 2 sim = (.hlt,Sim.steps 1 sim) := by
  have hs : scanLines (sourceLines endAddr) = some endPieces := by decide +kernel
  have hc : (compile endAddr).any (fun c => c.1.symtab = [⟨['e'],10⟩]) = true := by decide +kernel
  obtain ⟨⟨st,out⟩,hc,hsym⟩ := (Option.any_eq_true _ _).mp hc
  have hsym : st.symtab = [⟨['e'],10⟩] := of_decide_eq_true hsym
  have hp : ∀ ps ∈ endPieces, plain ps = true := by decide
  have hw := @written_upTo _ _ endPieces 11 _ hc hs hp (by decide +kernel)
  have h : Loadable endAddr st endPieces _ := ⟨⟨out,hc,hw⟩,hs,hp,by decide +kernel,by
    rw [List.length_map,List.length_range]
    decide⟩
  have h0 : program st.symtab endPieces 0 = some (.irmovq 10 Y86.rax) := by
    rw [hsym]
    decide +kernel
  have h10 : program st.symtab endPieces 10 = some .halt := by
    rw [hsym]
    decide +kernel
  obtain ⟨-,sim,hl,hv,-,-,hh⟩ := assembled_runs h
    (.step h0 (by decide) ⟨⟨nofun,nofun⟩,nofun⟩ (.refl _))
  refine ⟨st,_,sim,h,hl,?_,hh h10 0⟩
  rw [hv]
  rfl

end Asm
