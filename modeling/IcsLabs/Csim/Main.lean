import IcsLabs.Csim.Distance
import IcsLabs.Csim.Reader
import IcsLabs.Lib.Getopt

namespace Csim
open Libc (Text Args getopt toSizeT)
open Reader

def usageLines : List String :=
  ["Usage: ./csim [-hv] -s <num> -E <num> -b <num> -in>",
    "Options:",
    "  -h         Print this help message.",
    "  -v         Optional verbose flag.",
    "  -s <num>   Number of set index bits.",
    "  -E <num>   Number of lines per set.",
    "  -b <num>   Number of block offset bits.",
    "  -in>  Trace file.",
    "Examples:",
    "  linux>  ./csim -s 4 -E 1 -b 4 -t traces/yi.trace",
    "  linux>  ./csim -v -s 8 -E 2 -b 4 -t traces/yi.trace"]

def usage (errorFlag : Int) (error : Char) : Text :=
  (if errorFlag = 0 then "./csim: Missing required command line argument\n".toList
    else if errorFlag = 1 then "./csim: invalid option -- '".toList ++ [error,'\'']
    else []) ++
    usageLines.flatMap fun l => l.toList ++ ['\n']

def optstring : Text := "s:E:b:t:".toList

def atoi (s : Text) : Int := Libc.atoi (s.map Char.toNat)

-- (int)pow(2, n); none where the power is no int
def powTwo (n : Int) : Option Int :=
  if n < 0 then some 0 else if n ≤ 30 then some (2 ^ n.toNat) else none

-- the argument of the next option, which has to be c
def expect (c : Char) (a : Args) : Option (Text × Args) :=
  match getopt optstring a with
  | (some (d,arg),a) => if d = c then some (arg,a) else none
  | (none,_) => none

-- the cleared counters and cache with the contents of the trace, or what is printed instead
def getInput (files : Text → Option Text) (argv : List Text) : Option (Except Text (State × Text)) :=
  match expect 's' ⟨[],argv⟩ with
  | none => some (.error (usage 0 ' '))
  | some (arg,a) => (powTwo (atoi arg)).bind fun S =>
    match expect 'E' a with
    | none => some (.error (usage 0 ' '))
    | some (arg,a) =>
      let E := atoi arg
      match expect 'b' a with
      | none => some (.error (usage 0 ' '))
      | some (arg,a) => (powTwo (atoi arg)).bind fun B =>
        match expect 't' a with
        | none => some (.error (usage 0 ' '))
        | some (name,_) =>
          match files name with
          | none => some (.error (name ++ ": No such file or directory".toList))
          | some file => some (.ok (⟨E,S,B,0,0,0,fun _ => 0⟩,file))

def Event.isCell : Event → Bool
  | .cell _ => true
  | .int _ => false

-- addressCache on the cache that main has; none also where that is NULL and a cell of it is used
def useCache (granted : Bool) (action : Char) (address : Int) (c : State) : Option State :=
  if granted = false ∧ (Logged.addressCache action address c).log.any Event.isCell = true then none
  else Ints.addressCache action address c

-- the while loop of main, at most n turns
def mainLoop (granted : Bool) (stack : Text) : Nat → Text → Text → State → Option State
  | 0, _, _, c => some c
  | n + 1, line, file, c =>
    if file = [] then some c
    else
      let (text,file) := Libc.fgets 99 file
      let line := storeLine text line
      let (action,address) := (readAccess stack text.length line).val
      (useCache granted action address c).bind (mainLoop granted stack n line file)

def intText (n : Int) : Text := (toString n).toList

-- what main prints, and what it writes to .csim_results
structure Output where
  printed : Text
  results : Option Text
deriving DecidableEq

def printSummary (hits misses evictions : Int) : Output where
  printed := "hits:".toList ++ intText hits ++ " misses:".toList ++ intText misses ++
    " evictions:".toList ++ intText evictions ++ ['\n']
  results := some (intText hits ++ [' '] ++ intText misses ++ [' '] ++ intText evictions ++ ['\n'])

-- calloc nmemb size: whether there is memory; none: E * 2 overflows, or what addressCache does
def main (files : Text → Option Text) (calloc : Nat → Nat → Bool) (stack : Text)
    (argv : List Text) : Option Output :=
  match getInput files argv with
  | none => none
  | some (.error text) => some ⟨text,none⟩
  | some (.ok (c,file)) =>
    if 2 ^ 31 ≤ c.E * 2 ∨ c.E * 2 < -2 ^ 31 then none
    else
      let granted := calloc (toSizeT c.S) (toSizeT (c.E * 2 * 8))
      (mainLoop granted stack file.length (List.replicate 120 '\x00') file c).map fun c =>
        printSummary c.hitCount c.missCount c.evictionCount

-- 'I  hexaddr,size'
structure InstrLine where
  address : Text
  size : Text
  comma : ',' ∉ address
  oneLine : '\n' ∉ address ++ size

inductive Row where
  | data (l : TraceLine)
  | instr (l : InstrLine)

namespace Row

def text : Row → Text
  | .data l => l.text
  | .instr l => 'I' :: ' ' :: ' ' :: l.address ++ ',' :: l.size

-- line holds the row and str its address
def Short : Row → Prop
  | .data l => l.digits.length ≤ 9 ∧ l.text.length + 1 < 100
  | .instr l => l.address.length ≤ 9 ∧ (text (.instr l)).length + 1 < 100

def access : Row → Option Access
  | .data l => some ⟨l.op,Libc.hexValue l.digits⟩
  | .instr _ => none

end Row

def textOf (rows : List Row) : Text := rows.flatMap fun r => r.text ++ ['\n']

section Loop

variable {s E b n : Nat} {c : State} {r : Reference} {stack line : Text} {row : Row}
  {rows : List Row}

theorem Row.newline_not_mem (row : Row) : '\n' ∉ row.text := by
  cases row with
  | data l => exact l.newline_not_mem
  | instr l =>
    have h := l.oneLine
    simp only [List.mem_append,not_or] at h
    simp [Row.text,h]

theorem mainLoop_cons (hs : row.Short) {granted : Bool} :
    mainLoop granted stack (n + 1) line (textOf (row :: rows)) c =
      let line := storeLine (row.text ++ ['\n']) line
      let call := (readAccess stack (row.text.length + 1) line).val
      (useCache granted call.1 call.2 c).bind (mainLoop granted stack n line (textOf rows)) := by
  have hlen : row.text.length + 1 < 100 := by cases row <;> exact hs.2
  have hf : textOf (row :: rows) = row.text ++ '\n' :: textOf rows := by simp [textOf]
  have hg : Libc.fgets 99 (row.text ++ '\n' :: textOf rows) = (row.text ++ ['\n'],textOf rows) :=
    Libc.fgets_line row.newline_not_mem (by omega)
  rw [mainLoop,hf,if_neg (by simp),hg]
  simp only [List.length_append,List.length_singleton]

theorem useCache_granted (action : Char) (address : Int) (c : State) :
    useCache true action address c = Ints.addressCache action address c :=
  if_neg fun h => Bool.noConfusion h.1

theorem Sound.turn (h : Sound s E b c r) (hsb : s + b ≤ 30) (h0 : 0 < E) (hs : row.Short)
    (hh : ∀ a ∈ row.access, a.Held s E b) (stack line : Text) :
    let call := (readAccess stack (row.text.length + 1) (storeLine (row.text ++ ['\n']) line)).val
    ∃ c', useCache true call.1 call.2 c = some c' ∧
      Sound s E b c' (row.access.toList.foldl (Reference.step s E b) r) := by
  cases row with
  | data l =>
    obtain ⟨hv,-⟩ := (l.read_iff line).mpr hs.1 stack
    obtain ⟨c',hc,-,hr⟩ := h.call hsb h0 (Access.held_call.mpr (hh _ rfl))
    have hcall := Reference.call_eq s E b r ⟨l.op,Libc.hexValue l.digits⟩
    refine ⟨c',?_,(congrArg (Sound s E b c') hcall).mp hr⟩
    rw [useCache_granted]
    change Ints.addressCache (l.read stack line).val.1 (l.read stack line).val.2 c = _
    rw [hv]
    exact hc
  | instr l =>
    intro call
    have hn : ¬ (call.1 = 'L' ∨ call.1 = 'M' ∨ call.1 = 'S') := by rintro (h | h | h) <;> cases h
    have hh : Csim.Held s E b call := fun ha => absurd ha hn
    obtain ⟨c',hc,-,hr⟩ := h.call hsb h0 hh
    refine ⟨c',(useCache_granted ..).trans hc,?_⟩
    rw [Reference.call,Reference.serve,if_neg (by tauto),if_neg (by tauto)] at hr
    exact hr

theorem Sound.loop (h : Sound s E b c r) (hsb : s + b ≤ 30) (h0 : 0 < E)
    (hs : ∀ row ∈ rows, row.Short) (hh : ∀ a ∈ rows.filterMap Row.access, a.Held s E b)
    (hn : (textOf rows).length ≤ n) (stack line : Text) :
    ∃ c', mainLoop true stack n line (textOf rows) c = some c' ∧
      Sound s E b c' ((rows.filterMap Row.access).foldl (Reference.step s E b) r) := by
  induction rows generalizing n line c r with
  | nil =>
    refine ⟨c,?_,h⟩
    cases n <;> rfl
  | cons row rows ih =>
    obtain ⟨hs,hss⟩ := List.forall_mem_cons.mp hs
    have hlen : (textOf (row :: rows)).length = row.text.length + 1 + (textOf rows).length := by
      rw [textOf,List.flatMap_cons,List.length_append,List.length_append]
      rfl
    obtain ⟨n,rfl⟩ : ∃ m, n = m + 1 := ⟨n - 1,by omega⟩
    have hrow : ∀ a ∈ row.access, a.Held s E b := fun a ha =>
      hh a (List.mem_filterMap.mpr ⟨row,List.mem_cons_self,ha⟩)
    have hrows : ∀ a ∈ rows.filterMap Row.access, a.Held s E b := fun a ha => by
      obtain ⟨row',hm,ha⟩ := List.mem_filterMap.mp ha
      exact hh a (List.mem_filterMap.mpr ⟨row',List.mem_cons_of_mem _ hm,ha⟩)
    obtain ⟨c1,hc,hr⟩ := h.turn hsb h0 hs hrow stack line
    obtain ⟨c2,hc2,hr2⟩ :=
      @ih n c1 _ hr hss hrows (by omega) (storeLine (row.text ++ ['\n']) line)
    refine ⟨c2,?_,?_⟩
    · rw [mainLoop_cons hs]
      dsimp only
      rw [hc]
      exact hc2
    · rw [List.filterMap_cons]
      cases ha : row.access <;> rw [ha] at hr2 <;> exact hr2

theorem expect_word {c : Char} {arg : Text} {rest : List Text} (hc : c ≠ '-')
    (ho : Libc.optionOf optstring c = some true) :
    expect c ⟨[],['-',c] :: arg :: rest⟩ = some (arg,⟨[],rest⟩) := by
  rw [expect,Libc.getopt_word hc ho]
  exact if_pos rfl

theorem powTwo_eq (hs : s ≤ 30) : powTwo s = some (2 ^ s) := by
  rw [powTwo,if_neg (by omega),if_pos (by omega),Int.toNat_natCast]

end Loop

theorem hex_of_all {digits : Text} (h : digits.all (fun c => Libc.digitOf c < 16) = true) :
    digits ∈ Libc.digitsOf 16 := List.all_eq_true.mp h

theorem load_isOp : 'L' = 'L' ∨ 'L' = 'S' ∨ 'L' = 'M' := .inl rfl

theorem newline_notMem_eight : '\n' ∉ ['8'] := by decide

def twoReads : List Row :=
  [.instr ⟨"00400000".toList,['4'],by decide,by decide⟩,
    .data ⟨'L',['1','0'],['4'],load_isOp,hex_of_all (by decide),List.cons_ne_nil _ _,by decide,
      by decide⟩,
    .data ⟨'M',['1','8'],['8'],.inr (.inr rfl),hex_of_all (by decide),List.cons_ne_nil _ _,by decide,
      newline_notMem_eight⟩]

end Csim
