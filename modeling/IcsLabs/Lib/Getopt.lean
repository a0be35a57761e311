import IcsLabs.Lib.Libc

namespace Libc

abbrev Text := List Char

-- what getopt has yet to read: the rest of a word of options, and the words after it
structure Args where
  cluster : Text
  rest : List Text

-- whether an option takes an argument, none where it is not listed
def optionOf (optstring : Text) (c : Char) : Option Bool :=
  if c = ':' then none
  else
    match optstring.dropWhile (· ≠ c) with
    | [] => none
    | _ :: ':' :: _ => some true
    | _ :: _ => some false

-- the words that are no options are passed over; -- ends the options
def nextCluster : List Text → Option Args
  | [] => none
  | ('-' :: c :: cs) :: rest => if c = '-' ∧ cs = [] then none else some ⟨c :: cs,rest⟩
  | _ :: rest => nextCluster rest

-- the option with its argument, none for -1
def getopt (optstring : Text) (a : Args) : Option (Char × Text) × Args :=
  match if a.cluster = [] then nextCluster a.rest else some a with
  | some ⟨c :: cs,rest⟩ =>
    match optionOf optstring c, cs, rest with
    | none, cs, rest => (some ('?',[]),⟨cs,rest⟩)
    | some false, cs, rest => (some (c,[]),⟨cs,rest⟩)
    | some true, [], [] => (some ('?',[]),⟨[],[]⟩)
    | some true, [], arg :: rest => (some (c,arg),⟨[],rest⟩)
    | some true, cs, rest => (some (c,cs),⟨[],rest⟩)
  | _ => (none,a)

theorem getopt_word {optstring arg : Text} {c : Char} {rest : List Text} (hc : c ≠ '-')
    (ho : optionOf optstring c = some true) :
    getopt optstring ⟨[],['-',c] :: arg :: rest⟩ = (some (c,arg),⟨[],rest⟩) := by
  rw [getopt,if_pos rfl,nextCluster,if_neg fun h => hc h.1]
  simp only [ho]

end Libc
