import Roundoff.Numeral.Read

/-! # Command-line arguments

The options of the command line and how they may be spelled.  A long option may be shortened as
long as only one option starts that way, and takes its value after `=` or as the next argument.
Short options may share one dash; the first of them that takes a value takes all that follows it.
An argument that starts with a dash is still a value if it reads as a negative number or holds a
blank, and every argument after `--` is a value.  Two dashes attached to an option are no value:
the option is then given without one.
-/
namespace Roundoff.CommandLine

/-- The options. -/
inductive Opt where
  | help
  | expression
  | json
  | trace
  | digits
  | maxDepth
  | verbose
  deriving DecidableEq, Repr

namespace Opt

/-- The option takes a value. -/
def takesValue : Opt → Bool
  | expression => true
  | digits => true
  | maxDepth => true
  | _ => false

end Opt

/-- The spellings of the options. -/
def spellings : List (String × Opt) := [
  ("-h", .help), ("--help", .help), ("-e", .expression), ("--expression", .expression),
  ("--json", .json), ("--trace", .trace), ("--digits", .digits), ("--max-depth", .maxDepth),
  ("-v", .verbose), ("--verbose", .verbose)]

/-- The option with an exact spelling. -/
def spelled? (spelling : List Char) : Option Opt :=
  (spellings.find? fun s => s.1.toList == spelling).map (·.2)

/-- The spelling is that of a long option. -/
def isLong : List Char → Bool
  | '-' :: '-' :: _ => true
  | _ => false

/-- What an argument is. -/
inductive Word where
  /-- A value. -/
  | value (text : String)
  /-- The mark after which everything is a value. -/
  | separator
  /-- A long option and the text attached to it. -/
  | long (opt : Opt) (attached : Option (List Char))
  /-- A short option and the text attached to it. -/
  | short (opt : Opt) (attached : Option (List Char))
  /-- Something that looks like an option and is none. -/
  | unknown
  deriving DecidableEq, Repr

/-- The text reads as a negative number: a dash and digits, possibly with a point before the
last ones. -/
def isNegativeNumber : List Char → Bool
  | '-' :: cs =>
    let isDigit (c : Char) : Bool := (Text.digitValue? c).isSome
    let cs := if cs.getLast? = some '\n' then cs.dropLast else cs
    match cs.dropWhile isDigit with
    | [] => !cs.isEmpty
    | '.' :: fraction => !fraction.isEmpty && fraction.all isDigit
    | _ => false
  | _ => false

/-- The part before an equals sign and the part after it. -/
def splitEquals? (cs : List Char) : Option (List Char × List Char) :=
  match cs.dropWhile (· != '=') with
  | '=' :: rest => some (cs.takeWhile (· != '='), rest)
  | _ => none

/-- The word for an option in the spelling that was used. -/
def Word.ofSpelling (spelling : List Char) (opt : Opt) (attached : Option (List Char)) : Word :=
  if isLong spelling then .long opt attached else .short opt attached

/-- An option spelled in full, possibly with a text attached after an equals sign. -/
def inFull? (cs : List Char) : Option Word :=
  match spelled? cs with
  | some opt => some (.ofSpelling cs opt none)
  | none =>
    (splitEquals? cs).bind fun (s, v) => (spelled? s).map fun opt => .ofSpelling s opt (some v)

/-- The options that an argument may stand for if it spells none in full: a long one shortened,
or a short one with a text right after its letter. -/
def candidates (cs : List Char) : List Word :=
  if isLong cs then
    let (spelling, attached) := match splitEquals? cs with
      | some (s, v) => (s, some v)
      | none => (cs, none)
    (spellings.filter fun s => spelling.isPrefixOf s.1.toList).map fun s => .long s.2 attached
  else (spelled? (cs.take 2)).toList.map fun opt => .short opt (some (cs.drop 2))

/-- An argument that spells no option. -/
def nonOption (argument : String) : Word :=
  if isNegativeNumber argument.toList || argument.toList.contains ' ' then .value argument
  else .unknown

/-- What an argument is, unless it is a shortened spelling of several options. -/
def classify? (argument : String) : Option Word :=
  let cs := argument.toList
  if cs.head? ≠ some '-' ∨ cs.length = 1 then some (.value argument)
  else
    match inFull? cs with
    | some w => some w
    | none =>
      match candidates cs with
      | [w] => some w
      | _ :: _ :: _ => none
      | [] => some (nonOption argument)

/-- What the arguments are; an ambiguous one makes them unusable. -/
def classifyAll? : List String → Option (List Word)
  | [] => some []
  | "--" :: rest => some (.separator :: rest.map .value)
  | a :: rest => do
    let w ← classify? a
    let ws ← classifyAll? rest
    return w :: ws

/-- What the command line asks for.  An option that takes a value may be given without one. -/
structure Request where
  expressions : List (Option String) := []
  json : Bool := false
  trace : Bool := false
  digits : Option Int := some 60
  maxDepth : Option (Option Int) := none
  verbose : Bool := false
  deriving DecidableEq, Repr

/-- What comes of reading the arguments. -/
inductive Parsed where
  /-- The help is shown, and nothing else is done. -/
  | help
  /-- The arguments are not usable. -/
  | misuse
  /-- The arguments make a request. -/
  | request (request : Request)
  deriving DecidableEq, Repr

/-- The number that a value is; the outer option is empty if the value is not a number. -/
def number? : Option String → Option (Option Int)
  | none => some none
  | some text => (Numeral.readPiece? text.toList).map some

/-- Add an option with its value to a request; `none` if the value is not usable. -/
def Request.add? (r : Request) (opt : Opt) (value : Option String) : Option Request :=
  match opt with
  | .help => some r
  | .expression => some { r with expressions := r.expressions ++ [value] }
  | .json => some { r with json := true }
  | .trace => some { r with trace := true }
  | .verbose => some { r with verbose := true }
  | .digits => (number? value).map fun n => { r with digits := n }
  | .maxDepth => (number? value).map fun n => { r with maxDepth := some n }

/-- Options that were read together, each with its value, and the words after them. -/
structure Group where
  options : List (Opt × Option String)
  rest : List Word

/-- The value that a text attached to an option is. -/
def attachedValue (cs : List Char) : Option String :=
  if cs = ['-', '-'] then none else some (String.ofList cs)

/-- An option without a text attached to it, which takes the next argument if it needs a value. -/
def alone? (opt : Opt) (rest : List Word) : Option Group :=
  if opt.takesValue then
    match rest with
    | .value v :: rest => some { options := [(opt, some v)], rest := rest }
    | _ => none
  else some { options := [(opt, none)], rest := rest }

/-- An option that takes the whole text attached to it as its value. -/
def whole? (opt : Opt) (cs : List Char) (rest : List Word) : Option Group :=
  if opt.takesValue then some { options := [(opt, attachedValue cs)], rest := rest } else none

/-- The options that share one dash, from one of them and what follows its letter.  As long as
they take no value, every further letter has to be an option. -/
def joined? (opt : Opt) : List Char → List Word → Option Group
  | [], rest => alone? opt rest
  | c :: cs, rest =>
    if opt.takesValue then whole? opt (c :: cs) rest
    else
      (spelled? ['-', c]).bind fun next =>
        (joined? next cs rest).map fun g => { g with options := (opt, none) :: g.options }

/-- A long option with its value. -/
def long? (opt : Opt) (attached : Option (List Char)) (rest : List Word) : Option Group :=
  match attached with
  | none => alone? opt rest
  | some cs => whole? opt cs rest

/-- A short option with its value, or with the options that share its dash. -/
def short? (opt : Opt) (attached : Option (List Char)) (rest : List Word) : Option Group :=
  match attached with
  | none => alone? opt rest
  | some [] => whole? opt [] rest
  | some cs => joined? opt cs rest

/-- Add options to a request one by one, until one asks for help or is not usable. -/
def addAll (r : Request) : List (Opt × Option String) → Except Parsed Request
  | [] => .ok r
  | (opt, value) :: more =>
    if opt = .help then .error .help
    else
      match r.add? opt value with
      | none => .error .misuse
      | some r => addAll r more

theorem length_alone?_le {opt : Opt} {rest : List Word} {g : Group}
    (h : alone? opt rest = some g) : g.rest.length ≤ rest.length := by
  unfold alone? at h
  split at h
  · split at h
    · cases h
      simp
    · simp at h
  · cases h
    simp

theorem length_whole?_le {opt : Opt} {cs : List Char} {rest : List Word} {g : Group}
    (h : whole? opt cs rest = some g) : g.rest.length ≤ rest.length := by
  unfold whole? at h
  split at h
  · cases h
    simp
  · simp at h

theorem length_joined?_le {opt : Opt} {cs : List Char} {rest : List Word} {g : Group}
    (h : joined? opt cs rest = some g) : g.rest.length ≤ rest.length := by
  induction cs generalizing opt g with
  | nil => exact length_alone?_le h
  | cons c cs ih =>
    unfold joined? at h
    split at h
    · exact length_whole?_le h
    · obtain ⟨next, _, hg⟩ := Option.bind_eq_some_iff.1 h
      obtain ⟨g', hg', rfl⟩ := Option.map_eq_some_iff.1 hg
      have := ih hg'
      simpa using this

theorem length_long?_le {opt : Opt} {attached : Option (List Char)} {rest : List Word} {g : Group}
    (h : long? opt attached rest = some g) : g.rest.length ≤ rest.length := by
  unfold long? at h
  split at h
  · exact length_alone?_le h
  · exact length_whole?_le h

theorem length_short?_le {opt : Opt} {attached : Option (List Char)} {rest : List Word} {g : Group}
    (h : short? opt attached rest = some g) : g.rest.length ≤ rest.length := by
  unfold short? at h
  split at h
  · exact length_alone?_le h
  · exact length_whole?_le h
  · exact length_joined?_le h

/-- Read classified arguments; `strays` tells whether something was left over so far.  Leftovers
make the arguments unusable, but only once all options have been read. -/
def readWords (r : Request) (strays : Bool) (words : List Word) : Parsed :=
  match words with
  | [] => if strays then .misuse else .request r
  | .long opt attached :: rest =>
    match h : long? opt attached rest with
    | none => .misuse
    | some g =>
      have : g.rest.length < rest.length + 1 := Nat.lt_succ_of_le (length_long?_le h)
      match addAll r g.options with
      | .error p => p
      | .ok r => readWords r strays g.rest
  | .short opt attached :: rest =>
    match h : short? opt attached rest with
    | none => .misuse
    | some g =>
      have : g.rest.length < rest.length + 1 := Nat.lt_succ_of_le (length_short?_le h)
      match addAll r g.options with
      | .error p => p
      | .ok r => readWords r strays g.rest
  | _ :: rest => readWords r true rest
termination_by words.length

/-- Read the arguments of the command line. -/
def parse (arguments : List String) : Parsed :=
  match classifyAll? arguments with
  | none => .misuse
  | some words => readWords {} false words

end Roundoff.CommandLine
