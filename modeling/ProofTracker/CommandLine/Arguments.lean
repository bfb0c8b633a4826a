/-!
# Arguments

An argument is an option or a word. A long option is its name behind two dashes; short ones are
letters behind one dash, several of which may be run together. A value stands behind an equals sign,
behind the letter, or in the next argument, which must not look like an option then. Two dashes
alone end the options.
-/

namespace ProofTracker.CommandLine

/-- An option. -/
structure Opt where
  name : String
  /-- The letter, if there is one. -/
  letter : Option Char := none
  /-- Whether a value belongs to it. -/
  takesValue : Bool := false
  /-- Whether it may be given more than once. -/
  repeatable : Bool := false
deriving DecidableEq, Repr

/-- An argument that has been understood. -/
inductive Arg where
  | flag (name : String)
  | value (name value : String)
  | word (w : String)
deriving DecidableEq, Repr

/-- Why arguments are not carried out. -/
inductive Stop where
  /-- They make no sense. -/
  | refused
  | help
  | version
deriving DecidableEq, Repr

/-- The options that ask for something else than to carry out a command. -/
def Opt.stop? (o : Opt) : Option Stop :=
  match o.name with
  | "help" => some .help
  | "version" => some .version
  | _ => none

/-- What an argument gives: options, and perhaps one whose value is the next argument. -/
abbrev Given := List Arg × Option Opt

/-- Takes an option without a value, or leaves its value open. -/
def Opt.take (o : Opt) : Except Stop Given :=
  match o.stop? with
  | some s => .error s
  | none => .ok (if o.takesValue then ([], some o) else ([.flag o.name], none))

/-- Takes the long option with the given name, and the value behind it, if there is one. -/
def long (opts : List Opt) (name : List Char) (value : Option (List Char)) : Except Stop Given := do
  let some o := opts.find? (·.name.toList = name) | throw .refused
  match value with
  | none => o.take
  | some v => if o.takesValue then return ([.value o.name (.ofList v)], none) else throw .refused

/-- Takes a run of short options. What follows an option with a value is its value. -/
def short (opts : List Opt) : List Char → Except Stop Given
  | [] => .ok ([], none)
  | c :: s => do
    let some o := opts.find? (·.letter = some c) | throw .refused
    match o.takesValue, s with
    | true, [] => o.take
    | true, '=' :: v | true, v => return ([.value o.name (.ofList v)], none)
    | false, _ =>
      let (here, _) ← o.take
      let (rest, last) ← short opts s
      return (here ++ rest, last)

/-- Whether the argument looks like an option. A dash alone does not. -/
def looksLikeOption (a : String) : Bool :=
  a.startsWith "-" && a ≠ "-"

/-- Takes the options of one level. Words are taken too if `words` says so; otherwise the first one
ends the level, and the rest starts with it. -/
def scan (opts : List Opt) (words : Bool) (args : List String) :
    Except Stop (List Arg × List String) :=
  match args with
  | [] => .ok ([], [])
  | a :: rest => do
    let given ← match a.toList with
      | ['-', '-'] => if words then return (rest.map .word, []) else throw .refused
      | '-' :: '-' :: s =>
        let (name, value) := s.span (· ≠ '=')
        long opts name value.tail?
      | '-' :: c :: s => short opts (c :: s)
      | _ => if words then pure ([.word a], none) else return ([], a :: rest)
    match given, rest with
    | (here, none), rest =>
      let (more, rest) ← scan opts words rest
      return (here ++ more, rest)
    | (here, some o), v :: rest =>
      if looksLikeOption v then throw .refused
      let (more, rest) ← scan opts words rest
      return (here ++ .value o.name v :: more, rest)
    | (_, some _), [] => throw .refused
termination_by args.length

/-! ### Looking things up -/

/-- Whether the flag is given. -/
def hasFlag (args : List Arg) (name : String) : Bool :=
  args.contains (.flag name)

/-- The values of the option, in order. -/
def values (args : List Arg) (name : String) : List String :=
  args.filterMap fun
    | .value n v => if n = name then some v else none
    | _ => none

/-- The words, in order. -/
def wordsOf (args : List Arg) : List String :=
  args.filterMap fun
    | .word w => some w
    | _ => none

/-- How often the option is given. -/
def occurrences (args : List Arg) (name : String) : Nat :=
  args.count (.flag name) + (values args name).length

/-- Takes the arguments of one level, in which options are repeated only if they may be. -/
def level (opts : List Opt) (words : Bool) (args : List String) :
    Except Stop (List Arg × List String) := do
  let (here, rest) ← scan opts words args
  unless opts.all fun o => o.repeatable || occurrences here o.name ≤ 1 do throw .refused
  return (here, rest)

end ProofTracker.CommandLine
