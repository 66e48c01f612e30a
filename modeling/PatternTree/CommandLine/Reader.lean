import PatternTree.CommandLine.Basic

/-!
# Reading a command line

Arguments are read one after the other, and the first of them that cannot be
accepted, or that asks for the version or for help, settles the matter. The
value of an option is joined to its name by an equals sign or stands in the
argument behind it.

**A pattern may start with a hyphen.** As long as the pattern is still missing,
an argument that looks like an option and is none of the options known there is
taken for an ordinary one. Behind `--` no argument is an option.
-/

namespace PatternTree.CommandLine

/-- What an argument looks like. -/
inductive Shape where
  /-- The mark behind which no argument is an option. -/
  | mark
  /-- The full name of an option, and the value joined to it. -/
  | long (name : String) (value : Option String)
  /-- The letters of short options. -/
  | short (letters : List Char)
  /-- Anything else. -/
  | plain
deriving DecidableEq, Repr

/-- The shape of an argument. -/
def Shape.ofArgument (argument : String) : Shape :=
  match argument.toList with
  | ['-', '-'] => .mark
  | '-' :: '-' :: rest =>
    let (name, value) := rest.span (· ≠ '=')
    .long (String.ofList name)
      (match value with
        | [] => none
        | _ :: value => some (String.ofList value))
  | ['-'] => .plain
  | '-' :: letters => .short letters
  | _ => .plain

/-- How the reading of a command line can end early. -/
inductive Stop where
  /-- The arguments cannot be accepted. -/
  | refused
  /-- The version is asked for. -/
  | version
  /-- Help is asked for. -/
  | help
  /-- Help is asked for, on the topic that the arguments behind name. -/
  | topic
deriving DecidableEq, Repr

/-- **What has been read of a command line so far.** -/
structure Reading where
  /-- The command, once it has been named. -/
  verb : Option Verb := none
  /-- The options in front of it. -/
  outer : Options := []
  /-- The options since then. -/
  given : Options := []
  /-- The pattern, once it has been given. -/
  pattern : Option String := none
  /-- The option whose value is to come next. -/
  awaiting : Option Switch := none
  /-- Whether no argument is an option any more. -/
  marked : Bool := false
deriving Repr

namespace Reading

/-- Takes an option with its value. An option is given once, unless it repeats. -/
def take (r : Reading) (s : Switch) (value : String) : Except Stop Reading :=
  if s.accepts value && (s.repeats || !r.given.has s) then
    .ok { r with given := r.given ++ [(s, value)], awaiting := none }
  else .error .refused

/-- Takes an argument for the name of the command or for the pattern. -/
def takePlace (r : Reading) (argument : String) : Except Stop Reading :=
  match r.verb, Verb.ofName? argument with
  | none, some verb => .ok { r with verb := some verb, outer := r.given, given := [] }
  | none, none => .error (if argument = "help" then .topic else .refused)
  | some _, _ =>
    if r.pattern.isNone then .ok { r with pattern := some argument } else .error .refused

/-- Takes an ordinary argument: a value that is awaited, or else a place. -/
def takePlain (r : Reading) (argument : String) : Except Stop Reading :=
  match r.awaiting with
  | some s => r.take s argument
  | none => r.takePlace argument

/-- Whether the pattern is to come. -/
def lacksPattern (r : Reading) : Bool :=
  r.verb.isSome && r.pattern.isNone

/-- Takes an argument that looks like an option and is none that is known. -/
def takeUnknown (r : Reading) (argument : String) : Except Stop Reading :=
  if r.lacksPattern then r.takePlain argument else .error .refused

/-- Ends the reading early, unless the value of an option is to come next. -/
def stop (r : Reading) (s : Stop) : Except Stop Reading :=
  .error (if r.awaiting.isSome then .refused else s)

/-- Takes an argument that gives an option in full. -/
def takeLong (r : Reading) (argument name : String) (value : Option String) :
    Except Stop Reading :=
  match Switch.ofName? r.verb name with
  | some s =>
    if r.awaiting.isSome then .error .refused
    else
      match s.takesValue, value with
      | true, some value => r.take s value
      | true, none => .ok { r with awaiting := some s }
      | false, none => r.take s ""
      | false, some _ => .error .refused
  | none =>
    if name = "help" || (name = "version" && r.verb.isNone) then
      if value.isSome then .error .refused
      else r.stop (if name = "help" then .help else .version)
    else r.takeUnknown argument

/-- Takes an argument that gives short options. The first letter settles the
matter, but a missing pattern takes letters of which one is unknown. -/
def takeShort (r : Reading) (argument : String) (letters : List Char) :
    Except Stop Reading :=
  if r.lacksPattern && letters.any (· ≠ 'h') then r.takePlain argument
  else
    match letters.head?, r.verb with
    | some 'h', _ => r.stop .help
    | some 'V', none => r.stop .version
    | _, _ => .error .refused

/-- **Takes the next argument.** -/
def step (r : Reading) (argument : String) : Except Stop Reading :=
  if r.marked then r.takePlace argument
  else
    match Shape.ofArgument argument with
    | .mark =>
      if r.awaiting.isSome || r.verb.isNone then .error .refused
      else .ok { r with marked := true }
    | .long name value => r.takeLong argument name value
    | .short letters => r.takeShort argument letters
    | .plain => r.takePlain argument

/-- The call that has been read when no argument is left. -/
def finish (r : Reading) : Except Stop Call :=
  match r.awaiting, r.verb, r.pattern with
  | none, some verb, some pattern => .ok ⟨verb, pattern, r.outer, r.given⟩
  | _, _, _ => .error .refused

end Reading

/-- What comes of asking for help on the topic that the arguments name. -/
def helpOn : List String → Stop
  | [] => .help
  | [name] => if (Verb.ofName? name).isSome || name = "help" then .help else .refused
  | _ => .refused

/-- Takes arguments in order. -/
def readFrom (r : Reading) : List String → Except Stop Call
  | [] => r.finish
  | argument :: rest =>
    match r.step argument with
    | .ok r => readFrom r rest
    | .error .topic => .error (helpOn rest)
    | .error stop => .error stop

/-- **Reads the arguments of the program.** -/
def read (arguments : List String) : Except Stop Call :=
  readFrom {} arguments

end PatternTree.CommandLine
