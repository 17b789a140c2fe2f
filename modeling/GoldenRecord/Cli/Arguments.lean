namespace GoldenRecord

namespace Cli

/-- What an option does. A value is accepted or refused on its own. -/
inductive OptionKind where
  | flag
  | single (accepts : String → Bool)
  | repeated (accepts : String → Bool)
  | version
  | help

structure OptionRule where
  long : String
  short : Option Char := none
  kind : OptionKind

/-- What was given: options by long name, a flag with the empty value, and positional values. -/
structure Given where
  options : List (String × String) := []
  positionals : List String := []
deriving Repr

inductive Parsed where
  | given (g : Given)
  | version
  | help
  | usage
deriving Repr

structure Rules where
  options : List OptionRule
  /-- Whether a positional value is accepted. -/
  positional : String → Bool

namespace Given

def values (g : Given) (long : String) : List String :=
  (g.options.filter (·.1 == long)).map (·.2)

def value? (g : Given) (long : String) : Option String := (g.values long).head?

def hasFlag (g : Given) (long : String) : Bool := (g.value? long).isSome

end Given

def looksLikeOption (argument : String) : Bool :=
  match argument.toList with
  | '-' :: _ :: _ => true
  | _ => false

namespace Rules

/-- Records the value of an option, if the option may still be given and accepts it. -/
def record (rule : OptionRule) (value : String) (g : Given) : Option Given :=
  let repeatable := match rule.kind with
    | .repeated _ => true
    | _ => false
  let accepted := match rule.kind with
    | .single accepts => accepts value
    | .repeated accepts => accepts value
    | _ => true
  if accepted && (repeatable || !g.hasFlag rule.long) then
    some { g with options := g.options ++ [(rule.long, value)] }
  else none

/-- What one argument leads to. -/
inductive Step where
  | stop (p : Parsed)
  | more (g : Given)
  | needsValue (rule : OptionRule) (g : Given)

def recordStep (rule : OptionRule) (value : String) (g : Given) : Step :=
  match record rule value g with
  | some g => .more g
  | none => .stop .usage

def long (r : Rules) (body : List Char) (g : Given) : Step :=
  let name := String.ofList (body.takeWhile (· != '='))
  let attached := match body.dropWhile (· != '=') with
    | [] => none
    | _ :: value => some (String.ofList value)
  match r.options.find? (·.long == name) with
  | none => .stop .usage
  | some rule =>
    match rule.kind, attached with
    | .version, none => .stop .version
    | .help, none => .stop .help
    | .flag, none => recordStep rule "" g
    | .version, some _ => .stop .usage
    | .help, some _ => .stop .usage
    | .flag, some _ => .stop .usage
    | _, some value => recordStep rule value g
    | _, none => .needsValue rule g

/-- Short options behind one dash. One that takes a value takes all that follows it. -/
def short (r : Rules) : List Char → Given → Step
  | [], g => .more g
  | c :: rest, g =>
    match r.options.find? (·.short == some c) with
    | none => .stop .usage
    | some rule =>
      match rule.kind with
      | .version => .stop .version
      | .help => .stop .help
      | .flag =>
        match record rule "" g with
        | some g => r.short rest g
        | none => .stop .usage
      | _ =>
        match rest with
        | [] => .needsValue rule g
        | '=' :: value => recordStep rule (String.ofList value) g
        | value => recordStep rule (String.ofList value) g

def addPositional (r : Rules) (value : String) (g : Given) : Option Given :=
  if r.positional value then some { g with positionals := g.positionals ++ [value] } else none

/-- Reads the arguments; `pending` is an option that waits for its value, and after a double dash
everything is positional. -/
def read (r : Rules) (pending : Option OptionRule) (onlyPositional : Bool) (g : Given) :
    List String → Parsed
  | [] => if pending.isSome then .usage else .given g
  | argument :: rest =>
    let positional : Parsed :=
      match r.addPositional argument g with
      | some g => r.read none onlyPositional g rest
      | none => .usage
    if onlyPositional then positional
    else if looksLikeOption argument then
      if pending.isSome then .usage
      else if argument = "--" then r.read none true g rest
      else
        let step := match argument.toList with
          | '-' :: '-' :: body => r.long body g
          | _ :: body => r.short body g
          | [] => .more g
        match step with
        | .stop p => p
        | .more g => r.read none false g rest
        | .needsValue rule g => r.read (some rule) false g rest
    else
      match pending with
      | some rule =>
        match record rule argument g with
        | some g => r.read none false g rest
        | none => .usage
      | none => positional

def parse (r : Rules) (arguments : List String) : Parsed := r.read none false {} arguments

end Rules

def commonOptions : List OptionRule :=
  [⟨"debug", some 'd', .flag⟩, ⟨"version", some 'V', .version⟩, ⟨"help", some 'h', .help⟩]

def isPath (value : String) : Bool := value != ""

end Cli

end GoldenRecord
