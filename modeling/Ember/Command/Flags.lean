import Ember.Text.Quoted

namespace Ember

/-- An option of a command. -/
structure Flag where
  name : String
  isSwitch : Bool
  help : String

/-- The options of a command, in the order of their names. -/
structure FlagSet where
  command : String
  flags : List Flag

/-- The options that were given, the latest first, and the arguments after them. -/
structure Options where
  values : List (String × String)
  rest : List String

/-- Why options cannot be read: a mistake, or a request for help. -/
inductive FlagError where
  | bad (message : String)
  | help

namespace FlagSet

/-- How to use the options of a command. -/
def usage (set : FlagSet) : String :=
  "Usage of " ++ set.command ++ ":\n" ++ String.join (set.flags.map fun f =>
    "  -" ++ f.name ++ (if f.isSwitch then "" else " string") ++ "\n    \t" ++ f.help ++ "\n")

/-- The texts for true and false. -/
def truth? (text : String) : Option Bool :=
  if ["1", "t", "T", "TRUE", "true", "True"].contains text then some true
  else if ["0", "f", "F", "FALSE", "false", "False"].contains text then some false
  else none

/-- Splits `name=value` at the first equals sign behind the first character. -/
def splitValue : List Char → List Char × Option (List Char)
  | [] => ([], none)
  | c :: rest =>
    match rest.dropWhile (· != '=') with
    | [] => (c :: rest, none)
    | _ :: value => (c :: rest.takeWhile (· != '='), some value)

/-- The name in an argument that gives an option, without the one or two dashes before it;
`none` for other arguments. -/
def dashed? (arg : String) : Option (List Char) :=
  match arg.toList with
  | '-' :: '-' :: name => some name
  | '-' :: c :: name => some (c :: name)
  | _ => none

/-- Reads options up to the first argument that is none, or past `--`. -/
def parse (set : FlagSet) (values : List (String × String)) :
    List String → Except FlagError Options
  | [] => .ok ⟨values, []⟩
  | "--" :: rest => .ok ⟨values, rest⟩
  | arg :: rest =>
    match dashed? arg with
    | none => .ok ⟨values, arg :: rest⟩
    | some text =>
      if text.head? = none ∨ text.head? = some '-' ∨ text.head? = some '=' then
        .error (.bad ("bad flag syntax: " ++ arg))
      else
        let (name, value) := splitValue text
        let name := String.ofList name
        let value := value.map String.ofList
        match set.flags.find? (·.name == name) with
        | none =>
          if name = "help" ∨ name = "h" then .error .help
          else .error (.bad ("flag provided but not defined: -" ++ name))
        | some flag =>
          if flag.isSwitch then
            let value := value.getD "true"
            match truth? value with
            | some b => parse set ((name, toString b) :: values) rest
            | none =>
              .error (.bad ("invalid boolean value " ++ Text.quote value ++ " for -" ++ name ++
                ": parse error"))
          else
            match value with
            | some value => parse set ((name, value) :: values) rest
            | none =>
              match rest with
              | next :: rest => parse set ((name, next) :: values) rest
              | [] => .error (.bad ("flag needs an argument: -" ++ name))

end FlagSet

namespace Options

/-- The value given for an option, empty without one. -/
def value (o : Options) (name : String) : String := (o.values.lookup name).getD ""

/-- The switch is on. -/
def isOn (o : Options) (name : String) : Bool := o.values.lookup name == some "true"

end Options

end Ember
