import Ember.Text.Percent
import Ember.Text.Quoted

namespace Ember

open Text (Percent)

/-- Why a query cannot be read. -/
inductive QueryError where
  | semicolon
  | escape (text : Source)
  deriving DecidableEq

def QueryError.message : QueryError → String
  | semicolon => "invalid semicolon separator in query"
  | escape text => "invalid URL escape " ++ Text.quoteSource text

/-- The parameters of a query, `name=value` with `&` between them, in their order. -/
structure Query where
  parameters : List (Source × Source)
  deriving DecidableEq

namespace Query

def empty : Query := ⟨[]⟩

/-- The text that a name or a value stands for. A plus sign is a space. -/
def decode (text : Source) : Except QueryError Source :=
  match Percent.fault? text with
  | some fault => .error (.escape fault)
  | none =>
    .ok (Percent.toSource ((Percent.ofSource text).map fun p =>
      if p = Percent.mark '+' then Percent.mark ' ' else p))

/-- Splits `name=value` at the first equals sign. -/
def parameter (text : Source) : Except QueryError (Source × Source) := do
  let name ← decode (text.takeWhile (· != .char '='))
  let value ← decode (text.dropWhile (· != .char '=')).tail
  return (name, value)

/-- Reads a query. A semicolon anywhere is the first thing reported. -/
def parse (text : Source) : Except QueryError Query :=
  if text.contains (.char ';') then .error .semicolon
  else return ⟨← ((text.splitOn (.char '&')).filter (· != [])).mapM parameter⟩

/-- The values given for a name. -/
def values (q : Query) (name : String) : List Source :=
  (q.parameters.filter (·.1 == Source.ofString name)).map (·.2)

/-- The first value given for a name, empty without one. -/
def value (q : Query) (name : String) : Source := (q.values name).headD []

end Query

end Ember
