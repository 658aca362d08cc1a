namespace Ember.Text

/-- The first replacement whose key starts the text, with what follows the key. -/
def matchKey (pairs : List (List Char × List Char)) (text : List Char) :
    Option (List Char × List Char) :=
  pairs.findSome? fun (key, value) =>
    if key.isPrefixOf text then some (value, text.drop key.length) else none

/-- Replaces keys from left to right while `text` is not longer than the first argument. -/
def substituteWithin (pairs : List (List Char × List Char)) :
    List Char → List Char → List Char
  | [], text => text
  | _ :: room, text =>
    match matchKey pairs text with
    | some (value, rest) => value ++ substituteWithin pairs room rest
    | none =>
      match text with
      | [] => []
      | c :: rest => c :: substituteWithin pairs room rest

/-- Replaces every key in `text` by its value. Of several keys at one place the first listed
wins, and a replacement is not searched again. No key may be empty. -/
def substitute (pairs : List (List Char × List Char)) (text : List Char) : List Char :=
  substituteWithin pairs text text

/-- Puts a named value before the first one with a name that is not smaller. -/
def insertByName (value : String × String) : List (String × String) → List (String × String)
  | [] => [value]
  | other :: rest =>
    if other.1 < value.1 then other :: insertByName value rest else value :: other :: rest

/-- Fills the placeholders `{name}` of a template. Names without a value stay as they are. -/
def fill (template : String) (values : List (String × String)) : String :=
  let pairs := (values.foldr insertByName []).map fun (name, value) =>
    ("\x7b".toList ++ name.toList ++ "\x7d".toList, value.toList)
  String.ofList (substitute pairs template.toList)

end Ember.Text
