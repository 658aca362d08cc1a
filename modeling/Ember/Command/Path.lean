namespace Ember.Path

/-- The names of a path between its slashes. -/
def names (path : String) : List String :=
  path.toList.splitOn '/' |>.map String.ofList

/-- One more name behind those that are kept. Two dots take the name before them away, and stay
where there is none, except at the root of all. -/
def follow (rooted : Bool) (kept : List String) (name : String) : List String :=
  if name = "" ∨ name = "." then kept
  else if name = ".." then
    match kept.getLast? with
    | some last => if last = ".." then kept ++ [name] else kept.dropLast
    | none => if rooted then [] else [name]
  else kept ++ [name]

/-- The shortest text of a path. -/
def clean (path : String) : String :=
  let rooted := path.startsWith "/"
  let text := "/".intercalate ((names path).foldl (follow rooted) [])
  if rooted then "/" ++ text else if text = "" then "." else text

/-- Two paths, the second behind the first. -/
def join (first second : String) : String :=
  if first ≠ "" then clean (first ++ "/" ++ second)
  else if second ≠ "" then clean second
  else ""

/-- The path up to its last slash. -/
def directory (path : String) : String :=
  clean (String.ofList (path.toList.reverse.dropWhile (· != '/')).reverse)

/-- The last name of a path. -/
def base (path : String) : String :=
  if path = "" then "."
  else ((names path).reverse.find? (· != "")).getD "/"

/-- What follows the last slash of a path, from its last dot on. -/
def extension (path : String) : String :=
  let name := ((names path).getLast?.getD "").toList
  if name.contains '.' then "." ++ String.ofList (name.reverse.takeWhile (· != '.')).reverse else ""

/-- The text without an ending, if it has it. -/
def withoutEnding (text ending : String) : String :=
  if text.endsWith ending then String.ofList (text.toList.take (text.length - ending.length))
  else text

end Ember.Path
