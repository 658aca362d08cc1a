import Ember.Tree.Outline

namespace Ember.Dot

/-- A character of a label inside quotes: a quote and a backslash take a backslash before
them. -/
def escapeChar : Char → List Char
  | '\\' => ['\\', '\\']
  | '"' => ['\\', '"']
  | c => [c]

def escape (text : String) : String := String.ofList (text.toList.flatMap escapeChar)

/-- The statement that draws a node. -/
def nodeLine (name : Int → String) (e : Entry) : String :=
  "\tnode" ++ toString e.id ++ " [label=\"" ++ escape (e.head.label name) ++ "\"];\n"

/-- The statement that draws the edge from the parent of a node to it. The root has none. -/
def edgeLine (e : Entry) : String :=
  if e.parent < 0 then ""
  else "\tnode" ++ toString e.parent ++ " -> node" ++ toString e.id ++ ";\n"

/-- The graph of a tree: all nodes in pre-order, then all edges. -/
def render (name : Int → String) (entries : List Entry) : String :=
  "digraph ast \x7b\n" ++ "\tnode [shape=box, fontname=\"monospace\"];\n" ++
    String.join (entries.map (nodeLine name)) ++ String.join (entries.map edgeLine) ++ "\x7d\n"

end Ember.Dot

namespace Ember

/-- The program's tree as a graph. -/
def Program.dot (name : Int → String) (p : Program) : String := Dot.render name p.entries

end Ember
