import Mathlib.Data.List.Basic
import Ember.Command.Directory

namespace Ember.Directory

variable {d d' : Directory} {place place' : List String} {path : String} {node : DirectoryNode}
  {content content' : Content} {source : Source}

/-- A path to a place that only looks like a directory has a name of its own. -/
theorem isKnownDirectory_of_file (h : d.node? place = some (.file content)) :
    isKnownDirectory place = false := by
  refine Bool.eq_false_iff.2 fun hknown => ?_
  rw [node?, if_pos hknown] at h
  cases h

/-- Putting something at a place changes what is there. -/
theorem node?_put_self (h : d.node? place = some (.file content)) (hnull : place ≠ nullDevice) :
    (d.put place node).node? place = some node := by
  have hnone : (d.nodes.filter (·.1 != place)).find? (·.1 == place) = none := by
    simp [List.find?_eq_none]
  rw [node?, if_neg (by simp [isKnownDirectory_of_file h]), if_neg hnull, put, List.find?_append,
    hnone]
  simp

/-- Putting something at a place changes nothing elsewhere. -/
theorem node?_put_of_ne (h : place' ≠ place) : (d.put place node).node? place' = d.node? place' := by
  have hfind : (d.nodes.filter (·.1 != place) ++ [(place, node)]).find? (·.1 == place') =
      d.nodes.find? (·.1 == place') := by
    rw [List.find?_append, List.find?_filter]
    have hhere : List.find? (fun a => a.1 == place') [(place, node)] = none := by
      simp [Ne.symm h]
    rw [hhere, Option.or_none]
    refine congrArg (d.nodes.find? ·) (funext fun a => ?_)
    by_cases ha : a.1 = place' <;> simp [ha, h]
  simp only [node?, put, hfind]

/-- The same places are directories, and the same are files, whatever these hold. -/
def SameKinds (d d' : Directory) : Prop :=
  ∀ place, d'.node? place = d.node? place ∨
    ∃ content content', d.node? place = some (.file content) ∧
      d'.node? place = some (.file content')

/-- Another content of a file leaves all places of the same kind. -/
theorem sameKinds_put (h : d.node? place = some (.file content)) (hnull : place ≠ nullDevice)
    (content' : Content) : SameKinds d (d.put place (.file content')) := by
  intro place'
  by_cases hplace : place' = place
  · subst hplace
    exact .inr ⟨content, content', h, node?_put_self h hnull⟩
  · exact .inl (node?_put_of_ne hplace)

theorem SameKinds.walk_eq (h : SameKinds d d') :
    ∀ (names : List String) (place : List String), d'.walk place names = d.walk place names
  | [], _ => rfl
  | name :: rest, place => by
    rw [walk, walk]
    rcases h place with hsame | ⟨content, content', hfile, hfile'⟩
    · rw [hsame]
      simp only [h.walk_eq rest]
    · rw [hfile, hfile']

theorem SameKinds.resolve_eq (h : SameKinds d d') (path : String) :
    d'.resolve path = d.resolve path := by
  simp only [resolve, h.walk_eq]

/-- What a path that holds a file leads to. -/
theorem exists_place_of_look (h : d.look path = .ok (.file source)) :
    ∃ place content, d.resolve path = .ok place ∧ d.node? place = some (.file content) ∧
      content.source = source := by
  unfold look at h
  cases hplace : d.resolve path with
  | error e =>
    rw [hplace] at h
    cases h
  | ok place =>
    rw [hplace] at h
    dsimp only [bind, Except.bind] at h
    split at h
    · cases h
    · rename_i content hnode
      cases h
      exact ⟨place, content, rfl, hnode, rfl⟩
    · cases h

theorem look_of_resolve (hplace : d.resolve path = .ok place)
    (hnode : d.node? place = some (.file content)) : d.look path = .ok (.file content.source) := by
  unfold look
  rw [hplace]
  dsimp only [bind, Except.bind]
  rw [hnode]
  rfl

/-- Names that end in an empty one lead to directories only. -/
theorem directory_of_walk : ∀ (names start : List String),
    d.walk start (names ++ [""]) = .ok place → d.node? place = some .directory
  | [], start, h => by
    rw [List.nil_append, walk] at h
    split at h
    · cases h
    · cases h
    · rename_i hnode
      rw [if_pos (.inl rfl), walk] at h
      cases h
      exact hnode
  | name :: rest, start, h => by
    rw [List.cons_append, walk] at h
    split at h
    · cases h
    · cases h
    · split at h
      · exact directory_of_walk rest _ h
      split at h
      · exact directory_of_walk rest _ h
      split at h
      · cases h
      · exact directory_of_walk rest _ h

/-- A path that leads to a file ends in the name of the file. -/
theorem names_ne_of_file {start : List String} (hwalk : d.walk start (Path.names path) = .ok place)
    (hnode : d.node? place = some (.file content)) :
    ((Path.names path).reverse.dropWhile (· == "")).reverse = Path.names path ∧
      path.endsWith "/" = false := by
  have hlast : ∀ names, Path.names path ≠ names ++ [""] := by
    intro names hnames
    rw [hnames] at hwalk
    rw [directory_of_walk names start hwalk] at hnode
    cases hnode
  constructor
  · rcases List.eq_nil_or_concat' (Path.names path) with hnil | ⟨names, name, hnames⟩
    · rw [hnil]
      rfl
    · have hname : name ≠ "" := fun h => hlast names (h ▸ hnames)
      rw [hnames, List.reverse_concat, List.dropWhile_cons_of_neg (by simpa using hname),
        ← List.reverse_concat, List.reverse_reverse]
  · refine Bool.eq_false_iff.2 fun hends => ?_
    rw [← String.endsWith_toSlice, String.Slice.endsWith_string_iff, String.copy_toSlice] at hends
    obtain ⟨before, hbefore⟩ := hends
    refine hlast ((before.splitOn '/').map String.ofList) ?_
    rw [Path.names, ← hbefore, show ("/" : String).toList = ['/'] from rfl,
      List.splitOn_append_cons_self, List.splitOn_nil, List.map_append]
    rfl

/-- Writing to a file that is there. -/
theorem write_of_file (hplace : d.resolve path = .ok place)
    (hnode : d.node? place = some (.file content)) (content' : Content) :
    d.write path content' = .ok (d.put place (.file content')) := by
  unfold resolve at hplace
  unfold write
  cases horigin : origin path with
  | error e =>
    rw [horigin] at hplace
    cases hplace
  | ok start =>
    rw [horigin] at hplace
    have hwalk : d.walk start (Path.names path) = .ok place := hplace
    obtain ⟨hnames, hends⟩ := names_ne_of_file hwalk hnode
    change (d.walk start ((Path.names path).reverse.dropWhile (· == "")).reverse >>= fun place =>
      if path.endsWith "/" || d.node? place = some .directory then _ else _) = _
    rw [hnames, hwalk]
    change (if path.endsWith "/" || d.node? place = some .directory then _ else _) = _
    rw [hends, hnode]
    simp
    rfl

end Ember.Directory
