import EntityGraph.Proofs.Schema.Accepted

/-!
# What types keep of their definitions

A field keeps everything that its definition says: its description, why it is deprecated, its
declared type, its arguments with theirs, and its place in the file. What a definition says is told
here by relations of their own, one for each part of a definition (`DeclaredType.Denotes`,
`Deprecates`, `SourceLocation.IsAt`) and one for each kind of definition (`Parameter.States`,
`Field.States`, `EnumValue.States`). Each conversion gives the one thing that its relation holds of.
Main statement: `Field.states_iff`.
-/

namespace EntityGraph

open Grammar (TypeExpr Directive InputValueDefinition FieldDefinition EnumValueDefinition LastNamed)

/-! ## Dictionaries that are made from definitions -/

namespace Dict

variable {κ ν : Type} [DecidableEq κ]

/-- A dictionary with the keys of another one, and a value made from each of its values. -/
theorem entries_eq_map {d d' : Dict κ ν} {f : κ → ν → ν} (hkeys : d'.keys = d.keys)
    (hfind : ∀ k, d'.find? k = (d.find? k).map (f k)) :
    d'.entries = d.entries.map fun e => (e.1, f e.1 e.2) := by
  have hentries (d : Dict κ ν) :
      d.keys.filterMap (fun k => (d.find? k).map (k, ·)) = d.entries := by
    rw [Dict.keys, List.filterMap_map]
    conv_rhs => rw [← List.filterMap_some (l := d.entries)]
    refine List.filterMap_congr fun e he => ?_
    simp [Dict.find?_eq_some_iff.2 he]
  rw [← hentries d', ← hentries d, hkeys, List.map_filterMap]
  simp only [hfind, Option.map_map]
  rfl

/-- A dictionary is known by its keys in order and by what it has for each of them. -/
theorem eq_of_find? {d d' : Dict κ ν} (hkeys : d'.keys = d.keys)
    (hfind : ∀ k ∈ d.keys, d'.find? k = d.find? k) : d' = d := by
  refine ext ((entries_eq_map (f := fun _ v => v) hkeys fun k => ?_).trans (List.map_id' _))
  rw [Option.map_id']
  by_cases hk : k ∈ d.keys
  · exact hfind k hk
  · rw [find?_eq_none_iff.2 hk, find?_eq_none_iff.2 (hkeys ▸ hk)]

/-- The keys of a dictionary that was filled stand in the order in which they occur first. -/
theorem keys_insertAll {l : List (κ × ν)} {d : Dict κ ν} {s : OrderedSet κ}
    (h : d.keys = s.toList) : (d.insertAll l).keys = (s.insertAll (l.map (·.1))).toList := by
  induction l generalizing d s with
  | nil => exact h
  | cons e l ih =>
    refine ih (s := s.insert e.1) ?_
    rw [keys_insert, OrderedSet.toList_insert, h]
    rfl

/-- Named values are stored in the order in which their names occur first. -/
theorem keys_ofValues (key : ν → κ) (l : List ν) :
    (ofValues key l).keys = (l.map key).eraseDups := by
  rw [ofValues, ofList, keys_insertAll (s := .empty) rfl, List.map_map]
  exact OrderedSet.toList_ofList_eq _

/-- Values that stand for definitions are found under the names of the last definitions. -/
theorem find?_ofDefinitions {ν : Type} {key : ν → Name} {f : InputValueDefinition → ν}
    (hkey : ∀ a, key (f a) = a.name) {l : List InputValueDefinition} {a : InputValueDefinition}
    (h : LastNamed a l) : (ofValues key (l.map f)).find? a.name = some (f a) := by
  obtain ⟨k, hk⟩ := mem_values_iff.1 ((mem_values_ofDefinitions hkey).2 ⟨a, h, rfl⟩)
  rwa [← hkey a, key_of_find?_ofValues hk]

end Dict

/-- Of the definitions of a name there is a last one. -/
theorem exists_lastNamed {l : List InputValueDefinition} {name : Name}
    (h : name ∈ l.map (·.name)) : ∃ a, LastNamed a l ∧ a.name = name := by
  induction l with
  | nil => cases h
  | cons b l ih =>
    by_cases hl : name ∈ l.map (·.name)
    · obtain ⟨a, ⟨before, after, rfl, hafter⟩, ha⟩ := ih hl
      exact ⟨a, ⟨b :: before, after, rfl, hafter⟩, ha⟩
    · obtain rfl : name = b.name := (List.mem_cons.1 h).resolve_right hl
      exact ⟨b, ⟨[], l, rfl, fun c hc hn => hl (hn ▸ List.mem_map_of_mem hc)⟩, rfl⟩

/-! ## Parts of a definition -/

namespace DeclaredType

variable {e : TypeExpr} {t : DeclaredType}

/-- The declared type whose value may not be null, and which is the same inside. -/
def required : DeclaredType → DeclaredType
  | named name _ => named name false
  | list inner _ => list inner false

/-- The declared type that a type reference denotes. What is not marked may be null. -/
inductive Denotes : TypeExpr → DeclaredType → Prop
  | named (name : Name) : Denotes (.named name) (.named name true)
  | list {e : TypeExpr} {t : DeclaredType} : Denotes e t → Denotes (.list e) (.list t true)
  | nonNull {e : TypeExpr} {t : DeclaredType} : Denotes e t → Denotes (.nonNull e) t.required

/-- A mark outside overrules what else would hold of the value. -/
theorem required_ofTypeExprWith (nullable : Bool) (e : TypeExpr) :
    (ofTypeExprWith nullable e).required = ofTypeExprWith false e := by
  induction e generalizing nullable with
  | named | list => rfl
  | nonNull inner ih => exact ih false

/-- A type reference denotes the declared type that it stands for, and no other. -/
theorem denotes_iff : Denotes e t ↔ t = ofTypeExpr e := by
  constructor
  · intro h
    induction h with
    | named name => rfl
    | list _ ih => rw [ih, ofTypeExpr, ofTypeExpr, ofTypeExprWith]
    | @nonNull e t _ ih => rw [ih, ofTypeExpr, required_ofTypeExprWith, ofTypeExpr, ofTypeExprWith]
  · rintro rfl
    induction e with
    | named name => exact .named name
    | list e ih => exact .list ih
    | nonNull e ih =>
      have h : Denotes (.nonNull e) (ofTypeExpr e).required := .nonNull ih
      rwa [ofTypeExpr, required_ofTypeExprWith] at h

end DeclaredType

/-- What the directives say about a deprecation: nothing, if none of them is `@deprecated`; else the
first reason that the first of these gives, or a general one if it gives none. -/
inductive Deprecates : List Directive → Option String → Prop
  | never {ds : List Directive} : (∀ d ∈ ds, d.name ≠ "deprecated") → Deprecates ds none
  | reason {before after : List Directive} {d : Directive} {s : String}
      {others more : List (Name × Grammar.Value)} :
      (∀ d' ∈ before, d'.name ≠ "deprecated") → d.name = "deprecated" →
      d.arguments = others ++ ("reason", .string s) :: more →
      (∀ s', ("reason", .string s') ∉ others) → Deprecates (before ++ d :: after) (some s)
  | unexplained {before after : List Directive} {d : Directive} :
      (∀ d' ∈ before, d'.name ≠ "deprecated") → d.name = "deprecated" →
      (∀ s, ("reason", .string s) ∉ d.arguments) →
      Deprecates (before ++ d :: after) (some "No longer supported")

/-- An argument gives a reason exactly if it is a text of that name. -/
theorem reason?_eq_some_iff {a : Name × Grammar.Value} {s : String} :
    reason? a = some s ↔ a = ("reason", .string s) := by
  constructor
  · intro h
    unfold reason? at h
    split at h
    · cases h
      rfl
    · cases h
  · rintro rfl
    rfl

/-- No argument of a list gives a reason. -/
theorem reason?_eq_none_iff {l : List (Name × Grammar.Value)} :
    (∀ a ∈ l, reason? a = none) ↔ ∀ s, ("reason", .string s) ∉ l := by
  simp only [Option.eq_none_iff_forall_ne_some, ne_eq, reason?_eq_some_iff]
  exact ⟨fun h s hs => h _ hs s rfl, fun h a ha s hs => h s (hs ▸ ha)⟩

section
variable {ds before after : List Directive} {d : Directive}

/-- Without a `@deprecated` nothing is deprecated. -/
theorem deprecation?_of_never (h : ∀ d ∈ ds, d.name ≠ "deprecated") : deprecation? ds = none := by
  have hnone : ds.find? (·.name = "deprecated") = none := List.find?_eq_none.2 (by simpa using h)
  simp [deprecation?, hnone]

/-- The first `@deprecated` decides. -/
theorem deprecation?_of_first (hbefore : ∀ d' ∈ before, d'.name ≠ "deprecated")
    (hd : d.name = "deprecated") : deprecation? (before ++ d :: after) =
      some ((d.arguments.findSome? reason?).getD defaultDeprecation) := by
  have hfirst : (before ++ d :: after).find? (·.name = "deprecated") = some d :=
    List.find?_eq_some_iff_append.2 ⟨by simpa using hd, before, after, rfl, by simpa using hbefore⟩
  simp [deprecation?, hfirst]

/-- What directives say about a deprecation is found, and nothing else is. -/
theorem deprecates_iff {reason : Option String} :
    Deprecates ds reason ↔ deprecation? ds = reason := by
  constructor
  · intro h
    cases h with
    | never h => exact deprecation?_of_never h
    | reason hbefore hd hargs hothers =>
      rw [deprecation?_of_first hbefore hd, List.findSome?_eq_some_iff.2
        ⟨_, _, _, hargs, reason?_eq_some_iff.2 rfl, reason?_eq_none_iff.2 hothers⟩]
      rfl
    | unexplained hbefore hd hnone =>
      rw [deprecation?_of_first hbefore hd,
        List.findSome?_eq_none_iff.2 (reason?_eq_none_iff.2 hnone)]
      rfl
  · rintro rfl
    cases hfind : ds.find? (·.name = "deprecated") with
    | none =>
      have hnever : ∀ d ∈ ds, d.name ≠ "deprecated" := by simpa using List.find?_eq_none.1 hfind
      rw [deprecation?_of_never hnever]
      exact .never hnever
    | some d =>
      obtain ⟨hname, before, after, rfl, hothers⟩ := List.find?_eq_some_iff_append.1 hfind
      have hd : d.name = "deprecated" := by simpa using hname
      have hbefore : ∀ d' ∈ before, d'.name ≠ "deprecated" := by simpa using hothers
      rw [deprecation?_of_first hbefore hd]
      cases hfirst : d.arguments.findSome? reason? with
      | none =>
        exact .unexplained hbefore hd
          (reason?_eq_none_iff.1 (List.findSome?_eq_none_iff.1 hfirst))
      | some s =>
        obtain ⟨others, a, more, hargs, ha, hothers⟩ := List.findSome?_eq_some_iff.1 hfirst
        cases reason?_eq_some_iff.1 ha
        exact .reason hbefore hd hargs (reason?_eq_none_iff.1 hothers)

end

namespace SourceLocation

variable (file : Option SourcePath) (pos : Pos)

/-- The place is the position `pos` of a schema text in `file`. -/
def IsAt : SourceLocation → Prop
  | schema p => p.file = file ∧ p.line = pos.line.toUInt64 ∧ p.col = pos.column.toUInt64
  | builtIn | executable _ => False

/-- A position of a schema text is one place. -/
theorem isAt_iff {l : SourceLocation} : l.IsAt file pos ↔ l = .inSchema file pos := by
  constructor
  · intro h
    cases l with
    | builtIn | executable => cases h
    | schema p =>
      obtain ⟨rfl, hline, hcol⟩ := h
      rw [inSchema, FilePosition.ofPos, ← hline, ← hcol]
  · rintro rfl
    exact ⟨rfl, rfl, rfl⟩

end SourceLocation

/-! ## Definitions -/

section
variable {file : Option SourcePath} {parent : Name}

/-- The argument `p` has what its definition `a` in `file` says. -/
structure Parameter.States (file : Option SourcePath) (a : InputValueDefinition) (p : Parameter) :
    Prop where
  name : p.name = a.name
  description : p.description = a.description
  type : DeclaredType.Denotes a.type p.type
  default : p.default = a.default.map (·.render)
  location : p.location.IsAt file a.pos

/-- A definition says what the argument that it stands for has, and nothing of any other. -/
theorem Parameter.states_iff {a : InputValueDefinition} {p : Parameter} :
    p.States file a ↔ p = .ofDefinition file a := by
  constructor
  · intro h
    exact Parameter.ext ((SourceLocation.isAt_iff ..).1 h.location) h.default h.description h.name
      (DeclaredType.denotes_iff.1 h.type)
  · rintro rfl
    exact ⟨rfl, rfl, DeclaredType.denotes_iff.2 rfl, rfl, (SourceLocation.isAt_iff ..).2 rfl⟩

/-- The field `f` of the type `parent` has what its definition `d` in `file` says. Its arguments
stand in the order in which their names occur first, and of two arguments of one name the last one
counts. -/
structure Field.States (file : Option SourcePath) (parent : Name) (d : FieldDefinition)
    (f : Field) : Prop where
  name : f.name = d.name
  description : f.description = d.description
  deprecation : Deprecates d.directives f.deprecation
  type : DeclaredType.Denotes d.type f.type
  argumentNames : f.parameters.keys = (d.arguments.map (·.name)).eraseDups
  arguments : ∀ a, LastNamed a d.arguments →
    ∃ p, f.parameters.find? a.name = some p ∧ p.States file a
  location : f.location.IsAt file d.pos
  parentName : f.parent.name = parent
  parentLocation : f.parent.location.IsAt file d.pos

/-- The arguments of a field are those that its definition says. -/
theorem Field.parameters_eq {l : List InputValueDefinition} {parameters : Dict Name Parameter}
    (hnames : parameters.keys = (l.map (·.name)).eraseDups)
    (harguments : ∀ a, LastNamed a l →
      ∃ p, parameters.find? a.name = some p ∧ p.States file a) :
    parameters = .ofValues (·.name) (l.map (.ofDefinition file)) := by
  have hkeys : (Dict.ofValues (·.name) (l.map (Parameter.ofDefinition file))).keys =
      (l.map (·.name)).eraseDups := by
    rw [Dict.keys_ofValues, List.map_map]
    rfl
  refine Dict.eq_of_find? (hnames.trans hkeys.symm) fun name hname => ?_
  rw [hkeys, List.mem_eraseDups] at hname
  obtain ⟨a, ha, rfl⟩ := exists_lastNamed hname
  obtain ⟨p, hp, hstates⟩ := harguments a ha
  rw [hp, Dict.find?_ofDefinitions (f := Parameter.ofDefinition file) (fun _ => rfl) ha,
    Parameter.states_iff.1 hstates]

/-- A definition says what the field that it stands for has, and nothing of any other. -/
theorem Field.states_iff {d : FieldDefinition} {f : Field} :
    f.States file parent d ↔ f = .ofDefinition file parent d := by
  constructor
  · intro h
    have hparent : f.parent = ⟨parent, .inSchema file d.pos⟩ := by
      rw [← h.parentName, ← (SourceLocation.isAt_iff ..).1 h.parentLocation]
    exact Field.ext ((SourceLocation.isAt_iff ..).1 h.location)
      (deprecates_iff.1 h.deprecation).symm h.description h.name
      (parameters_eq h.argumentNames h.arguments) hparent (DeclaredType.denotes_iff.1 h.type)
  · rintro rfl
    refine ⟨rfl, rfl, deprecates_iff.2 rfl, DeclaredType.denotes_iff.2 rfl, ?_, fun a ha => ?_,
      (SourceLocation.isAt_iff ..).2 rfl, rfl, (SourceLocation.isAt_iff ..).2 rfl⟩
    · rw [ofDefinition, Dict.keys_ofValues, List.map_map]
      rfl
    · exact ⟨_, Dict.find?_ofDefinitions (f := Parameter.ofDefinition file) (fun _ => rfl) ha,
        Parameter.states_iff.2 rfl⟩

/-- The definition of a field without arguments that says what a definition of an input field
says. -/
def Grammar.InputValueDefinition.asField (a : InputValueDefinition) : FieldDefinition :=
  ⟨a.pos, a.description, a.name, [], a.type, a.directives⟩

/-- An input field is like a field without arguments; its default value is not kept. -/
theorem Field.states_asField_iff {a : InputValueDefinition} {f : Field} :
    f.States file parent a.asField ↔ f = .ofInputValue file parent a :=
  Field.states_iff

/-- The value `v` of the enum `parent` has what its definition `d` in `file` says. -/
structure EnumValue.States (file : Option SourcePath) (parent : Name) (d : EnumValueDefinition)
    (v : EnumValue) : Prop where
  name : v.name = d.name
  description : v.description = d.description
  deprecation : Deprecates d.directives v.deprecation
  location : v.location.IsAt file d.pos
  enumName : v.enumName = parent

/-- A definition says what the enum value that it stands for has, and nothing of any other. -/
theorem EnumValue.states_iff {d : EnumValueDefinition} {v : EnumValue} :
    v.States file parent d ↔ v = .ofDefinition file parent d := by
  constructor
  · intro h
    exact EnumValue.ext ((SourceLocation.isAt_iff ..).1 h.location)
      (deprecates_iff.1 h.deprecation).symm h.description h.enumName h.name
  · rintro rfl
    exact ⟨rfl, rfl, deprecates_iff.2 rfl, (SourceLocation.isAt_iff ..).2 rfl, rfl⟩

end

end EntityGraph
