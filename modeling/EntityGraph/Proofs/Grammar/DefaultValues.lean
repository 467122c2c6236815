import EntityGraph.Proofs.Grammar.Literals
import EntityGraph.Schema.Definition

/-!
# Default values that are read back

The default value of an argument is kept as the literal of what was read in the schema text. Every
default value that is read is a value from which a literal can be read again
(`Parser.schemaDefinition_keeps`), but for strings with characters that are written in quotes as no
escape of GraphQL. Main statement: `Parameter.default_read`.
-/

namespace EntityGraph

namespace Grammar

/-- The arguments that the fields of a type definition take. -/
def TypeBody.arguments : TypeBody → List InputValueDefinition
  | .object _ fields | .interface _ fields => fields.flatMap (·.arguments)
  | _ => []

/-- The arguments that the fields of a definition of a schema text take. -/
def Definition.arguments : Definition → List InputValueDefinition
  | .type d | .extension d => d.body.arguments
  | _ => []

/-- The default value of an argument, if there is one, was read where brackets may still be opened. -/
def InputValueDefinition.DefaultWritten (a : InputValueDefinition) : Prop :=
  ∀ v, a.default = some v → v.Written 50

namespace Parser

/-- A value. -/
theorem valueWithin_keeps {constant : Bool} {bound : Nat} :
    Keeps Underway (valueWithin constant bound) (Value.Written 50) :=
  keeps_of_sound fun _ => valueWithin_written.imp fun _ hv => hv.mono (Nat.sub_le _ _)

/-- The default value that may follow a type. -/
theorem defaultValue_keeps :
    Keeps Underway defaultValue fun default => ∀ v, default = some v → v.Written 50 := by
  refine (skipPunct_keeps _).bind fun skipped _ => ?_
  cases skipped with
  | true =>
    have hconstant : Keeps Underway constantValue (Value.Written 50) :=
      Leads.get.bind fun _ _ => valueWithin_keeps
    refine hconstant.bind fun v hv => .pure fun v' heq => ?_
    cases heq
    exact hv
  | false => exact .pure (by simp)

/-- The arguments of a directive. -/
theorem arguments_keeps : Keeps Underway arguments fun _ => True := by
  have hargument : Keeps Underway (do let n ← name; punct .colon; return (n, ← value) :
      Parser (Name × Value)) fun _ => True :=
    name_keeps.bind fun _ _ => (punct_keeps _).bind fun _ _ =>
      (Leads.get.bind fun _ _ => valueWithin_keeps).bind fun _ _ => .pure trivial
  exact (group_keeps hargument).imp fun _ _ => trivial

/-- Directives. -/
theorem directives_keeps : Keeps Underway directives fun _ => True := by
  have hdirective : Keeps Underway (do let n ← name; return ⟨n, ← arguments⟩ : Parser Directive)
      fun _ => True := name_keeps.bind fun _ _ => arguments_keeps.bind fun _ _ => .pure trivial
  exact (marked_keeps hdirective).imp fun _ _ => trivial

/-- A description. -/
theorem description_keeps : Keeps Underway description fun _ => True := by
  refine Leads.peek.bind fun l _ => ?_
  split
  · exact next_keeps.bind fun _ _ => .pure trivial
  · exact .pure trivial

/-- An argument definition. -/
theorem inputValue_keeps : Keeps Underway inputValue InputValueDefinition.DefaultWritten :=
  Leads.position.bind fun _ _ => description_keeps.bind fun _ _ => name_keeps.bind fun _ _ =>
    (punct_keeps _).bind fun _ _ => typeExpr_keeps.bind fun _ _ =>
      defaultValue_keeps.bind fun _ hdefault => directives_keeps.bind fun _ _ => .pure hdefault

/-- A field of an object type or an interface. -/
theorem fieldDefinition_keeps : Keeps Underway fieldDefinition fun f =>
    ∀ a ∈ f.arguments, a.DefaultWritten :=
  Leads.position.bind fun _ _ => description_keeps.bind fun _ _ => name_keeps.bind fun _ _ =>
    (group_keeps inputValue_keeps).bind fun _ harguments => (punct_keeps _).bind fun _ _ =>
      typeExpr_keeps.bind fun _ _ => directives_keeps.bind fun _ _ => .pure harguments

/-- A value of an enum. -/
theorem enumValue_keeps : Keeps Underway enumValue fun _ => True :=
  Leads.position.bind fun _ _ => description_keeps.bind fun _ _ => name_keeps.bind fun _ _ =>
    directives_keeps.bind fun _ _ => .pure trivial

/-- The interfaces that a type says it implements. -/
theorem implemented_keeps : Keeps Underway implemented fun _ => True := by
  refine (atKeyword_keeps _).bind fun there _ => ?_
  split
  · exact next_keeps.bind fun _ _ => (divided_keeps name_keeps).imp fun _ _ => trivial
  · exact .pure trivial

/-- The members of a union. -/
theorem members_keeps : Keeps Underway members fun _ => True := by
  refine (skipPunct_keeps _).bind fun there _ => ?_
  split
  · exact (divided_keeps name_keeps).imp fun _ _ => trivial
  · exact .pure trivial

/-- The fields of an object type or an interface, and the arguments that they take. -/
theorem fields_keeps : Keeps Underway (group .openBrace .closeBrace fieldDefinition) fun fields =>
    ∀ a ∈ fields.flatMap (·.arguments), a.DefaultWritten :=
  (group_keeps fieldDefinition_keeps).imp fun _ hfields a ha => by
    obtain ⟨f, hf, ha⟩ := List.mem_flatMap.1 ha
    exact hfields f hf a ha

/-- A type definition. -/
theorem typeDefinition_keeps (description : Option String) :
    Keeps Underway (typeDefinition description) fun d =>
      ∀ a ∈ d.1.body.arguments, a.DefaultWritten := by
  refine Leads.position.bind fun pos _ => name_keeps.bind fun word _ => name_keeps.bind fun n _ => ?_
  split
  · exact directives_keeps.bind fun _ _ => .pure (by simp [TypeBody.arguments])
  · exact implemented_keeps.bind fun _ _ => directives_keeps.bind fun _ _ =>
      fields_keeps.bind fun _ hfields => .pure hfields
  · exact implemented_keeps.bind fun _ _ => directives_keeps.bind fun _ _ =>
      fields_keeps.bind fun _ hfields => .pure hfields
  · exact directives_keeps.bind fun _ _ => members_keeps.bind fun _ _ =>
      .pure (by simp [TypeBody.arguments])
  · exact directives_keeps.bind fun _ _ => (group_keeps enumValue_keeps).bind fun _ _ =>
      .pure (by simp [TypeBody.arguments])
  · exact directives_keeps.bind fun _ _ => (group_keeps inputValue_keeps).bind fun _ _ =>
      .pure (by simp [TypeBody.arguments])
  · exact .failure

/-- A directive definition. -/
theorem directiveDefinition_keeps :
    Keeps Underway directiveDefinition fun d => ∀ a ∈ d.arguments, a.DefaultWritten := by
  have hlocation : Keeps Underway directiveLocation fun _ => True := by
    refine name_keeps.bind fun n _ => ?_
    split
    · exact .pure trivial
    · exact .failure
  have hdirective : ∀ n, Keeps Underway (Pure.pure (Definition.directive n)) fun d =>
      ∀ a ∈ d.arguments, a.DefaultWritten := fun n => .pure (by simp [Definition.arguments])
  refine (keyword_keeps _).bind fun _ _ => (punct_keeps _).bind fun _ _ =>
    name_keeps.bind fun n _ => (group_keeps inputValue_keeps).bind fun _ _ =>
      (atKeyword_keeps _).bind fun repeatable _ => ?_
  refine next_if_keeps ((keyword_keeps _).bind fun _ _ => Leads.peek.bind fun l _ => ?_)
  dsimp only
  split
  · exact (divided_keeps hlocation).bind fun _ _ => hdirective n
  · exact (divided_keeps hlocation).bind fun _ _ => hdirective n
  · exact hdirective n

/-- A block that names root types. -/
theorem schemaBlock_keeps :
    Keeps Underway schemaBlock fun d => ∀ a ∈ d.arguments, a.DefaultWritten := by
  have hroot : Keeps Underway (do let kind ← name; punct .colon; return (kind, ← name) :
      Parser (Name × Name)) fun _ => True :=
    name_keeps.bind fun _ _ => (punct_keeps _).bind fun _ _ => name_keeps.bind fun _ _ =>
      .pure trivial
  refine Leads.position.bind fun _ _ => (keyword_keeps _).bind fun _ _ =>
    directives_keeps.bind fun _ _ => (punct_keeps _).bind fun _ _ =>
      (items_keeps hroot).bind fun roots _ => ?_
  dsimp only
  split
  · exact .pure (by simp [Definition.arguments])
  · exact .failure

/-- A definition of a schema text. -/
theorem schemaDefinition_keeps :
    Keeps Underway schemaDefinition fun d => ∀ a ∈ d.arguments, a.DefaultWritten := by
  refine Leads.peek.bind fun l _ => ?_
  split
  · exact schemaBlock_keeps
  · refine next_keeps.bind fun _ _ => (typeDefinition_keeps none).bind fun d hd => ?_
    obtain ⟨definition, adds⟩ := d
    cases adds
    · exact .failure
    · exact .pure hd
  · refine description_keeps.bind fun description _ => (atKeyword_keeps _).bind fun there _ => ?_
    split
    · exact directiveDefinition_keeps
    · exact (typeDefinition_keeps description).bind fun d hd => .pure hd

end Parser

/-- The default values of the arguments in a schema text were read. -/
theorem Definition.parse?_defaultWritten {text : String} {ds : List Definition}
    (h : Definition.parse? text = some ds) {a : InputValueDefinition}
    (ha : a ∈ ds.flatMap Definition.arguments) : a.DefaultWritten := by
  obtain ⟨d, hd, ha⟩ := List.mem_flatMap.1 ha
  exact Parser.parse?_keeps (Parser.toEnd_keeps Parser.schemaDefinition_keeps) h d hd a ha

end Grammar

namespace Parameter

open Grammar

/-- The literal of a default value is kept. -/
theorem default_ofDefinition (file : Option SourcePath) {a : InputValueDefinition} {v : Value}
    (h : a.default = some v) : (Parameter.ofDefinition file a).default = some v.render := by
  rw [Parameter.ofDefinition, h]
  rfl

/-- What is kept of a default value without floats in a schema text is read as the same value if all
characters of its strings are legible in quotes. Otherwise it cannot be read at all: a character
without a glyph is written with the hexadecimal digits of its code point in braces. -/
theorem default_read {text : String} {ds : List Definition} {a : InputValueDefinition} {v : Value}
    (file : Option SourcePath) (h : Definition.parse? text = some ds)
    (ha : a ∈ ds.flatMap Definition.arguments) (hv : a.default = some v)
    (hfloat : v.isFloatless = true) :
    ∃ literal, (Parameter.ofDefinition file a).default = some literal ∧
      Value.parse? literal = if v.isLegible then some v else none :=
  have hwritten : v.Written 50 := Definition.parse?_defaultWritten h ha v hv
  ⟨v.render, default_ofDefinition file hv, Value.parse?_render hwritten hfloat⟩

/-- Of two default values in one schema text, a list of an object and `null` is kept as it was read, and
a string of a space without width is not. -/
theorem zero_width_lost :
    let text := "type Query \x7b
      f(a: [In] = [\x7by: 1, x: \"\\u00e9\\n\"\x7d, null], b: String = \"\\u200b\"): Int
    \x7d"
    ∃ ds a b v literal literal', Definition.parse? text = some ds ∧
      ds.flatMap Definition.arguments = [a, b] ∧ a.default = some v ∧
      literal = "[\x7bx: \"é\\n\", y: 1\x7d, null]" ∧ literal' = "\"\\u\x7b200b\x7d\"" ∧
      (Parameter.ofDefinition none a).default = some literal ∧ Value.parse? literal = some v ∧
      (Parameter.ofDefinition none b).default = some literal' ∧ Value.parse? literal' = none := by
  intro text
  have hshape : (Definition.parse? text).map (fun ds => (ds.flatMap Definition.arguments).map fun a =>
      a.default.map fun v => (v.isFloatless, v.isLegible, v.render)) =
      some [some (true, true, "[\x7bx: \"é\\n\", y: 1\x7d, null]"),
        some (true, false, "\"\\u\x7b200b\x7d\"")] := by decide +kernel
  obtain ⟨ds, hds, harguments⟩ := Option.map_eq_some_iff.1 hshape
  obtain ⟨a, rest, hrest, ha, htail⟩ := List.map_eq_cons_iff.1 harguments
  obtain ⟨b, rest', rfl, hb, hnil⟩ := List.map_eq_cons_iff.1 htail
  cases List.map_eq_nil_iff.1 hnil
  obtain ⟨v, hv, hvs⟩ := Option.map_eq_some_iff.1 ha
  obtain ⟨w, hw, hws⟩ := Option.map_eq_some_iff.1 hb
  rw [Prod.mk.injEq, Prod.mk.injEq] at hvs hws
  obtain ⟨hvfloat, hvlegible, hvrender⟩ := hvs
  obtain ⟨hwfloat, hwlegible, hwrender⟩ := hws
  obtain ⟨literal, hliteral, hread⟩ := default_read none hds (hrest ▸ List.mem_cons_self) hv hvfloat
  obtain ⟨literal', hliteral', hread'⟩ :=
    default_read none hds (hrest ▸ List.mem_cons_of_mem _ List.mem_cons_self) hw hwfloat
  rw [hvlegible, if_pos rfl] at hread
  rw [hwlegible, if_neg Bool.false_ne_true] at hread'
  have heq : v.render = literal := Option.some.inj ((default_ofDefinition none hv).symm.trans hliteral)
  have heq' : w.render = literal' :=
    Option.some.inj ((default_ofDefinition none hw).symm.trans hliteral')
  exact ⟨ds, a, b, v, literal, literal', hds, hrest, hv, heq ▸ hvrender, heq' ▸ hwrender, hliteral,
    hread, hliteral', hread'⟩

end Parameter

end EntityGraph
