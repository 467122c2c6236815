import EntityGraph.Proofs.Walk.Contributions
import EntityGraph.Proofs.Walk.LookUps

/-!
# Fields that their lexical parents declare

The lexical parent of a field is the type that the text around it names: the condition of the inline
fragment or fragment definition that it stands in, or else the type of the field or operation. A
document is lexical if every field is declared by its lexical parent (`Document.Lexical`). A walk
looks a field up on another type, which the conditions around the field were narrowed to. All its
objects are objects of the lexical parent, so if objects have the fields of their interfaces
(`Schema.Conforming`) an object type declares the field as well. But a union never does, and an
interface need not: the field is hidden by the type (`Schema.Hides`). Main statement:
`Document.Lexical.unknown_hidden`, on a lexical document a request reports a field as unknown only
if it is hidden. That happens (`Pets.name_hidden`).
-/

namespace EntityGraph

/-! ## Lexical documents -/

section
variable (schema : Schema)

/-- The lexical parent of the selection is `p`, and every field is declared by its lexical
parent. -/
inductive Selection.Lexical : Name → Selection → Prop
  | field {p name : Name} {aliasName : Option Name} {place : SourceLocation}
      {inner : List Selection} {declared : DeclaredType} :
      schema.fieldType? p name = some declared →
      (∀ s ∈ inner, Lexical declared.innermostName s) →
      Lexical p (.field aliasName name place inner)
  | spread {p name : Name} {place : SourceLocation} : Lexical p (.spread name place)
  | inline {p : Name} {place : SourceLocation} {inner : List Selection} :
      (∀ s ∈ inner, Lexical p s) → Lexical p (.inline none place inner)
  | inlineOn {p own : Name} {place : SourceLocation} {inner : List Selection} :
      (∀ s ∈ inner, Lexical own s) → Lexical p (.inline (some own) place inner)

/-- The normal selection is lexical. A field is selected on a type that lies within its lexical
parent, and what can never apply is selected on its own condition. -/
def NormalSelection.Lexical : NormalSelection → Prop
  | .field aliasName name place inner c => schema.Composite c ∧
      ∃ p, schema.Within c p ∧ (Selection.field aliasName name place inner).Lexical schema p
  | .spread .. => True
  | .unreachable _ inner own => schema.Composite own ∧ ∀ s ∈ inner, s.Lexical schema own

/-- Every field of the operation is declared by its lexical parent. -/
def OperationDefinition.Lexical (d : OperationDefinition) : Prop :=
  ∀ type, schema.root? d.kind = some type → ∀ s ∈ d.selections, s.Lexical schema type.name

/-- Every field of the document is declared by its lexical parent. -/
structure Document.Lexical (document : Document) : Prop where
  fragments : ∀ d ∈ document.fragments, ∀ s ∈ d.selections, s.Lexical schema d.condition
  operations : ∀ d ∈ document.operations, d.Lexical schema

/-! ## Declared fields -/

namespace Schema

/-- The fields of an interface, by name. -/
def interfaceFields (i : Name) : List (Name × Field) :=
  match schema.types.find? i with
  | some (.interface t) => t.fields.entries
  | _ => []

/-- Every object type has the fields of the interfaces that it says it implements, with the same
types. -/
def Conforming : Prop :=
  ∀ object ∈ schema.objects, ∀ i ∈ object.interfaceNames, ∀ field ∈ schema.interfaceFields i,
    (object.field? field.1).map (·.type) = some field.2.type

instance : Decidable schema.Conforming :=
  inferInstanceAs (Decidable (∀ _ ∈ _, ∀ _ ∈ _, ∀ _ ∈ _, _ = _))

/-- The type `c` hides the field: it is a union or an interface without the field, although every
object type that satisfies it satisfies one with the field. -/
structure Hides (c name : Name) : Prop where
  composite : schema.Composite c
  abstract : ∀ t, schema.types.find? c ≠ some (.object t)
  undeclared : schema.fieldType? c name = none
  declared : ∃ p, schema.Within c p ∧ (schema.fieldType? p name).isSome = true

end Schema

end

section
variable {schema : Schema}

/-- What a type declares, every object type that satisfies it declares with the same type. -/
theorem Schema.Conforming.fieldType?_eq (hconf : schema.Conforming) (hs : schema.Coherent)
    {c o name : Name} {declared : DeclaredType} (ho : schema.Possible c o)
    (hd : schema.fieldType? c name = some declared) :
    schema.fieldType? o name = some declared := by
  unfold Schema.fieldType? at hd ⊢
  split at hd
  · next hname => rwa [if_pos hname]
  · next hname =>
    rw [if_neg hname]
    obtain ⟨type, ht, -⟩ := ho.composite
    rw [ht] at hd
    obtain ⟨field, hfield, rfl⟩ := Option.map_eq_some_iff.1 hd
    cases type with
    | object t =>
      cases (Schema.possible_object ht).1 ho
      rw [ht]
      exact hd
    | interface t =>
      obtain ⟨object, hobject, himplements, rfl⟩ := (Schema.possible_interface ht).1 ho
      have hc : t.name = c := hs.named c _ ht
      have hmem : c ∈ object.interfaceNames := by
        simpa [FieldedType.implements, hc] using himplements
      have hentry : (name, field) ∈ schema.interfaceFields c := by
        simpa [Schema.interfaceFields, ht] using Dict.find?_eq_some_iff.1 hfield
      rw [hs.find?_object hobject]
      exact hconf object hobject c hmem (name, field) hentry
    | union t => cases hfield
    | enum | inputObject | scalar => cases hfield

/-- What a type within another one does not declare of it, it hides. -/
theorem Schema.Conforming.hides (hconf : schema.Conforming) (hs : schema.Coherent) {c p name : Name}
    {declared : DeclaredType} (hc : schema.Composite c) (hwithin : schema.Within c p)
    (hp : schema.fieldType? p name = some declared) (hnone : schema.fieldType? c name = none) :
    schema.Hides c name where
  composite := hc
  abstract := by
    intro t ht
    have hself := hwithin c ((Schema.possible_object ht).2 rfl)
    rw [hconf.fieldType?_eq hs hself hp] at hnone
    cases hnone
  undeclared := hnone
  declared := ⟨p, hwithin, by rw [hp]; rfl⟩

/-- What comes out of lexical selections is lexical, on a parent that the type which it is selected
on lies within. -/
theorem Emits.lexical (hs : schema.Coherent) {c p : Name} {selections : List Selection}
    {n : NormalSelection} (h : Emits schema c selections n) (hc : schema.Composite c)
    (hwithin : schema.Within c p) (hl : ∀ s ∈ selections, s.Lexical schema p) :
    n.Lexical schema := by
  induction h generalizing p with
  | field hm => exact ⟨hc, p, hwithin, hl _ hm⟩
  | spread => trivial
  | inline hm _ ih =>
    cases hl _ hm with
    | inline hinner => exact ih hc hwithin hinner
  | narrowed hm hi hc' _ ih =>
    cases hl _ hm with
    | inlineOn hinner =>
      have hmeet := LookupM.intersect_gives hs hc hi
      exact ih (hmeet.composite _ hc') (hmeet.right _ hc') hinner
  | excluded hm hi =>
    cases hl _ hm with
    | inlineOn hinner => exact ⟨LookupM.intersect_composite hc hi, hinner⟩

/-- Lexical selections miss only hidden fields. The type that they are entered on lies within their
lexical parent, and below a field the two are the same. -/
theorem Selection.Lexical.misses (hconf : schema.Conforming) (hs : schema.Coherent)
    (hp : schema.Inhabited) {c p : Name} {selections : List Selection} (hc : schema.Composite c)
    (hwithin : schema.Within c p) (hl : ∀ s ∈ selections, s.Lexical schema p) :
    Misses schema schema.Hides c selections := by
  intro type name hlooks hnone
  induction hlooks generalizing p with
  | field hemits =>
    obtain ⟨hc', p', hwithin', hl'⟩ := hemits.lexical hs hc hwithin hl
    cases hl' with
    | field hd _ => exact hconf.hides hs hc' hwithin' hd hnone
  | nested hemits hd hcomposite _ ih =>
    obtain ⟨hc', p', hwithin', hl'⟩ := hemits.lexical hs hc hwithin hl
    cases hl' with
    | field hd' hinner =>
      -- both types declare the field as an object type that satisfies them does
      obtain ⟨o, ho⟩ := hp _ hc'
      have hown := hconf.fieldType?_eq hs ho hd
      have hown' := hconf.fieldType?_eq hs (hwithin' o ho) hd'
      cases hown.symm.trans hown'
      exact ih hcomposite (.refl _) hinner
  | excluded hemits _ ih =>
    obtain ⟨hcomposite, hinner⟩ := hemits.lexical hs hc hwithin hl
    exact ih hcomposite (.refl _) hinner

/-! ## Requests -/

/-- On the builder the request reports a field as unknown only if the type hides it. -/
def Builder.ReportsHidden {α : Type} (b : Builder schema) (request : BuilderM schema α) : Prop :=
  ∀ type field place b', request b = .error (.unknownField type field place) b' →
    schema.Hides type field

/-- What holds of the errors of a request on every builder between requests holds on a reachable
one. -/
theorem Builder.Meets.reportsHidden {α : Type} {document : Document} {b : Builder schema}
    {request : BuilderM schema α} {post : α → Prop}
    (h : Builder.Meets document request post (BuildError.Blames schema.Hides))
    (hb : b.Reachable schema document) : b.ReportsHidden request := by
  intro type field place b' he
  have h := h b hb.standing
  rw [he] at h
  exact h.2 type field place rfl

/-- If objects conform to their interfaces and every composite type has an object, then on a lexical
document a field is reported as unknown only if the type that is named hides it. -/
theorem Document.Lexical.unknown_hidden {document : Document} (hl : document.Lexical schema)
    (hs : schema.Built) (hconf : schema.Conforming) (hp : schema.Inhabited) {b : Builder schema}
    (hb : b.Reachable schema document) :
    (∀ d : OperationDefinition, d.Lexical schema →
      b.ReportsHidden (Builder.buildOperation d)) ∧
    (∀ name, b.ReportsHidden (Builder.buildOperationNamed name)) ∧
    (∀ name, b.ReportsHidden (Builder.buildFragment name)) ∧
    b.ReportsHidden Builder.buildDocument := by
  have hfragments : ∀ d ∈ document.fragments, schema.Composite d.condition →
      Misses schema schema.Hides d.condition d.selections := fun d hd hc =>
    Selection.Lexical.misses hconf hs.coherent hp hc (.refl _) (hl.fragments d hd)
  have hoperation : ∀ d : OperationDefinition, d.Lexical schema → ∀ type,
      schema.root? d.kind = some type → Misses schema schema.Hides type.name d.selections :=
    fun d hd type ht => Selection.Lexical.misses hconf hs.coherent hp
      (hs.coherent.root_composite ht) (.refl _) (hd type ht)
  have hoperations : ∀ d ∈ document.operations, ∀ type, schema.root? d.kind = some type →
      Misses schema schema.Hides type.name d.selections :=
    fun d hd => hoperation d (hl.operations d hd)
  refine ⟨fun d hd => ?_, fun name => ?_, fun name => ?_, ?_⟩
  · exact (Builder.buildOperation_blames hs.coherent hfragments (hoperation d hd)).reportsHidden hb
  · exact (Builder.buildOperationNamed_blames hs.coherent hfragments hoperations name).reportsHidden
      hb
  · exact (Builder.buildFragment_blames hs.coherent hfragments name).reportsHidden hb
  · exact (Builder.buildDocument_blames hs.coherent hfragments hoperations).reportsHidden hb

end

/-! ## A hidden field

Both members of a union implement an interface, and so does a third object type. An inline fragment
on the interface selects one of its fields on the union. The conditions are narrowed to the union,
since it lies within the interface. -/

namespace Pets

open Grammar (Definition FieldDefinition)
open Sample (field type place)

/-- What the interface and the object types have. -/
def fields : List FieldDefinition := [field "name" (.named "String")]

/-- The definitions of the schema. -/
def definitions : List Definition := [
  type "Named" (.interface [] fields),
  type "Cat" (.object ["Named"] fields),
  type "Dog" (.object ["Named"] fields),
  type "Person" (.object ["Named"] fields),
  type "Pet" (.union ["Cat", "Dog"]),
  type "Query" (.object [] [field "pet" (.named "Pet")])]

/-- The definitions make up a schema. -/
theorem build?_isSome : (Sample.build? definitions).isSome = true := by decide +kernel

/-- The schema. -/
def schema : Schema := (Sample.build? definitions).get build?_isSome

/-- The schema is one that was built. -/
theorem built : schema.Built := Sample.built_of_build? (Option.some_get build?_isSome).symm

/-- The object types have the field of the interface. -/
theorem conforming : schema.Conforming := by decide +kernel

/-- Every composite type of the schema has a possible type. -/
theorem inhabited : schema.Inhabited := Schema.inhabited_of_keys (by decide +kernel)

/-- The operation, which selects the name of the pet as one of the interface. -/
def operation : OperationDefinition where
  location := place
  kind := .query
  name := none
  selections :=
    [.field none "pet" place [.inline (some "Named") place [.field none "name" place []]]]

/-- The document. -/
def document : Document where
  file := none
  fragments := []
  operations := [operation]

/-- Every field is declared by its lexical parent. -/
theorem lexical : document.Lexical schema := by
  have hroot : ∀ type, schema.root? .query = some type → type.name = "Query" := by
    have h : (schema.root? .query).all (fun type => type.name = "Query") = true := by
      decide +kernel
    simpa [Option.all_eq_true] using h
  have hpet : schema.fieldType? "Query" "pet" = some (.named "Pet" true) := by decide +kernel
  have hname : schema.fieldType? "Named" "name" = some (.named "String" true) := by decide +kernel
  refine ⟨nofun, fun d hd type ht s hs => ?_⟩
  cases List.mem_singleton.1 hd
  cases List.mem_singleton.1 hs
  rw [hroot type ht]
  refine .field hpet fun s hs => ?_
  cases List.mem_singleton.1 hs
  refine .inlineOn fun s hs => ?_
  cases List.mem_singleton.1 hs
  exact .field hname nofun

/-- The type and the field that the first request on a new builder reports as unknown, if it
does. -/
def reported? : Option (Name × Name) :=
  match Builder.new schema document with
  | .ok b =>
    match Builder.buildOperation operation b with
    | .error (.unknownField type name _) _ => some (type, name)
    | _ => none
  | .error _ => none

/-- The field is reported as unknown. -/
theorem refused : ∃ b b' place, Builder.new schema document = .ok b ∧
    Builder.buildOperation operation b = .error (.unknownField "Pet" "name" place) b' := by
  have h : reported? = some ("Pet", "name") := by decide +kernel
  unfold reported? at h
  split at h
  · next b hb =>
    split at h
    · next type name place b' ho =>
      cases h
      exact ⟨b, b', place, hb, ho⟩
    · cases h
  · cases h

/-- The union hides the field of the interface: the document is lexical, and yet the field is
reported as unknown. -/
theorem name_hidden : ∃ b b' place, schema.Built ∧ schema.Conforming ∧ schema.Inhabited ∧
    document.Lexical schema ∧ Builder.new schema document = .ok b ∧
    Builder.buildOperation operation b = .error (.unknownField "Pet" "name" place) b' ∧
    schema.Hides "Pet" "name" := by
  obtain ⟨b, b', place, hb, ho⟩ := refused
  have hdeclared : operation.Lexical schema := lexical.operations operation (.head _)
  obtain ⟨hoperation, -⟩ := lexical.unknown_hidden built conforming inhabited (.new hb)
  exact ⟨b, b', place, built, conforming, inhabited, lexical, hb, ho,
    hoperation operation hdeclared "Pet" "name" place b' ho⟩

end Pets

end EntityGraph
