import EntityGraph.Build.Builder
import EntityGraph.Proofs.Document.Collect
import EntityGraph.Proofs.Schema.BuiltSchema
import EntityGraph.Proofs.Walk.Walks

/-!
# Units that requests yield

A document is compiled by requests, in any number and order, on a builder or directly on a registry
of its fragments; requests may fail. `Yields schema document u` says that such a request returned
the unit `u`. A fragment is compiled at most once and then answers every spread of its name, so what
holds for a unit is proved from what holds for the fragments that it spreads. `Yields.induction`
says this once and for all: a property that a unit has as soon as the fragments it spreads have it
(`Walked`) is a property of every unit.
-/

namespace EntityGraph

/-! ## Requests -/

/-- The work ends in the state `s'`, well or not. -/
def Ends {ε σ α : Type} (work : EStateM ε σ α) (s s' : σ) : Prop :=
  (∃ a, work s = .ok a s') ∨ ∃ e, work s = .error e s'

/-- However work ends, the registry is as it should be. -/
theorem RunM.Does.of_ends {schema : Schema} {α : Type} {I : Registry → Prop}
    {work : RunM schema α} {post : α → Prop} (h : RunM.Does I work post) {run run' : Run schema}
    (hI : I run.registry) (he : Ends work run run') : I run'.registry := by
  have h := h run hI
  rcases he with ⟨a, he⟩ | ⟨e, he⟩
  · rw [he] at h; exact h.1
  · rw [he] at h; exact h

/-- What work returns is as described. -/
theorem RunM.Does.of_ok {schema : Schema} {α : Type} {I : Registry → Prop} {work : RunM schema α}
    {post : α → Prop} (h : RunM.Does I work post) {run run' : Run schema} {a : α}
    (hI : I run.registry) (he : work run = .ok a run') : post a := by
  have h := h run hI
  rw [he] at h
  exact h.2

section
variable (schema : Schema) (document : Document)

/-- The runs that requests on a registry of the document's fragments lead to. Questions to the
schema may be asked in between. -/
inductive Run.Reachable : Run schema → Prop
  | start {lookups : Lookups schema} {registry : Registry} {id : Nat} :
      Registry.registerDocument document (.empty id) = .ok () registry →
      Reachable ⟨lookups, registry⟩
  | asked {run : Run schema} {lookups : Lookups schema} :
      Reachable run → Reachable { run with lookups }
  | fragment {run run' : Run schema} {name : Name} :
      Reachable run → Ends (RunM.resolve name) run run' → Reachable run'
  | operation {run run' : Run schema} {d : OperationDefinition} :
      Reachable run → Ends (RunM.operation d) run run' → Reachable run'

/-- The builders that requests lead to. Requests for a named operation and for the whole document
are made of these. -/
inductive Builder.Reachable : Builder schema → Prop
  | new {b : Builder schema} : Builder.new schema document = .ok b → Reachable b
  | fragment {b b' : Builder schema} {name : Name} :
      Reachable b → Ends (Builder.buildFragment name) b b' → Reachable b'
  | operation {b b' : Builder schema} {d : OperationDefinition} :
      Reachable b → Ends (Builder.buildOperation d) b b' → Reachable b'

end

/-! ## Units -/

/-- What compiled operations and compiled fragments have in common: what was asked for, and what it
was compiled to. -/
structure CompiledUnit where
  source : LocationSource
  selections : List Selection
  root : Location
  entities : Storage
  referenced : Dict Name FragmentId

/-- The type at the root of a unit. -/
def CompiledUnit.rootType (u : CompiledUnit) : Name := u.source.rootType

/-- An operation on the root type `type`, compiled to `op`. -/
def OperationDefinition.unit (d : OperationDefinition) (type : Name) (op : Operation) :
    CompiledUnit :=
  ⟨.operation d.name type, d.selections, op.rootLocation, op.entities, op.referenced⟩

/-- A fragment, compiled to `f`. -/
def FragmentDefinition.unit (d : FragmentDefinition) (f : Fragment) : CompiledUnit :=
  ⟨.fragment d.name d.condition, d.selections, f.rootLocation, f.entities, f.referenced⟩

/-- A compiled fragment as a unit. -/
def Fragment.unit (f : Fragment) : CompiledUnit := f.definition.unit f

section
variable (schema : Schema) (document : Document)

/-- A request returned the unit: one to a builder, or one on a registry without a builder. -/
inductive Yields : CompiledUnit → Prop
  | operation {b b' : Builder schema} {d : OperationDefinition} {type : NamedType}
      {op : Operation} :
      b.Reachable schema document → schema.root? d.kind = some type →
      Builder.buildOperation d b = .ok op b' → Yields (d.unit type.name op)
  | fragment {b b' : Builder schema} {name : Name} {d : FragmentDefinition} {f : Fragment} :
      b.Reachable schema document → document.Defines name d →
      Builder.buildFragment name b = .ok f b' → Yields (d.unit f)
  | compiled {run run' : Run schema} {d : OperationDefinition} {type : NamedType}
      {op : Operation} :
      run.Reachable schema document → schema.root? d.kind = some type →
      RunM.operation d run = .ok op run' → Yields (d.unit type.name op)
  | resolved {run run' : Run schema} {name : Name} {d : FragmentDefinition} {f : Fragment} :
      run.Reachable schema document → document.Defines name d →
      RunM.resolve name run = .ok f run' → Yields (d.unit f)

/-- The fragment `f` may answer a spread of `name`: it is compiled from the one definition of that
name, and `P` holds of it. -/
def Spreadable (P : CompiledUnit → Prop) (name : Name) (f : Fragment) : Prop :=
  (∀ d, document.Defines name d ↔ d = f.definition) ∧ P f.unit

/-- The unit comes from a walk over its selections, where `P` holds of the fragments that answer
its spreads. -/
structure Walked (P : CompiledUnit → Prop) (u : CompiledUnit) : Prop where
  root : u.root = ⟨[], u.source⟩
  composite : schema.Composite u.rootType
  visits : Visits schema (Spreadable document P) (Selection.heightAll u.selections) u.root
    u.rootType u.selections .empty ⟨u.entities, u.referenced⟩

end

/-! ## The registry -/

section
variable {schema : Schema} {document : Document} {P : CompiledUnit → Prop}

/-- What every registry of the document's fragments satisfies: it knows the definitions, and what it
has compiled may answer spreads. -/
structure Registry.Sound (document : Document) (P : CompiledUnit → Prop) (registry : Registry) :
    Prop where
  definitions : ∀ name d, registry.definitions.find? name = some d ↔ document.Defines name d
  built : ∀ name f, registry.built.find? name = some f → Spreadable document P name f

/-- The definition of a name is the only one. -/
theorem Registry.Sound.defines_iff {registry : Registry} (h : registry.Sound document P)
    {name : Name} {d : FragmentDefinition} (hd : registry.definitions.find? name = some d)
    {d' : FragmentDefinition} : document.Defines name d' ↔ d' = d := by
  rw [← h.definitions, hd]
  exact ⟨fun h => (Option.some.inj h).symm, fun h => h ▸ rfl⟩

/-- Registering definitions adds each of them under its name, which was new. -/
theorem Registry.forM_register {ds : List FragmentDefinition} {registry registry' : Registry}
    (h : ds.forM Registry.register registry = .ok () registry') :
    registry'.built = registry.built ∧
      ∀ name d, registry'.definitions.find? name = some d ↔
        registry.definitions.find? name = some d ∨ d ∈ ds ∧ d.name = name := by
  induction ds generalizing registry with
  | nil => cases h; simp
  | cons d₀ ds ih =>
    obtain ⟨u, registry₁, h₁, h₂⟩ := ok_of_bind h
    unfold Registry.register at h₁
    split at h₁
    · cases h₁
    · next hnew =>
      cases h₁
      obtain ⟨hb, hd⟩ := ih h₂
      refine ⟨hb, fun name d => ?_⟩
      rw [hd, Dict.find?_insert, List.mem_cons]
      by_cases hn : name = d₀.name
      · rw [if_pos hn, hn, hnew]
        constructor
        · rintro (h | ⟨hm, hname⟩)
          · cases h; exact .inr ⟨.inl rfl, rfl⟩
          · exact .inr ⟨.inr hm, hname⟩
        · rintro (h | ⟨rfl | hm, hname⟩)
          · cases h
          · exact .inl rfl
          · exact .inr ⟨hm, hname⟩
      · rw [if_neg hn]
        refine or_congr_right ⟨fun ⟨hm, h⟩ => ⟨.inr hm, h⟩, fun ⟨hm, h⟩ => ⟨?_, h⟩⟩
        exact hm.resolve_left fun he => hn (he ▸ h.symm)

/-- A registry is sound before anything is compiled. -/
theorem Registry.Sound.of_registerDocument {registry : Registry} {id : Nat}
    (h : Registry.registerDocument document (.empty id) = .ok () registry) :
    registry.Sound document P := by
  obtain ⟨hb, hd⟩ := Registry.forM_register h
  refine ⟨fun name d => ?_, fun name f hf => ?_⟩
  · rw [hd]
    simp [Registry.empty, Document.Defines]
  · rw [hb] at hf
    cases hf

/-- The state of a run is looked at. -/
theorem RunM.Does.get {I : Registry → Prop} :
    RunM.Does I (MonadState.get : RunM schema (Run schema)) fun run => I run.registry :=
  fun _ hI => ⟨hI, hI⟩

/-- Marking a fragment as under construction does not matter to soundness. -/
theorem underConstruction_does {α : Type} {name : Name} {work : RunM schema α} {post : α → Prop}
    (h : RunM.Does (Registry.Sound document P) work post) :
    RunM.Does (Registry.Sound document P) (RunM.underConstruction name work) post := by
  intro run hI
  have h := h { run with registry.inProgress := run.registry.inProgress.insert name }
    ⟨hI.definitions, hI.built⟩
  unfold RunM.underConstruction
  dsimp only
  split at h
  · next a run' hw => rw [hw]; exact ⟨⟨h.1.definitions, h.1.built⟩, h.2⟩
  · next e run' hw => rw [hw]; exact ⟨h.definitions, h.built⟩

/-- A compiled fragment is kept. -/
theorem keep_does {name : Name} {c : Compiled FragmentDefinition}
    (h : ∀ id, Spreadable document P name { toCompiled := c, id }) :
    RunM.Does (Registry.Sound document P) (RunM.keep name c : RunM schema Fragment)
      (Spreadable document P name) := by
  intro run hI
  refine ⟨⟨hI.definitions, fun name' f hf => ?_⟩, h _⟩
  rw [Dict.find?_insert] at hf
  split at hf
  · next hn => cases hf; exact hn ▸ h _
  · exact hI.built name' f hf

/-- What was compiled before is taken as it is. -/
theorem reuseOr_does {name : Name} {compile : RunM schema Fragment}
    (h : RunM.Does (Registry.Sound document P) compile (Spreadable document P name)) :
    RunM.Does (Registry.Sound document P) (RunM.reuseOr name compile)
      (Spreadable document P name) := by
  refine RunM.Does.get.bind fun run hI => ?_
  dsimp only
  split
  · next f hf => exact RunM.Does.report.bind fun _ _ => .pure (hI.built name f hf)
  · split
    · exact .throw
    · exact h

/-! ## Compiling -/

variable {resolve : Name → RunM schema Fragment}

/-- A fragment definition is compiled by a walk over its selections. -/
theorem compileFragment_does
    (hr : ∀ name, RunM.Does (Registry.Sound document P) (resolve name) (Spreadable document P name))
    {d : FragmentDefinition} :
    RunM.Does (Registry.Sound document P) (compileFragment resolve d) fun c =>
      c.definition = d ∧ ∀ id, Walked schema document P (d.unit { toCompiled := c, id }) := by
  refine RunM.Does.report.bind fun _ _ => RunM.Does.ask.bind fun type ht => ?_
  have ht := LookupM.type_gives ht
  split
  · next hc =>
    refine RunM.Does.bind (visitWithin_does hr) fun p hp => RunM.Does.report.bind fun _ _ => ?_
    exact .pure ⟨rfl, fun _ => ⟨rfl, ⟨type, ht, hc⟩, hp⟩⟩
  · exact .throw

/-- The root type of an operation is composite. -/
theorem Schema.Coherent.root_composite (hs : schema.Coherent) {kind : OperationKind}
    {type : NamedType} (h : schema.root? kind = some type) : schema.Composite type.name := by
  obtain ⟨ref, hr, hf⟩ := Option.bind_eq_some_iff.1 h
  obtain ⟨o, ho⟩ := hs.roots kind ref hr
  rw [ho] at hf
  cases hf
  have hn : o.name = ref.name := hs.named _ _ ho
  exact ⟨_, (show schema.types.find? o.name = _ from hn ▸ ho), rfl⟩

/-- An operation is compiled by a walk over its selections. -/
theorem compileOperation_does (hs : schema.Coherent)
    (hr : ∀ name, RunM.Does (Registry.Sound document P) (resolve name) (Spreadable document P name))
    {d : OperationDefinition} :
    RunM.Does (Registry.Sound document P) (compileOperation resolve d) fun op =>
      ∃ type, schema.root? d.kind = some type ∧ Walked schema document P (d.unit type.name op) := by
  refine RunM.Does.report.bind fun _ _ => ?_
  cases hroot : schema.root? d.kind with
  | none => exact .throw
  | some type =>
    refine RunM.Does.bind (visitWithin_does hr) fun p hp => RunM.Does.report.bind fun _ _ => ?_
    exact .pure ⟨type, rfl, rfl, hs.root_composite hroot, hp⟩

section
variable (step : ∀ u, Walked schema document P u → P u)
include step

/-- A name is resolved to a fragment that may answer its spreads. -/
theorem resolveWithin_does {depth : Nat} {name : Name} :
    RunM.Does (Registry.Sound document P) (RunM.resolveWithin depth name : RunM schema Fragment)
      (Spreadable document P name) := by
  induction depth generalizing name with
  | zero => exact reuseOr_does .throw
  | succ depth ih =>
    refine reuseOr_does (RunM.Does.get.bind fun run hI => ?_)
    cases hd : run.registry.definitions.find? name with
    | none => exact .throw
    | some d =>
      refine RunM.Does.bind (underConstruction_does (compileFragment_does fun _ => ih)) ?_
      intro c ⟨hc, hw⟩
      subst hc
      exact keep_does fun id => ⟨fun d' => hI.defines_iff hd, step _ (hw id)⟩

/-- The same without a bound. -/
theorem resolve_does {name : Name} :
    RunM.Does (Registry.Sound document P) (RunM.resolve name : RunM schema Fragment)
      (Spreadable document P name) :=
  RunM.Does.get.bind fun _ _ => resolveWithin_does step

/-- An operation is compiled to a unit with the property. -/
theorem operation_does (hs : schema.Coherent) {d : OperationDefinition} :
    RunM.Does (Registry.Sound document P) (RunM.operation d : RunM schema Operation) fun op =>
      ∃ type, schema.root? d.kind = some type ∧ P (d.unit type.name op) :=
  (compileOperation_does hs fun _ => resolve_does step).mono fun _ ⟨type, ht, h⟩ =>
    ⟨type, ht, step _ h⟩

/-- Requests keep the registry sound. -/
theorem Run.Reachable.sound (hs : schema.Coherent) {run : Run schema}
    (h : run.Reachable schema document) : run.registry.Sound document P := by
  induction h with
  | start h => exact .of_registerDocument h
  | asked _ ih => exact ih
  | fragment _ h ih => exact (resolve_does step).of_ends ih h
  | operation _ h ih => exact (operation_does step hs).of_ends ih h

end

end

/-! ## Builders -/

section
variable {schema : Schema} {document : Document}

/-- A guarded request that succeeds is one on the builder's run. -/
theorem Builder.ok_of_guarded {α : Type} {work : RunM schema α} {b b' : Builder schema} {a : α}
    (h : Builder.guarded work b = .ok a b') : work b.run = .ok a b'.run := by
  unfold Builder.guarded at h
  split at h
  · cases h
  · split at h
    · next hw => cases h; exact hw
    · cases h

/-- A guarded request changes the run as the request itself does, or leaves it alone; only the log
may get longer. -/
theorem Builder.ends_of_guarded {α : Type} {work : RunM schema α} {b b' : Builder schema}
    (h : Ends (Builder.guarded work) b b') :
    b'.run = b.run ∨ ∃ run lookups, Ends work b.run run ∧ b'.run = { run with lookups } := by
  rcases h with ⟨a, h⟩ | ⟨e, h⟩
  · exact .inr ⟨b'.run, b'.run.lookups, .inl ⟨a, ok_of_guarded h⟩, rfl⟩
  · unfold Builder.guarded at h
    split at h
    · cases h; exact .inl rfl
    · split at h
      · cases h
      · next e run hw => cases h; exact .inr ⟨run, _, .inr ⟨e, hw⟩, rfl⟩

/-- The run of a builder is one that requests lead to. -/
theorem Builder.Reachable.run {b : Builder schema} (h : b.Reachable schema document) :
    b.run.Reachable schema document := by
  induction h with
  | new h =>
    unfold Builder.new at h
    split at h
    · next u registry hr => cases h; exact .start hr
    · cases h
  | fragment _ h ih =>
    rcases ends_of_guarded h with hb | ⟨run, lookups, hw, hb⟩
    · exact hb ▸ ih
    · exact hb ▸ .asked (.fragment ih hw)
  | operation _ h ih =>
    rcases ends_of_guarded h with hb | ⟨run, lookups, hw, hb⟩
    · exact hb ▸ ih
    · exact hb ▸ .asked (.operation ih hw)

/-- What a unit satisfies as soon as the fragments that it spreads do, every unit satisfies. -/
theorem Yields.induction {P : CompiledUnit → Prop} (hs : schema.Coherent)
    (step : ∀ u, Walked schema document P u → P u) {u : CompiledUnit}
    (h : Yields schema document u) : P u := by
  cases h with
  | operation hb ht h =>
    obtain ⟨type, ht', hP⟩ :=
      (operation_does step hs).of_ok (hb.run.sound step hs) (Builder.ok_of_guarded h)
    cases ht.symm.trans ht'
    exact hP
  | fragment hb hd h =>
    obtain ⟨hdef, hP⟩ := (resolve_does step).of_ok (hb.run.sound step hs) (Builder.ok_of_guarded h)
    cases (hdef _).1 hd
    exact hP
  | compiled hr ht h =>
    obtain ⟨type, ht', hP⟩ := (operation_does step hs).of_ok (hr.sound step hs) h
    cases ht.symm.trans ht'
    exact hP
  | resolved hr hd h =>
    obtain ⟨hdef, hP⟩ := (resolve_does step).of_ok (hr.sound step hs) h
    cases (hdef _).1 hd
    exact hP

end

/-! ## No unit is left out -/

section
variable {schema : Schema} {document : Document} {b b' : Builder schema}

/-- An operation that a builder returns is a unit, on the root type of its kind. -/
theorem Builder.Reachable.yields_operation {d : OperationDefinition} {op : Operation}
    (hb : b.Reachable schema document) (h : Builder.buildOperation d b = .ok op b') :
    ∃ type, schema.root? d.kind = some type ∧ Yields schema document (d.unit type.name op) := by
  cases hroot : schema.root? d.kind with
  | some type => exact ⟨type, rfl, .operation hb hroot h⟩
  | none =>
    obtain ⟨_, run, -, hrest⟩ := ok_of_bind (Builder.ok_of_guarded h)
    rw [hroot] at hrest
    cases hrest

/-- A fragment that a builder returns is compiled from the definition of its name, and is a unit. -/
theorem Builder.Reachable.yields_unit (hs : schema.Coherent) {name : Name} {f : Fragment}
    (hb : b.Reachable schema document) (h : Builder.buildFragment name b = .ok f b') :
    document.Defines name f.definition ∧ Yields schema document f.unit := by
  have hsound : b.run.registry.Sound document fun _ => True := hb.run.sound (fun _ _ => trivial) hs
  have hdef := (resolve_does fun _ _ => trivial).of_ok hsound (Builder.ok_of_guarded h)
  exact ⟨(hdef.1 _).2 rfl, .fragment hb ((hdef.1 _).2 rfl) h⟩

/-- A fragment that a builder returns is a unit, of the definition of its name. -/
theorem Builder.Reachable.yields_fragment (hs : schema.Coherent) {name : Name} {f : Fragment}
    (hb : b.Reachable schema document) (h : Builder.buildFragment name b = .ok f b') :
    ∃ d, document.Defines name d ∧ Yields schema document (d.unit f) :=
  ⟨f.definition, hb.yields_unit hs h⟩

/-- What each of some requests keeps, and what it returns. -/
theorem Builder.ok_of_mapM {α β : Type} {request : α → BuilderM schema β}
    {I : Builder schema → Prop} {R : α → β → Prop} {l : List α} {results : List β}
    (step : ∀ a b r b', I b → request a b = .ok r b' → I b' ∧ R a r) (hI : I b)
    (h : l.mapM request b = .ok results b') : I b' ∧ ∀ r ∈ results, ∃ a ∈ l, R a r := by
  induction l generalizing b results with
  | nil => cases h; exact ⟨hI, by simp⟩
  | cons a l ih =>
    rw [List.mapM_cons] at h
    obtain ⟨r, b₁, h₁, h⟩ := ok_of_bind h
    obtain ⟨rs, b₂, h₂, h⟩ := ok_of_bind h
    cases h
    obtain ⟨hI₁, hr⟩ := step a b r b₁ hI h₁
    obtain ⟨hI₂, hrs⟩ := ih hI₁ h₂
    refine ⟨hI₂, List.forall_mem_cons.2 ⟨⟨a, .head _, hr⟩, fun r' hr' => ?_⟩⟩
    obtain ⟨a', ha', hR⟩ := hrs r' hr'
    exact ⟨a', List.mem_cons_of_mem _ ha', hR⟩

/-- What a builder returns for a whole document is made of units of its definitions. -/
theorem Builder.Reachable.yields_document (hs : schema.Coherent) {compiled : CompiledDocument}
    (hb : b.Reachable schema document) (h : Builder.buildDocument b = .ok compiled b') :
    b'.Reachable schema document ∧
      (∀ op ∈ compiled.operations, ∃ d ∈ b.document.operations, ∃ type,
        Yields schema document (OperationDefinition.unit d type op)) ∧
      ∀ f ∈ compiled.fragments, ∃ d ∈ b.document.fragments, ∃ d',
        document.Defines d.name d' ∧ Yields schema document (FragmentDefinition.unit d' f) := by
  obtain ⟨_, _, h₀, h⟩ := ok_of_bind h
  cases h₀
  obtain ⟨operations, b₁, h₁, h⟩ := ok_of_bind h
  obtain ⟨fragments, b₂, h₂, h⟩ := ok_of_bind h
  cases h
  have hop : ∀ (d : OperationDefinition) (b : Builder schema) op b', b.Reachable schema document →
      buildOperation d b = .ok op b' →
      b'.Reachable schema document ∧ ∃ type, Yields schema document (d.unit type op) := by
    intro d b op b' hb h
    obtain ⟨type, -, hy⟩ := hb.yields_operation h
    exact ⟨hb.operation (.inl ⟨op, h⟩), type.name, hy⟩
  have hfrag : ∀ (d : FragmentDefinition) (b : Builder schema) f b', b.Reachable schema document →
      buildFragment d.name b = .ok f b' →
      b'.Reachable schema document ∧ ∃ d' : FragmentDefinition,
        document.Defines d.name d' ∧ Yields schema document (d'.unit f) := by
    intro d b f b' hb h
    exact ⟨hb.fragment (.inl ⟨f, h⟩), hb.yields_fragment hs h⟩
  obtain ⟨hb₁, hops⟩ := ok_of_mapM hop hb h₁
  obtain ⟨hb₂, hfs⟩ := ok_of_mapM hfrag hb₁ h₂
  exact ⟨hb₂, hops, hfs⟩

end

/-! ## A small document

An interface whose one object type narrows the type of a field, and an operation that selects the
field on both, on the object type through a named fragment. Statements on all units are tried on
it. -/

namespace Sample

open Grammar (Definition FieldDefinition TypeBody TypeExpr)

/-- What work returned, if it succeeded. -/
def returned? {ε σ α : Type} : EStateM.Result ε σ α → Option (α × σ)
  | .ok a s => some (a, s)
  | .error _ _ => none

/-- Work that returned something succeeded. -/
theorem returned?_eq_some {ε σ α : Type} {r : EStateM.Result ε σ α} {a : α} {s : σ}
    (h : returned? r = some (a, s)) : r = .ok a s := by
  cases r with
  | ok => cases h; rfl
  | error => cases h

/-- A field without arguments. -/
def field (name : Name) (type : TypeExpr) : FieldDefinition := ⟨.start, none, name, [], type, []⟩

/-- A type definition. -/
def type (name : Name) (body : TypeBody) : Definition := .type ⟨.start, none, name, body⟩

/-- The definitions of the schema. -/
def definitions : List Definition := [
  type "Node" (.interface [] [field "id" (.named "ID"), field "next" (.named "Node")]),
  type "Leaf" (.object ["Node"] [field "id" (.named "ID"), field "next" (.named "Leaf")]),
  type "Query" (.object [] [field "node" (.named "Node")])]

/-- The schema that definitions make up, if they do. -/
def build? (definitions : List Definition) : Option Schema := do
  let (_, draft) ← returned? (DraftM.loadDefinitions none definitions .empty)
  let (schema, _) ← returned? (DraftM.build draft)
  return schema

/-- A schema that definitions make up is one that was built. -/
theorem built_of_build? {definitions : List Definition} {schema : Schema}
    (h : build? definitions = some schema) : schema.Built := by
  simp only [build?, bind, Option.bind_eq_some_iff] at h
  obtain ⟨⟨_, draft⟩, hl, ⟨schema', draft'⟩, hb, hs⟩ := h
  rw [← Option.some.inj hs]
  exact ⟨draft, draft', .definitions .empty (returned?_eq_some hl), returned?_eq_some hb⟩

/-- The schema, as it is built. -/
def schema? : Option Schema := build? definitions

/-- The definitions make up a schema. -/
theorem schema?_isSome : schema?.isSome = true := by decide +kernel

/-- The schema. -/
def schema : Schema := schema?.get schema?_isSome

/-- The schema is one that was built. -/
theorem built : schema.Built := built_of_build? (Option.some_get schema?_isSome).symm

/-- Where everything was written. -/
def place : SourceLocation := .inSchema none .start

/-- The selection of one field without fields. -/
def leaf : List Selection := [.field none "id" place []]

/-- What the operation selects on its one field. -/
def inner : List Selection := [.field none "next" place leaf, .spread "Parts" place]

/-- The operation. -/
def operation : OperationDefinition where
  location := place
  kind := .query
  name := none
  selections := [.field none "node" place inner]

/-- The fragment that the operation spreads. -/
def fragment : FragmentDefinition where
  location := place
  name := "Parts"
  selections := [.field (some "leaf") "next" place leaf]
  condition := "Leaf"

/-- The document. -/
def document : Document where
  file := none
  fragments := [fragment]
  operations := [operation]

/-- What a new builder of a document compiles an operation to, if it does. -/
def compile? (schema : Schema) (document : Document) (d : OperationDefinition) :
    Option Operation := do
  let builder ← (Builder.new schema document).toOption
  let (op, _) ← returned? (Builder.buildOperation d builder)
  return op

/-- An operation that was compiled was requested of a new builder. -/
theorem exists_of_compile? {schema : Schema} {document : Document} {d : OperationDefinition}
    {op : Operation} (h : compile? schema document d = some op) :
    ∃ b b', Builder.new schema document = .ok b ∧ Builder.buildOperation d b = .ok op b' := by
  simp only [compile?, bind, Option.bind_eq_some_iff] at h
  obtain ⟨b, hb, ⟨op', b'⟩, ho, hop⟩ := h
  cases hop
  refine ⟨b, b', ?_, returned?_eq_some ho⟩
  cases hn : Builder.new schema document with
  | error e => rw [hn] at hb; cases hb
  | ok b₀ => rw [hn] at hb; cases hb; rfl

/-- The unit that the operation is compiled to. -/
def unit? : Option CompiledUnit := do
  let type ← schema.root? operation.kind
  let op ← compile? schema document operation
  return operation.unit type.name op

/-- The operation can be compiled. -/
theorem unit?_isSome : unit?.isSome = true := by decide +kernel

/-- The compiled operation. -/
def unit : CompiledUnit := unit?.get unit?_isSome

/-- Where the compiled operation comes from. -/
theorem unit_eq : ∃ b type op b', Builder.new schema document = .ok b ∧
    schema.root? operation.kind = some type ∧ Builder.buildOperation operation b = .ok op b' ∧
    unit = operation.unit type.name op := by
  have h : unit? = some unit := (Option.some_get unit?_isSome).symm
  simp only [unit?, bind, Option.bind_eq_some_iff] at h
  obtain ⟨type, ht, op, hcompile, hu⟩ := h
  obtain ⟨b, b', hb, ho⟩ := exists_of_compile? hcompile
  exact ⟨b, type, op, b', hb, ht, ho, (Option.some.inj hu).symm⟩

/-- The compiled operation is a unit. -/
theorem yields : Yields schema document unit := by
  obtain ⟨b, type, op, b', hb, ht, ho, hu⟩ := unit_eq
  rw [hu]
  exact .operation (.new hb) ht ho

/-- The one field of the operation is collected. -/
theorem gathers_node :
    Gathers schema document "Query" unit.selections ⟨none, "node", place, inner⟩ := by
  obtain ⟨b, type, op, b', -, -, -, hu⟩ := unit_eq
  rw [hu]
  exact .field (.head _)

end Sample

end EntityGraph
