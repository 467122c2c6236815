import EntityGraph.Proofs.Request.Replies
import EntityGraph.Proofs.Schema.References

/-!
# Selections that were checked

Selections reach the checks of a walk on several ways: under each of the conditions that they are
narrowed to, below a field, or for the errors only, when they can never apply. None is left out. The
selections below a valid selection are themselves valid on some composite type
(`Selection.Valid.below_field`, `Selection.Valid.below_inline`), so every selection that stands
anywhere in a unit that was compiled is checked (`Selection.checked_of_valid`, by induction on where
it stands). Main statement: `Schema.Built.compiled_checked`, for registries with any history and for
every request to a builder.
-/

namespace EntityGraph

open LookupM (Gives)

/-! ## What is checked of a selection -/

namespace Selection

/-- The selection stands among the selections, at any depth. -/
inductive Amid (s : Selection) : List Selection → Prop
  | here {selections : List Selection} : s ∈ selections → Amid s selections
  | field {selections inner : List Selection} {aliasName : Option Name} {name : Name}
      {location : SourceLocation} :
      .field aliasName name location inner ∈ selections → Amid s inner → Amid s selections
  | inline {selections inner : List Selection} {condition : Option Name}
      {location : SourceLocation} :
      .inline condition location inner ∈ selections → Amid s inner → Amid s selections

/-- The selection makes sense, wherever it stands: an inline fragment names a composite type, a
spread a compiled fragment, and a field is declared by an object or interface, on a composite type if
anything is selected on it. Nothing is selected on `__typename`. -/
def Checked (schema : Schema) (registry : Registry) : Selection → Prop
  | .field _ name _ inner =>
    if name = typenameField then inner = []
    else ∃ c type o f, schema.types.find? c = some type ∧ type.fielded? = some o ∧
      o.field? name = some f ∧ (inner ≠ [] → schema.Composite f.type.innermostName)
  | .spread fragment _ => fragment ∈ registry.built.keys
  | .inline none _ _ => True
  | .inline (some c) _ _ => schema.Composite c

end Selection

section
variable {schema : Schema}

/-! ## Built-in types -/

/-- A built-in scalar is not defined anew. -/
theorem Schema.Built.builtIn (h : schema.Built) {name : Name} (hname : name ∈ builtInScalarNames) :
    schema.types.find? name = some (.scalar (.builtIn name)) := by
  obtain ⟨ps, draft, hheld, -, hfinish⟩ := h.drafted
  have happly := (Draft.finish_eq_ok_iff.1 hfinish).1
  have hdraft : draft.types.find? name = some (.scalar (.builtIn name)) :=
    hheld.find?_iff.2 (.inl ⟨hname, rfl⟩)
  rw [(Draft.Extended.applyAll happly).find?, hdraft]
  rfl

/-- The type of `__typename` is a leaf. -/
theorem Schema.Built.typename_leaf (h : schema.Built) {type : NamedType}
    (htype : schema.types.find? typenameType.innermostName = some type) :
    type.isComposite = false := by
  have hstring : schema.types.find? typenameType.innermostName =
      some (.scalar (.builtIn typenameType.innermostName)) := h.builtIn (by decide)
  rw [hstring] at htype
  cases htype
  rfl

/-! ## Valid selections are checked -/

namespace Selection

variable {c : Name} {Ok : Name → Prop} {registry : Registry}

/-- A field that is found on a type other than `__typename` is declared there. -/
theorem declared_of_fieldType? {name : Name} {declared : DeclaredType}
    (hname : name ≠ typenameField) (h : schema.fieldType? c name = some declared) :
    ∃ type o f, schema.types.find? c = some type ∧ type.fielded? = some o ∧
      o.field? name = some f ∧ f.type = declared := by
  rw [Schema.fieldType?, if_neg hname] at h
  obtain ⟨f, hf, rfl⟩ := Option.map_eq_some_iff.1 h
  obtain ⟨type, htype, hf⟩ := Option.bind_eq_some_iff.1 hf
  obtain ⟨o, ho, hf⟩ := Option.bind_eq_some_iff.1 hf
  exact ⟨type, o, f, htype, ho, hf, rfl⟩

/-- A valid selection is checked itself. -/
theorem Valid.checked (hs : schema.Built) (hc : schema.Composite c) {s : Selection}
    (h : s.Valid schema (· ∈ registry.built.keys) c) : s.Checked schema registry := by
  cases h with
  | leaf hd _ _ =>
    rw [Checked]
    split
    · rfl
    · next hname =>
      obtain ⟨type, o, f, htype, ho, hf, -⟩ := declared_of_fieldType? hname hd
      exact ⟨c, type, o, f, htype, ho, hf, fun hne => absurd rfl hne⟩
  | node hd ht hcomp _ =>
    rw [Checked]
    split
    · next hname =>
      -- nothing composite is the type of `__typename`
      rw [Schema.fieldType?, if_pos hname] at hd
      cases hd
      rw [hs.typename_leaf ht] at hcomp
      cases hcomp
    · next hname =>
      obtain ⟨type, o, f, htype, ho, hf, rfl⟩ := declared_of_fieldType? hname hd
      exact ⟨c, type, o, f, htype, ho, hf, fun _ => ⟨_, ht, hcomp⟩⟩
  | spread hok => exact hok
  | inline => trivial
  | narrowed hi | excluded hi => exact LookupM.intersect_composite hc hi

/-- What stands below a valid field is valid on a composite type. -/
theorem Valid.below_field (hs : schema.Coherent) (hc : schema.Composite c)
    {aliasName : Option Name} {name : Name} {location : SourceLocation} {inner : List Selection}
    (h : (Selection.field aliasName name location inner).Valid schema Ok c) :
    ∃ c', schema.Composite c' ∧ ∀ s ∈ inner, s.Valid schema Ok c' := by
  cases h with
  | leaf => exact ⟨c, hc, by simp⟩
  | @node _ _ _ _ _ declared type _ ht hcomp hinner =>
    have hname : type.name = declared.innermostName := hs.named _ _ ht
    exact ⟨type.name, ⟨type, hname ▸ ht, hcomp⟩, hinner⟩

/-- What stands below a valid inline fragment is valid on a composite type: on one of those that the
fragment narrows to, or on its own type if it can never apply. -/
theorem Valid.below_inline (hs : schema.Coherent) (hc : schema.Composite c)
    {condition : Option Name} {location : SourceLocation} {inner : List Selection}
    (h : (Selection.inline condition location inner).Valid schema Ok c) :
    ∃ c', schema.Composite c' ∧ ∀ s ∈ inner, s.Valid schema Ok c' := by
  cases h with
  | inline hinner => exact ⟨c, hc, hinner⟩
  | narrowed hi hne hinner =>
    obtain ⟨c', hc'⟩ := List.exists_mem_of_ne_nil _ hne
    exact ⟨c', (LookupM.intersect_gives hs hc hi).composite c' hc', hinner c' hc'⟩
  | excluded hi hinner => exact ⟨_, LookupM.intersect_composite hc hi, hinner⟩

/-- All that stands among valid selections is checked. -/
theorem checked_of_valid (hs : schema.Built) (hc : schema.Composite c)
    {selections : List Selection}
    (hvalid : ∀ s ∈ selections, s.Valid schema (· ∈ registry.built.keys) c) {s : Selection}
    (h : s.Amid selections) : s.Checked schema registry := by
  induction h generalizing c with
  | here hm => exact (hvalid s hm).checked hs hc
  | field hm _ ih =>
    obtain ⟨c', hc', hinner⟩ := (hvalid _ hm).below_field hs.coherent hc
    exact ih hc' hinner
  | inline hm _ ih =>
    obtain ⟨c', hc', hinner⟩ := (hvalid _ hm).below_inline hs.coherent hc
    exact ih hc' hinner

/-- What is checked stays so when more is compiled. -/
theorem Checked.mono {registry' : Registry} {s : Selection} (h : s.Checked schema registry)
    (hx : registry.Extends registry') : s.Checked schema registry' := by
  match s with
  | .field .. => exact h
  | .inline none .. => trivial
  | .inline (some _) .. => exact h
  | .spread .. =>
    obtain ⟨f, hf⟩ := Dict.mem_keys_iff.1 h
    exact Dict.mem_keys_iff.2 ⟨f, hx.built _ _ hf⟩

end Selection

/-! ## Units are checked -/

/-- All that stands among the selections is checked. -/
def Registry.Checks (schema : Schema) (registry : Registry) (selections : List Selection) : Prop :=
  ∀ s : Selection, s.Amid selections → s.Checked schema registry

/-- What is checked stays so when more is compiled. -/
theorem Registry.Checks.mono {registry registry' : Registry} {selections : List Selection}
    (h : registry.Checks schema selections) (hx : registry.Extends registry') :
    registry'.Checks schema selections :=
  fun s hs => (h s hs).mono hx

/-- A fragment that was compiled is one of a composite type. -/
theorem compileFragment_composite {resolve : Name → RunM schema Fragment} {d : FragmentDefinition}
    {c : Compiled FragmentDefinition} {run run' : Run schema}
    (h : compileFragment resolve d run = .ok c run') : schema.Composite d.condition := by
  obtain ⟨_, r₁, -, h⟩ := ok_of_bind h
  obtain ⟨type, r₂, htype, h⟩ := ok_of_bind h
  have hask : RunM.Walks resolve (fun _ => True) (RunM.ask (LookupM.type d.condition))
      fun type _ => Gives (LookupM.type d.condition) type := .ask (LookupM.type_steady _)
  obtain ⟨-, -, hgives⟩ := hask.of_ok htype
  split at h
  · next hc => exact ⟨type, LookupM.type_gives hgives, hc⟩
  · cases h

variable {run run' : Run schema}

/-- All that stands in a compiled fragment is checked, whenever it was compiled. -/
theorem Run.Kept.checks (hs : schema.Built) (hk : run.Kept) {name : Name} {f : Fragment}
    (hf : run.registry.built.find? name = some f) :
    run.registry.Checks schema f.definition.selections := by
  have hentry := hk.entry name f hf
  obtain ⟨depth, r, r', -, hc, -⟩ := hentry.compiled
  obtain ⟨called, -, -, -, -, hvalid, -⟩ := compileFragment_ok hc
  intro s hs'
  refine Selection.checked_of_valid hs (compileFragment_composite hc) (fun s hm => ?_) hs'
  refine (hvalid s hm).mono fun m hm' _ => ?_
  obtain ⟨g, hg, -⟩ := hentry.spreads m (Selection.mem_spreadsAll.2 ⟨s, hm, hm'⟩)
  exact Dict.mem_keys_iff.2 ⟨g, hg⟩

/-- All that stands in an operation is checked when the operation was compiled. -/
theorem operation_checks (hs : schema.Built) (hk : run.Kept) {d : OperationDefinition}
    {op : Operation} (h : RunM.operation d run = .ok op run') :
    run'.registry.Checks schema d.selections := by
  have hr : ∀ m (r : Run schema), r.Kept → r.Leads m (RunM.resolve m r) :=
    fun _ _ hk => resolveWithin_kept hk
  obtain ⟨called, hcalls, ⟨type, hroot, hvalid⟩, -⟩ := compileOperation_walks.of_ok h
  obtain ⟨-, -, hcalled⟩ := hcalls.kept hr hk
  intro s hs'
  refine Selection.checked_of_valid hs (hs.coherent.root_composite hroot) (fun s hm => ?_) hs'
  refine (hvalid s hm).mono fun m _ ⟨f, hf⟩ => ?_
  exact Dict.mem_keys_iff.2 ⟨f, hcalled _ hf⟩

/-! ## Requests to builders -/

namespace Builder

variable {document : Document} {α β : Type} {b b' : Builder schema}

/-- On a builder between requests, work that succeeds ends with one whose registry has all that it
had and checks the selections in `units`. -/
def Checks (document : Document) (work : BuilderM schema α) (units : List Selection → Prop) :
    Prop :=
  ∀ b, b.Standing document → ∀ a b', work b = .ok a b' →
    b'.Standing document ∧ b.run.registry.Extends b'.run.registry ∧
      ∀ selections, units selections → b'.run.registry.Checks schema selections

namespace Checks

variable {units units' : List Selection → Prop}

/-- Fewer selections are checked. -/
theorem mono {work : BuilderM schema α} (h : Checks document work units)
    (himp : ∀ selections, units' selections → units selections) :
    Checks document work units' := by
  intro b hb a b' hw
  obtain ⟨hb', hx, hchecks⟩ := h b hb a b' hw
  exact ⟨hb', hx, fun selections hu => hchecks selections (himp selections hu)⟩

/-- A value that is returned. -/
theorem pure (a : α) : Checks document (Pure.pure a : BuilderM schema α) fun _ => False := by
  intro b hb a' b' hw
  cases hw
  exact ⟨hb, .refl, nofun⟩

/-- A sequence: what the first part checked stays so. -/
theorem bind {work : BuilderM schema α} {next : α → BuilderM schema β}
    (h₁ : Checks document work units) (h₂ : ∀ a, Checks document (next a) units') :
    Checks document (work >>= next) fun selections => units selections ∨ units' selections := by
  intro b hb c b' hw
  obtain ⟨a, b₁, hw₁, hw₂⟩ := ok_of_bind hw
  obtain ⟨hb₁, hx₁, hchecks₁⟩ := h₁ b hb a b₁ hw₁
  obtain ⟨hb', hx', hchecks'⟩ := h₂ a b₁ hb₁ c b' hw₂
  refine ⟨hb', hx₁.trans hx', ?_⟩
  rintro selections (hu | hu)
  · exact (hchecks₁ selections hu).mono hx'
  · exact hchecks' selections hu

/-- Requests for the elements of a list. -/
theorem mapM {f : α → BuilderM schema β} {U : α → List Selection → Prop} {l : List α}
    (h : ∀ a, Checks document (f a) (U a)) :
    Checks document (l.mapM f) fun selections => ∃ a ∈ l, U a selections := by
  induction l with
  | nil =>
    rw [List.mapM_nil]
    exact (pure _).mono (by simp)
  | cons a l ih =>
    rw [List.mapM_cons]
    refine ((h a).bind fun _ => ih.bind fun _ => pure _).mono ?_
    rintro selections ⟨a', ha', hu⟩
    rcases List.mem_cons.1 ha' with rfl | ha'
    · exact .inl hu
    · exact .inr (.inl ⟨a', ha', hu⟩)

end Checks

section
variable (hs : schema.Built)
include hs

/-- A request for an operation. -/
theorem buildOperation_checks (d : OperationDefinition) :
    Checks document (buildOperation d : BuilderM schema Operation) (· = d.selections) := by
  intro b hb op b' hw
  have hmeets := buildOperation_meets schema document d b hb
  rw [hw] at hmeets
  have hlead := operation_kept hb.live.kept d
  have ho : RunM.operation d b.run = .ok op b'.run := ok_of_guarded hw
  rw [ho] at hlead
  refine ⟨hmeets.1, hlead.2.1, ?_⟩
  rintro _ rfl
  exact operation_checks hs hb.live.kept ho

/-- A request for a fragment. -/
theorem buildFragment_checks (name : Name) :
    Checks document (buildFragment name : BuilderM schema Fragment) fun selections =>
      ∃ d, document.Defines name d ∧ selections = d.selections := by
  intro b hb f b' hw
  have hmeets := buildFragment_meets schema document name b hb
  rw [hw] at hmeets
  have hlead : b.run.Leads name (RunM.resolve name b.run) := resolveWithin_kept hb.live.kept
  have hr : RunM.resolve name b.run = .ok f b'.run := ok_of_guarded hw
  rw [hr] at hlead
  obtain ⟨hk, hx, hf⟩ := hlead
  refine ⟨hmeets.1, hx, ?_⟩
  rintro _ ⟨d, hd, rfl⟩
  have hdefined := hmeets.1.defines_iff.2 hd
  rw [(hk.entry name f hf).definition] at hdefined
  cases hdefined
  exact hk.checks hs hf

/-- A request for the document. -/
theorem buildDocument_checks :
    Checks document (buildDocument : BuilderM schema CompiledDocument) fun selections =>
      (∃ d ∈ document.operations, selections = d.selections) ∨
        ∃ d ∈ document.fragments, selections = d.selections := by
  intro b hb c b' hw
  obtain ⟨_, _, hget, hw⟩ := ok_of_bind hw
  cases hget
  rw [hb.same] at hw
  have hoperations : Checks document
      (document.operations.mapM buildOperation : BuilderM schema (List Operation))
      fun selections => ∃ d ∈ document.operations, selections = d.selections :=
    .mapM (buildOperation_checks hs)
  have hfragments : Checks document
      (document.fragments.mapM fun d => buildFragment d.name : BuilderM schema (List Fragment))
      fun selections => ∃ d ∈ document.fragments, selections = d.selections :=
    (Checks.mapM fun d : FragmentDefinition => buildFragment_checks hs d.name).mono
      fun _ ⟨d, hd, hselections⟩ => ⟨d, hd, d, ⟨hd, rfl⟩, hselections⟩
  have hall := hoperations.bind fun ops => hfragments.bind fun fs =>
    .pure (CompiledDocument.mk fs ops)
  exact hall.mono (fun _ hu => hu.imp_right .inl) b hb c b' hw

end

end Builder

/-- In a schema that was built no selection escapes: if a name resolves, or an operation is
compiled, on a registry with any history, then all that stands in the definition, at any depth and
also below inline fragments that can never apply, is checked against the schema and what is compiled
then. The same holds of every request to a builder after any other requests. -/
theorem Schema.Built.compiled_checked (hs : schema.Built) :
    (∀ run run' : Run schema, run.Live →
      (∀ name f, RunM.resolve name run = .ok f run' →
        run'.registry.definitions.find? name = some f.definition ∧
          run'.registry.Checks schema f.definition.selections) ∧
      ∀ d op, RunM.operation d run = .ok op run' → run'.registry.Checks schema d.selections) ∧
    ∀ (document : Document) (history : List Request) (b b' : Builder schema),
      Builder.After schema document history b →
      (∀ d op, Builder.buildOperation d b = .ok op b' →
        b'.run.registry.Checks schema d.selections) ∧
      (∀ name op, Builder.buildOperationNamed name b = .ok op b' →
        ∃ d, document.operation? name = some d ∧ b'.run.registry.Checks schema d.selections) ∧
      (∀ name f, Builder.buildFragment name b = .ok f b' →
        document.Defines name f.definition ∧
          b'.run.registry.Checks schema f.definition.selections) ∧
      ∀ c, Builder.buildDocument b = .ok c b' →
        (∀ d ∈ document.operations, b'.run.registry.Checks schema d.selections) ∧
          ∀ d ∈ document.fragments, b'.run.registry.Checks schema d.selections := by
  have hresolve {run run' : Run schema} (hlive : run.Live) {name : Name} {f : Fragment}
      (h : RunM.resolve name run = .ok f run') :
      run'.registry.definitions.find? name = some f.definition ∧
        run'.registry.Checks schema f.definition.selections := by
    have hlead : run.Leads name (RunM.resolve name run) := resolveWithin_kept hlive.kept
    rw [h] at hlead
    obtain ⟨hk, -, hf⟩ := hlead
    exact ⟨(hk.entry name f hf).definition, hk.checks hs hf⟩
  refine ⟨fun run run' hlive => ⟨fun name f => hresolve hlive, fun d op =>
    operation_checks hs hlive.kept⟩, fun document history b b' hafter => ?_⟩
  have hb := hafter.standing
  refine ⟨fun d op hw => ?_, fun name op hw => ?_, fun name f hw => ?_, fun c hw => ?_⟩
  · exact operation_checks hs hb.live.kept (Builder.ok_of_guarded hw)
  · rw [Builder.buildOperationNamed_eq, hb.same] at hw
    split at hw
    · next d hd => exact ⟨d, hd, operation_checks hs hb.live.kept (Builder.ok_of_guarded hw)⟩
    · cases hw
  · obtain ⟨hdefined, hchecks⟩ := hresolve hb.live (Builder.ok_of_guarded hw)
    have hmeets := Builder.buildFragment_meets schema document name b hb
    rw [hw] at hmeets
    exact ⟨hmeets.1.defines_iff.1 hdefined, hchecks⟩
  · obtain ⟨-, -, hchecks⟩ := Builder.buildDocument_checks hs b hb c b' hw
    exact ⟨fun d hd => hchecks _ (.inl ⟨d, hd, rfl⟩), fun d hd => hchecks _ (.inr ⟨d, hd, rfl⟩)⟩

end

namespace Sample

/-- All that stands in the sample operation is checked, with the fragment that it spreads compiled
by then. -/
theorem operation_checked : schema.Built ∧
    ∃ b op b', Builder.After schema document [] b ∧
      Builder.buildOperation operation b = .ok op b' ∧
      (Selection.spread "Parts" place).Amid operation.selections ∧
      "Parts" ∈ b'.run.registry.built.keys ∧
      (Selection.field none "next" place leaf).Checked schema b'.run.registry := by
  obtain ⟨b, type, op, b', hnew, -, hop, -⟩ := unit_eq
  have hchecks := ((Schema.Built.compiled_checked built).2 document [] b b' (.new hnew)).1
    operation op hop
  have hnode : (.field none "node" place inner : Selection) ∈ operation.selections := .head _
  have hspread : (Selection.spread "Parts" place).Amid operation.selections :=
    .field hnode (.here (.tail _ (.head _)))
  have hnext : (Selection.field none "next" place leaf).Amid operation.selections :=
    .field hnode (.here (.head _))
  exact ⟨built, b, op, b', .new hnew, hop, hspread, hchecks _ hspread, hchecks _ hnext⟩

end Sample

end EntityGraph
