import EntityGraph.Proofs.Request.Builders

/-!
# Fields that a walk looks up

A walk looks up every field that it comes to, on the type under whose condition the field is
selected. Which look-ups a walk can make is said by the selections and the schema alone (`LooksUp`).
A field is reported as unknown only if one of these look-ups finds nothing, in the definition that
was requested or in a fragment of the document. Main statements: `resolve_fails` and
`operation_fails`, that a request fails only with what walks fail with (`BuildError.OfWalks`), where
an unknown field is one whose look-up finds nothing (`Misses`). So whatever is true of these look-ups
is true of the type and the field that an error names (`BuildError.Blames`), for each request to a
builder.
-/

namespace EntityGraph

variable {schema : Schema} {α β : Type}

/-! ## Look-ups -/

/-- In the selections on the type `c` the field `name` is looked up on `type`. -/
inductive LooksUp (schema : Schema) (type name : Name) : Name → List Selection → Prop
  | field {c : Name} {selections inner : List Selection} {aliasName : Option Name}
      {place : SourceLocation} :
      Emits schema c selections (.field aliasName name place inner type) →
      LooksUp schema type name c selections
  | nested {c own c' : Name} {selections inner : List Selection} {aliasName : Option Name}
      {place : SourceLocation} {declared : DeclaredType} :
      Emits schema c selections (.field aliasName own place inner c') →
      schema.fieldType? c' own = some declared → schema.Composite declared.innermostName →
      LooksUp schema type name declared.innermostName inner → LooksUp schema type name c selections
  | excluded {c own : Name} {selections inner : List Selection} {place : SourceLocation} :
      Emits schema c selections (.unreachable place inner own) →
      LooksUp schema type name own inner → LooksUp schema type name c selections

/-- `P` holds of the type and the field of every look-up that finds nothing, in the selections on
the type `c`. -/
def Misses (schema : Schema) (P : Name → Name → Prop) (c : Name) (selections : List Selection) :
    Prop :=
  ∀ type name, LooksUp schema type name c selections → schema.fieldType? type name = none →
    P type name

/-! ## How work fails -/

/-- Started with a registry that satisfies `I`, the work fails only with what is of the kind
`bad`. -/
def RunM.Fails (I : Registry → Prop) (bad : BuildError → Prop) (work : RunM schema α) : Prop :=
  ∀ run e run', I run.registry → work run = .error e run' → bad e

/-- The same of work on a unit. -/
def UnitM.Fails (I : Registry → Prop) (bad : BuildError → Prop) (work : UnitM schema α) : Prop :=
  ∀ w, RunM.Fails I bad (work w)

variable {I : Registry → Prop} {bad : BuildError → Prop}

namespace RunM.Fails

/-- A value that is returned. -/
theorem pure (a : α) : Fails I bad (Pure.pure a : RunM schema α) := by
  intro run e run' _ he
  cases he

/-- A failure of the kind. -/
theorem throw {e : BuildError} (h : bad e) :
    Fails I bad (MonadExcept.throw e : RunM schema α) := by
  intro run e' run' _ he
  cases he
  exact h

/-- A sequence, where what the first part returns is known. -/
theorem bind {work : RunM schema α} {next : α → RunM schema β} {mid : α → Prop}
    (hd : Does I work mid) (h₁ : Fails I bad work) (h₂ : ∀ a, mid a → Fails I bad (next a)) :
    Fails I bad (work >>= next) := by
  intro run e run' hI h
  rcases error_of_bind h with h | ⟨a, run₁, ha, h⟩
  · exact h₁ run e run' hI h
  · have hd := hd run hI
    rw [ha] at hd
    exact h₂ a hd.2 run₁ e run' hd.1 h

/-- Work that needs the schema only. -/
theorem ofLookup {q : LookupM schema BuildError α} (h : q.Fails bad) :
    Fails I bad (RunM.ofLookup q) := by
  intro run e run' _ he
  unfold RunM.ofLookup at he
  split at he
  · cases he
  · next hq =>
    cases he
    exact h _ _ _ hq

/-- A loop. -/
theorem forM {f : α → RunM schema Unit} : ∀ {l : List α},
    (∀ a ∈ l, Does I (f a) fun _ => True) → (∀ a ∈ l, Fails I bad (f a)) → Fails I bad (l.forM f)
  | [], _, _ => .pure _
  | a :: _, hd, h =>
    .bind (hd a (.head _)) (h a (.head _)) fun _ _ =>
      forM (fun b hb => hd b (List.mem_cons_of_mem _ hb))
        fun b hb => h b (List.mem_cons_of_mem _ hb)

end RunM.Fails

namespace UnitM.Fails

/-- A value that is returned. -/
theorem pure (a : α) : Fails I bad (Pure.pure a : UnitM schema α) := fun _ => .pure _

/-- A sequence, where what the first part returns is known. -/
theorem bind {work : UnitM schema α} {next : α → UnitM schema β}
    {mid : Workpiece → α → Workpiece → Prop} (hd : ∀ w, Does I work w (mid w))
    (h₁ : Fails I bad work) (h₂ : ∀ a, (∃ w w', mid w a w') → Fails I bad (next a)) :
    Fails I bad (work >>= next) :=
  fun w => RunM.Fails.bind (hd w) (h₁ w) fun p hp => h₂ p.1 ⟨w, p.2, hp⟩ p.2

/-- The unit is looked at. -/
theorem get : Fails I bad (get : UnitM schema Workpiece) := fun w => .pure (w, w)

/-- The unit is changed. -/
theorem modify {f : Workpiece → Workpiece} : Fails I bad (modify f : UnitM schema PUnit) :=
  fun w => .pure (PUnit.unit, f w)

/-- Work of the run. -/
theorem ofRun {work : RunM schema α} {post : α → Prop} (hd : RunM.Does I work post)
    (h : RunM.Fails I bad work) : Fails I bad (UnitM.ofRun work) :=
  fun _ => .bind hd h fun _ _ => .pure _

/-- A loop. -/
theorem forM {f : α → UnitM schema Unit} {R : α → Workpiece → Workpiece → Prop} :
    ∀ {l : List α}, (∀ a ∈ l, ∀ w, Does I (f a) w fun _ w' => R a w w') →
      (∀ a ∈ l, Fails I bad (f a)) → Fails I bad (l.forM f)
  | [], _, _ => .pure _
  | a :: _, hd, h =>
    .bind (hd a (.head _)) (h a (.head _)) fun _ _ =>
      forM (fun b hb => hd b (List.mem_cons_of_mem _ hb))
        fun b hb => h b (List.mem_cons_of_mem _ hb)

end UnitM.Fails

/-! ## What errors name -/

/-- The kind `bad` includes all that a walk can fail with, and of the unknown fields those for which
`P` holds. -/
structure BuildError.OfWalks (P : Name → Name → Prop) (bad : BuildError → Prop) : Prop where
  lookup : ∀ e, bad (.ofLookup e)
  conflict : ∀ location key existing conflicting,
    bad (.mergeConflict location key existing conflicting)
  field : ∀ type name place, P type name → bad (.unknownField type name place)
  fragment : ∀ name, bad (.unknownFragment name)
  cycle : ∀ path, bad (.fragmentCycle path)
  root : ∀ kind, bad (.undefinedRoot kind)

/-- If the failure is about an unknown field, then `P` holds of the type and the field. -/
def BuildError.Blames (P : Name → Name → Prop) (e : BuildError) : Prop :=
  ∀ type name place, e = .unknownField type name place → P type name

/-- Only unknown fields are blamed on something. -/
theorem BuildError.OfWalks.blames (P : Name → Name → Prop) : OfWalks P (Blames P) where
  lookup e := by cases e <;> exact fun _ _ _ => nofun
  conflict _ _ _ _ _ _ _ := nofun
  field type name place h _ _ _ he := by cases he; exact h
  fragment _ _ _ _ := nofun
  cycle _ _ _ _ := nofun
  root _ _ _ _ := nofun

/-- A report does not fail. -/
theorem report_fails {event : Event} :
    RunM.Fails I bad (RunM.report event : RunM schema Unit) := by
  refine .ofLookup fun _ _ _ he => ?_
  cases he

/-- The entity at a location is found or created. -/
theorem entityAt_fails {l : Location} :
    UnitM.Fails I bad (UnitM.entityAt l : UnitM schema Entity) := by
  refine .bind (fun _ => .get) .get fun w _ => ?_
  split
  · exact .pure _
  · refine .bind (fun _ => .ofRun .report) (.ofRun .report report_fails) fun _ _ => ?_
    exact .bind (fun _ => .modify) .modify fun _ _ => .pure _

section
variable {P : Name → Name → Prop} (hbad : BuildError.OfWalks P bad)
include hbad

/-- A question fails with what the schema cannot answer. -/
theorem ask_fails {q : LookupM schema LookupError α} : RunM.Fails I bad (RunM.ask q) :=
  .ofLookup (.asked hbad.lookup q)

/-- A merge fails because of a conflict. -/
theorem mergeAt_fails {l : Location} {f : EntityField} :
    UnitM.Fails I bad (UnitM.mergeAt l f : UnitM schema Unit) := by
  refine .bind (fun _ => entityAt_does) entityAt_fails fun e _ => ?_
  have hmerge : (e.mergeField f : LookupM schema BuildError Entity).Fails bad :=
    e.mergeField_fails hbad.lookup hbad.conflict f
  exact .bind (fun _ => .ofRun .ofLookup) (.ofRun .ofLookup (.ofLookup hmerge)) fun _ _ => .modify

/-- A look-up that finds nothing is blamed on the type and the field. -/
theorem fieldType_fails {name c : Name} {place : SourceLocation}
    (h : schema.fieldType? c name = none → P c name) :
    RunM.Fails I bad (RunM.fieldType name place c : RunM schema DeclaredType) := by
  unfold RunM.fieldType
  split
  · exact .pure _
  · next hname =>
    refine .bind .ask (ask_fails hbad) fun type ht => ?_
    have ht := LookupM.type_gives ht
    split
    · exact .pure _
    · next hnone =>
      exact .throw (hbad.field _ _ _ (h (by simp [Schema.fieldType?, hname, ht, hnone])))

/-- Selections on a leaf are refused as an answer of the schema would be. -/
theorem checkLeaf_fails {type : NamedType} {selections : List Selection} :
    RunM.Fails I bad (RunM.checkLeaf type selections : RunM schema Unit) := by
  unfold RunM.checkLeaf
  split
  · exact .pure _
  · exact .throw (hbad.lookup (.notComposite _ _))

/-- A copy looks nothing up. -/
theorem copyWithin_fails {fragment : Fragment} {depth : Nat} {target source : Location}
    {c : Name} :
    UnitM.Fails I bad (copyWithin fragment depth target source c : UnitM schema Unit) := by
  induction depth generalizing target source c with
  | zero => exact .pure _
  | succ depth ih =>
    unfold copyWithin
    split
    · exact .pure _
    · refine .bind (fun _ => entityAt_does) entityAt_fails fun known _ => ?_
      refine .bind (fun _ => .modify) .modify fun _ _ => ?_
      refine .forM (fun f _ w => copyField_does fun _ _ _ _ => copyWithin_does) fun f _ => ?_
      refine .bind (fun _ => .ask) (.ofRun .ask (ask_fails hbad)) fun cs _ => ?_
      split
      · exact .pure _
      · cases f.child with
        | some child => exact .bind (fun _ => copyWithin_does) ih fun _ _ => mergeAt_fails hbad
        | none => exact mergeAt_fails hbad

variable {resolve : Name → RunM schema Fragment} {G : Name → Fragment → Prop}

section
variable (hs : schema.Coherent) (hd : ∀ name, RunM.Does I (resolve name) (G name))
  (hr : ∀ name, RunM.Fails I bad (resolve name))
include hs hd hr

/-- Selections that are checked look up their fields. -/
theorem validateWithin_fails {height : Nat} {c : Name} {selections : List Selection}
    (hP : Misses schema P c selections) :
    RunM.Fails I bad (validateWithin resolve height c selections) := by
  induction height generalizing c selections with
  | zero => exact .pure _
  | succ height ih =>
    refine .bind .ask (ask_fails hbad) fun normal hnormal => ?_
    refine .forM (fun n _ => validateSelection_does hd fun _ _ => validateWithin_does hd) ?_
    intro n hn
    have hemits := Selection.normalizeAll_emits selections hnormal n hn
    cases n with
    | field aliasName name place inner c =>
      have hself := hP c name (.field hemits)
      refine .bind fieldType_does (fieldType_fails hbad hself) fun declared hdeclared => ?_
      refine .bind .ask (ask_fails hbad) fun type ht => ?_
      have ht := LookupM.type_gives ht
      split
      · next hc =>
        rw [hs.named _ _ ht]
        exact ih fun type' name' h =>
          hP type' name' (.nested hemits hdeclared ⟨type, ht, hc⟩ h)
      · exact checkLeaf_fails hbad
    | spread name place c => exact .bind (hd name) (hr name) fun _ _ => .pure _
    | unreachable place inner own =>
      exact ih fun type name h => hP type name (.excluded hemits h)

/-- Selections that are entered look up their fields. -/
theorem visitWithin_fails {height : Nat} {location : Location} {c : Name}
    {selections : List Selection} (hP : Misses schema P c selections) :
    UnitM.Fails I bad (visitWithin resolve height location c selections) := by
  induction height generalizing location c selections with
  | zero => exact .bind (fun _ => entityAt_does) entityAt_fails fun _ _ => .pure _
  | succ height ih =>
    refine .bind (fun _ => entityAt_does) entityAt_fails fun _ _ => ?_
    refine .bind (fun _ => .ask) (.ofRun .ask (ask_fails hbad)) ?_
    rintro normal ⟨_, _, hnormal, -⟩
    refine .forM (fun n _ w => visitSelection_does hd fun _ _ _ _ => visitWithin_does hd) ?_
    intro n hn
    have hemits := Selection.normalizeAll_emits selections hnormal n hn
    cases n with
    | field aliasName name place inner c =>
      have hself := hP c name (.field hemits)
      refine .bind (fun _ => .ofRun fieldType_does)
        (.ofRun fieldType_does (fieldType_fails hbad hself)) ?_
      rintro declared ⟨_, _, hdeclared, -⟩
      refine .bind (fun _ => .ask) (.ofRun .ask (ask_fails hbad)) ?_
      rintro type ⟨_, _, ht, -⟩
      have ht := LookupM.type_gives ht
      split
      · next hc =>
        rw [hs.named _ _ ht]
        have hinner : Misses schema P declared.innermostName inner := fun type' name' h =>
          hP type' name' (.nested hemits hdeclared ⟨type, ht, hc⟩ h)
        exact .bind (fun _ => visitWithin_does hd) (ih hinner) fun _ _ => mergeAt_fails hbad
      · exact .bind (fun _ => .ofRun checkLeaf_does) (.ofRun checkLeaf_does (checkLeaf_fails hbad))
          fun _ _ => mergeAt_fails hbad
    | spread name place c =>
      refine .bind (fun _ => .ofRun (hd name)) (.ofRun (hd name) (hr name)) fun fragment _ => ?_
      refine .bind (fun _ => .modify) .modify fun _ _ => ?_
      refine .bind (fun _ => .ask) (.ofRun .ask (ask_fails hbad)) fun cs _ => ?_
      exact .forM (fun _ _ _ => copyWithin_does) fun _ _ => copyWithin_fails hbad
    | unreachable place inner own =>
      have hinner : Misses schema P own inner := fun type name h =>
        hP type name (.excluded hemits h)
      exact .ofRun (validateWithin_does hd) (validateWithin_fails hbad hs hd hr hinner)

/-- A fragment definition looks up the fields of its selections, on its condition. -/
theorem compileFragment_fails {d : FragmentDefinition}
    (hP : schema.Composite d.condition → Misses schema P d.condition d.selections) :
    RunM.Fails I bad (compileFragment resolve d) := by
  refine .bind .report report_fails fun _ _ => .bind .ask (ask_fails hbad) fun type ht => ?_
  have ht := LookupM.type_gives ht
  split
  · next hc =>
    refine .bind (visitWithin_does hd) (visitWithin_fails hbad hs hd hr (hP ⟨type, ht, hc⟩) _) ?_
    exact fun _ _ => .bind .report report_fails fun _ _ => .pure _
  · exact .throw (hbad.lookup (.notComposite _ _))

/-- An operation looks up the fields of its selections, on its root type. -/
theorem compileOperation_fails {d : OperationDefinition}
    (hP : ∀ type, schema.root? d.kind = some type → Misses schema P type.name d.selections) :
    RunM.Fails I bad (compileOperation resolve d) := by
  refine .bind .report report_fails fun _ _ => ?_
  cases hroot : schema.root? d.kind with
  | none => exact .throw (hbad.root _)
  | some type =>
    refine .bind (visitWithin_does hd) (visitWithin_fails hbad hs hd hr (hP type hroot) _) ?_
    exact fun _ _ => .bind .report report_fails fun _ _ => .pure _

end

/-! ## Requests -/

section
variable {document : Document} (hs : schema.Coherent)
  (hP : ∀ d ∈ document.fragments, schema.Composite d.condition →
    Misses schema P d.condition d.selections)
include hs hP

/-- To resolve a name looks up fields in the definitions of the document only. -/
theorem resolveWithin_fails {depth : Nat} {name : Name} :
    RunM.Fails (Registry.Sound document fun _ => True) bad
      (RunM.resolveWithin depth name : RunM schema Fragment) := by
  induction depth using Nat.strongRecOn generalizing name with
  | ind depth ih =>
  intro run e run' hI
  refine RunM.resolveWithin_cases (motive := fun r => r = .error e run' → _) depth name run
    ?_ ?_ ?_ ?_
  · exact fun _ _ => nofun
  · intro _ _ he
    cases he
    exact hbad.cycle _
  · intro _ _ _ he
    cases he
    exact hbad.fragment _
  · intro depth d hdepth _ _ hd he
    cases hc : compileFragment (RunM.resolveWithin depth) d (run.enter name) with
    | ok c run₁ =>
      rw [hc] at he
      cases he
    | error e run₁ =>
      rw [hc] at he
      cases he
      have hdoes : ∀ name, RunM.Does (Registry.Sound document fun _ => True)
          (RunM.resolveWithin depth name : RunM schema Fragment) (Spreadable document _ name) :=
        fun _ => resolveWithin_does fun _ _ => trivial
      have hdefined := ((hI.definitions name d).1 hd).1
      have hmarked : (run.enter name).registry.Sound document fun _ => True :=
        ⟨hI.definitions, hI.built⟩
      exact compileFragment_fails hbad hs hdoes (fun _ => ih depth (by omega)) (hP d hdefined) _ _
        _ hmarked hc

/-- The same without a bound. -/
theorem resolve_fails {name : Name} :
    RunM.Fails (Registry.Sound document fun _ => True) bad
      (RunM.resolve name : RunM schema Fragment) :=
  fun run => resolveWithin_fails hbad hs hP run

/-- To compile an operation looks up fields in its selections and in the definitions. -/
theorem operation_fails {d : OperationDefinition}
    (hd : ∀ type, schema.root? d.kind = some type → Misses schema P type.name d.selections) :
    RunM.Fails (Registry.Sound document fun _ => True) bad
      (RunM.operation d : RunM schema Operation) :=
  compileOperation_fails hbad hs (fun _ => resolve_does fun _ _ => trivial)
    (fun _ => resolve_fails hbad hs hP) hd

end

end

/-! ## Builders -/

namespace Builder

/-- Between requests the registry knows the document and answers spreads with it. -/
theorem Standing.sound {document : Document} {b : Builder schema} (h : b.Standing document) :
    b.run.registry.Sound document fun _ => True := by
  refine ⟨fun _ _ => h.defines_iff, fun name f hf => ⟨fun d => ?_, trivial⟩⟩
  rw [← h.defines_iff, (h.live.kept.entry name f hf).definition]
  exact ⟨fun h => (Option.some.inj h).symm, fun h => h ▸ rfl⟩

section
variable {P : Name → Name → Prop} {document : Document} (hs : schema.Coherent)
  (hP : ∀ d ∈ document.fragments, schema.Composite d.condition →
    Misses schema P d.condition d.selections)
include hs hP

/-- A request for a fragment. -/
theorem buildFragment_blames (name : Name) :
    Meets document (buildFragment name : BuilderM schema Fragment) (fun _ => True)
      (BuildError.Blames P) := by
  refine .fragment (fun _ _ _ => nofun) fun b hb => ?_
  split
  · trivial
  · next hr => exact resolve_fails (.blames P) hs hP _ _ _ hb.sound hr

/-- A request for an operation. -/
theorem buildOperation_blames {d : OperationDefinition}
    (hd : ∀ type, schema.root? d.kind = some type → Misses schema P type.name d.selections) :
    Meets document (buildOperation d : BuilderM schema Operation) (fun _ => True)
      (BuildError.Blames P) := by
  refine .operation (fun _ _ _ => nofun) fun b hb => ?_
  split
  · trivial
  · next ho => exact operation_fails (.blames P) hs hP hd _ _ _ hb.sound ho

section
variable (hops : ∀ d ∈ document.operations, ∀ type, schema.root? d.kind = some type →
  Misses schema P type.name d.selections)
include hops

/-- A request for an operation of the document by its name. -/
theorem buildOperationNamed_blames (name : Name) :
    Meets document (buildOperationNamed name : BuilderM schema Operation) (fun _ => True)
      (BuildError.Blames P) := by
  refine .bind .get fun b hb => ?_
  rw [hb]
  split
  · next d hd => exact buildOperation_blames hs hP (hops d (List.mem_of_find?_eq_some hd))
  · exact .throw fun _ _ _ => nofun

/-- A request for the whole document. -/
theorem buildDocument_blames :
    Meets document (buildDocument : BuilderM schema CompiledDocument) (fun _ => True)
      (BuildError.Blames P) := by
  refine .bind .get fun b hb => ?_
  rw [hb]
  refine .bind (.mapM fun d hd => buildOperation_blames hs hP (hops d hd)) fun _ _ => ?_
  exact .bind (.mapM fun d _ => buildFragment_blames hs hP d.name) fun _ _ => .pure trivial

end

end

end Builder

end EntityGraph
