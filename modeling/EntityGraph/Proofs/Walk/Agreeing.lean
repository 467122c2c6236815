import EntityGraph.Proofs.Walk.Calls

/-!
# Work with answers of the same content

A walk looks at the fragments that answer its spreads, never at which instances they are. So two
walks over the same selections end alike when their spreads are answered by fragments of the same
content (`Compiled.content`), whatever the two runs have seen before. `RunM.Agrees` says that a
second piece of work ends as the first one does, where `I` holds of the first run before and after;
if `strict` is false, only success has to carry over. `UnitM.Agrees` says the same of work on two
units that differ in instances only. Main statements: `visitWithin_agrees`,
`compileFragment_agrees` and `compileOperation_agrees`.
-/

namespace EntityGraph

open LookupM (Gives Steady)

/-! ## Content -/

/-- A compiled definition, with the names of the fragments that it uses, but not their instances. -/
structure Content (δ : Type) where
  definition : δ
  entities : Storage
  referenced : List Name
  rootField : EntityField
  rootLocation : Location

/-- What a compiled definition says, apart from instances. -/
def Compiled.content {δ : Type} (c : Compiled δ) : Content δ :=
  ⟨c.definition, c.entities, c.referenced.keys, c.rootField, c.rootLocation⟩

variable {schema : Schema} {α β γ δ : Type}

/-- The two fragments have the same content. -/
def Fragment.Alike (f g : Fragment) : Prop := f.content = g.content

namespace Fragment.Alike

variable {f g : Fragment}

theorem definition (h : f.Alike g) : f.definition = g.definition := congrArg Content.definition h

theorem entities (h : f.Alike g) : f.entities = g.entities := congrArg Content.entities h

theorem referenced (h : f.Alike g) : f.referenced.keys = g.referenced.keys :=
  congrArg Content.referenced h

theorem rootLocation (h : f.Alike g) : f.rootLocation = g.rootLocation :=
  congrArg Content.rootLocation h

theorem name (h : f.Alike g) : f.name = g.name := congrArg FragmentDefinition.name h.definition

end Fragment.Alike

/-- The two units differ in instances only. -/
structure Workpiece.Alike (w w' : Workpiece) : Prop where
  entities : w.entities = w'.entities
  referenced : w.referenced.keys = w'.referenced.keys

/-- Noting the use of fragments of the same content. -/
theorem Workpiece.Alike.refer {w w' : Workpiece} {f g : Fragment} (h : w.Alike w')
    (hf : f.Alike g) : (w.refer f).Alike (w'.refer g) where
  entities := h.entities
  referenced := by
    have hnoted : w.noted = w'.noted := OrderedSet.ext h.referenced
    show (w.refer f).noted.toList = (w'.refer g).noted.toList
    rw [noted_refer, noted_refer, hnoted, hf.name, hf.referenced]

/-! ## Work of two runs -/

/-- Asking questions does not matter to the property. -/
def Run.Quiet (I : Run schema → Prop) : Prop :=
  ∀ (run : Run schema) (lookups : Lookups schema), I run →
    (∀ name, timesBuilt lookups.log name = timesBuilt run.lookups.log name) →
    I { run with lookups }

section
variable (strict : Prop) (I : Run schema → Prop)

/-- The second result is like the first one: what they return is related by `R`. The first run has
`J` if it succeeded, and `I` if it failed. -/
def RunM.Alike (J : Run schema → Prop) (R : α → β → Prop)
    (second : EStateM.Result BuildError (Run schema) β) :
    (first : EStateM.Result BuildError (Run schema) α) → Prop
  | .ok a run₁ => J run₁ ∧ ∃ b run₂, second = .ok b run₂ ∧ R a b
  | .error e run₁ => I run₁ ∧ (strict → ∃ run₂, second = .error e run₂)

/-- The second piece of work ends as the first one does, where the first run has `I` before. -/
def RunM.AgreesTo (J : Run schema → Prop) (work₁ : RunM schema α) (work₂ : RunM schema β)
    (R : α → β → Prop) : Prop :=
  ∀ run₁ run₂, I run₁ → RunM.Alike strict I J R (work₂ run₂) (work₁ run₁)

/-- The same if the first run keeps `I` in any case. -/
def RunM.Agrees (work₁ : RunM schema α) (work₂ : RunM schema β) (R : α → β → Prop) : Prop :=
  RunM.AgreesTo strict I I work₁ work₂ R

/-- The same of work on two units that differ in instances only. -/
def UnitM.Agrees (work₁ : UnitM schema α) (work₂ : UnitM schema β) (R : α → β → Prop) : Prop :=
  ∀ w₁ w₂ : Workpiece, w₁.Alike w₂ →
    RunM.Agrees strict I (work₁ w₁) (work₂ w₂) fun p q => R p.1 q.1 ∧ p.2.Alike q.2

end

variable {strict : Prop} {I : Run schema → Prop}

/-- Sequences. -/
theorem RunM.AgreesTo.bind {γ' : Type} {J : Run schema → Prop} {work₁ : RunM schema α}
    {work₂ : RunM schema β} {next₁ : α → RunM schema γ} {next₂ : β → RunM schema γ'}
    {R : α → β → Prop} {S : γ → γ' → Prop} (h : RunM.AgreesTo strict I I work₁ work₂ R)
    (hnext : ∀ a b, R a b → RunM.AgreesTo strict I J (next₁ a) (next₂ b) S) :
    RunM.AgreesTo strict I J (work₁ >>= next₁) (work₂ >>= next₂) S := by
  intro run₁ run₂ hI
  have h := h run₁ run₂ hI
  cases hw₁ : work₁ run₁ with
  | ok a run₁' =>
    rw [hw₁] at h
    obtain ⟨hI', b, run₂', hw₂, hR⟩ := h
    rw [bind_of_ok hw₁, bind_of_ok hw₂]
    exact hnext a b hR run₁' run₂' hI'
  | error e run₁' =>
    rw [hw₁] at h
    rw [bind_of_error hw₁]
    refine ⟨h.1, fun hs => ?_⟩
    obtain ⟨run₂', hw₂⟩ := h.2 hs
    exact ⟨run₂', bind_of_error hw₂⟩

/-- The same failure. -/
theorem RunM.AgreesTo.throw {J : Run schema → Prop} {R : α → β → Prop} {e : BuildError} :
    RunM.AgreesTo strict I J (MonadExcept.throw e : RunM schema α) (MonadExcept.throw e) R :=
  fun _ run₂ hI => ⟨hI, fun _ => ⟨run₂, rfl⟩⟩

namespace RunM.Agrees

variable {R : α → β → Prop}

/-- Values that are returned. -/
theorem pure {a : α} {b : β} (h : R a b) :
    Agrees strict I (Pure.pure a : RunM schema α) (Pure.pure b) R :=
  fun _ run₂ hI => ⟨hI, b, run₂, rfl, h⟩

/-- The same failure. -/
theorem throw {e : BuildError} :
    Agrees strict I (MonadExcept.throw e : RunM schema α) (MonadExcept.throw e) R := AgreesTo.throw

/-- What is returned may be related by less. -/
theorem mono {work₁ : RunM schema α} {work₂ : RunM schema β} {R' : α → β → Prop}
    (h : Agrees strict I work₁ work₂ R) (himp : ∀ a b, R a b → R' a b) :
    Agrees strict I work₁ work₂ R' := by
  intro run₁ run₂ hI
  have h := h run₁ run₂ hI
  cases hw₁ : work₁ run₁ with
  | ok a run₁' =>
    rw [hw₁] at h
    obtain ⟨hI', b, run₂', hw₂, hR⟩ := h
    exact ⟨hI', b, run₂', hw₂, himp _ _ hR⟩
  | error e run₁' =>
    rw [hw₁] at h
    exact h

/-- Sequences. -/
theorem bind {γ' : Type} {work₁ : RunM schema α} {work₂ : RunM schema β}
    {next₁ : α → RunM schema γ} {next₂ : β → RunM schema γ'} {S : γ → γ' → Prop}
    (h : Agrees strict I work₁ work₂ R)
    (hnext : ∀ a b, R a b → Agrees strict I (next₁ a) (next₂ b) S) :
    Agrees strict I (work₁ >>= next₁) (work₂ >>= next₂) S := AgreesTo.bind h hnext

/-- Work that needs the schema only. -/
theorem ofLookup (hq : Run.Quiet I) {q : LookupM schema BuildError α} (hs : Steady q) :
    Agrees strict I (RunM.ofLookup q) (RunM.ofLookup q) fun a b => a = b ∧ Gives q a := by
  intro run₁ run₂ hI
  have hquiet := hs.quiet run₁.lookups
  have hsame := hs.same run₁.lookups run₂.lookups
  unfold RunM.ofLookup
  cases h₁ : q run₁.lookups <;> cases h₂ : q run₂.lookups <;> rw [h₁, h₂] at hsame <;>
    cases hsame <;> rw [h₁] at hquiet
  · exact ⟨hq _ _ hI hquiet, _, _, rfl, rfl, _, _, h₁⟩
  · exact ⟨hq _ _ hI hquiet, fun _ => ⟨_, rfl⟩⟩

/-- The same question. -/
theorem ask (hq : Run.Quiet I) {q : LookupM schema LookupError α} (hs : Steady q) :
    Agrees strict I (RunM.ask q) (RunM.ask q) fun a b => a = b ∧ Gives q a :=
  (ofLookup hq hs.asked).mono fun _ _ h => ⟨h.1, h.2.of_asked⟩

/-- The same report, of something else than a built fragment. -/
theorem report (hq : Run.Quiet I) {event : Event} (h : ∀ name, event.builds name = false) :
    Agrees strict I (RunM.report event) (RunM.report event : RunM schema Unit) fun _ _ => True :=
  (ofLookup hq (LookupM.report_steady h)).mono fun _ _ _ => trivial

/-- Loops over the same list. -/
theorem forM {f₁ f₂ : γ → RunM schema Unit} {l : List γ}
    (h : ∀ c ∈ l, Agrees strict I (f₁ c) (f₂ c) fun _ _ => True) :
    Agrees strict I (l.forM f₁) (l.forM f₂) fun _ _ => True := by
  induction l with
  | nil => exact .pure trivial
  | cons c l ih =>
    exact (h c (.head _)).bind fun _ _ _ => ih fun c' hc' => h c' (List.mem_cons_of_mem _ hc')

end RunM.Agrees

namespace UnitM.Agrees

variable {R : α → β → Prop}

/-- Values that are returned. -/
theorem pure {a : α} {b : β} (h : R a b) :
    Agrees strict I (Pure.pure a : UnitM schema α) (Pure.pure b) R :=
  fun _ _ hw => RunM.Agrees.pure ⟨h, hw⟩

/-- Sequences. -/
theorem bind {γ' : Type} {work₁ : UnitM schema α} {work₂ : UnitM schema β}
    {next₁ : α → UnitM schema γ} {next₂ : β → UnitM schema γ'} {S : γ → γ' → Prop}
    (h : Agrees strict I work₁ work₂ R)
    (hnext : ∀ a b, R a b → Agrees strict I (next₁ a) (next₂ b) S) :
    Agrees strict I (work₁ >>= next₁) (work₂ >>= next₂) S :=
  fun w₁ w₂ hw => (h w₁ w₂ hw).bind fun p q hpq => hnext p.1 q.1 hpq.1 p.2 q.2 hpq.2

/-- Work of the runs. -/
theorem ofRun {work₁ : RunM schema α} {work₂ : RunM schema β}
    (h : RunM.Agrees strict I work₁ work₂ R) :
    Agrees strict I (UnitM.ofRun work₁) (UnitM.ofRun work₂) R :=
  fun _ _ hw => h.bind fun _ _ hR => .pure ⟨hR, hw⟩

/-- The same question. -/
theorem ask (hq : Run.Quiet I) {q : LookupM schema LookupError α} (hs : Steady q) :
    Agrees strict I (UnitM.ask q) (UnitM.ask q) fun a b => a = b ∧ Gives q a := .ofRun (.ask hq hs)

/-- The units are looked at. -/
theorem get : Agrees strict I (get : UnitM schema Workpiece) get Workpiece.Alike :=
  fun w₁ w₂ hw => RunM.Agrees.pure (a := (w₁, w₁)) (b := (w₂, w₂)) ⟨hw, hw⟩

/-- The units are changed. -/
theorem modify {f₁ f₂ : Workpiece → Workpiece}
    (h : ∀ w₁ w₂ : Workpiece, w₁.Alike w₂ → (f₁ w₁).Alike (f₂ w₂)) :
    Agrees strict I (modify f₁ : UnitM schema PUnit) (modify f₂) fun _ _ => True :=
  fun w₁ w₂ hw => RunM.Agrees.pure (a := ((), f₁ w₁)) (b := ((), f₂ w₂)) ⟨trivial, h w₁ w₂ hw⟩

/-- Loops over the same list. -/
theorem forM {f₁ f₂ : γ → UnitM schema Unit} {l : List γ}
    (h : ∀ c ∈ l, Agrees strict I (f₁ c) (f₂ c) fun _ _ => True) :
    Agrees strict I (l.forM f₁) (l.forM f₂) fun _ _ => True := by
  induction l with
  | nil => exact .pure trivial
  | cons c l ih =>
    exact (h c (.head _)).bind fun _ _ _ => ih fun c' hc' => h c' (List.mem_cons_of_mem _ hc')

end UnitM.Agrees

/-! ## Walks -/

section
variable (hq : Run.Quiet I)
include hq

/-- The entity at a location. -/
theorem entityAt_agrees {l : Location} :
    UnitM.Agrees strict I (UnitM.entityAt l : UnitM schema Entity) (UnitM.entityAt l) Eq := by
  refine UnitM.Agrees.get.bind fun w₁ w₂ hw => ?_
  rw [hw.entities]
  split
  · exact .pure rfl
  · refine (UnitM.Agrees.ofRun (.report hq fun _ => rfl)).bind fun _ _ _ => ?_
    refine (UnitM.Agrees.modify fun w₁ w₂ hw => ?_).bind fun _ _ _ => .pure rfl
    exact ⟨by rw [hw.entities], hw.referenced⟩

omit hq in
/-- An entity is put back. -/
theorem putEntity_agrees {l : Location} {e : Entity} :
    UnitM.Agrees strict I (UnitM.putEntity l e : UnitM schema Unit) (UnitM.putEntity l e)
      fun _ _ => True :=
  .modify fun _ _ hw => ⟨by rw [hw.entities], hw.referenced⟩

/-- A field is merged. -/
theorem mergeAt_agrees {l : Location} {f : EntityField} :
    UnitM.Agrees strict I (UnitM.mergeAt l f : UnitM schema Unit) (UnitM.mergeAt l f)
      fun _ _ => True := by
  refine (entityAt_agrees hq).bind fun e e' he => ?_
  subst he
  refine (UnitM.Agrees.ofRun (.ofLookup hq (e.mergeField_steady f))).bind fun e₁ e₂ he => ?_
  rw [he.1]
  exact putEntity_agrees

/-- The declared type of a field. -/
theorem fieldType_agrees {name c : Name} {place : SourceLocation} :
    RunM.Agrees strict I (RunM.fieldType name place c : RunM schema DeclaredType)
      (RunM.fieldType name place c) Eq := by
  unfold RunM.fieldType
  split
  · exact .pure rfl
  · refine (RunM.Agrees.ask hq (LookupM.type_steady c)).bind fun type type' ht => ?_
    rw [ht.1]
    split
    · exact .pure rfl
    · exact .throw

omit hq in
/-- Nothing is selected on a type without fields. -/
theorem checkLeaf_agrees {type : NamedType} {selections : List Selection} :
    RunM.Agrees strict I (RunM.checkLeaf type selections : RunM schema Unit)
      (RunM.checkLeaf type selections) fun _ _ => True := by
  unfold RunM.checkLeaf
  split
  · exact .pure trivial
  · exact .throw

/-- A field is copied. -/
theorem copyField_agrees {nested₁ nested₂ : (target source : Location) → Name → UnitM schema Unit}
    (hn : ∀ target source c, UnitM.Agrees strict I (nested₁ target source c)
      (nested₂ target source c) fun _ _ => True)
    {target : Location} {c : Name} {f : EntityField} :
    UnitM.Agrees strict I (copyField nested₁ target c f) (copyField nested₂ target c f)
      fun _ _ => True := by
  refine (UnitM.Agrees.ask hq (narrowConditions_steady ..)).bind fun cs cs' hcs => ?_
  rw [hcs.1]
  split
  · exact .pure trivial
  · cases f.child with
    | some source => exact (hn _ _ _).bind fun _ _ _ => mergeAt_agrees hq
    | none => exact mergeAt_agrees hq

/-- Fragments of the same content are copied. -/
theorem copyWithin_agrees {f g : Fragment} (hf : f.Alike g) {depth : Nat}
    {target source : Location} {c : Name} :
    UnitM.Agrees strict I (copyWithin f depth target source c : UnitM schema Unit)
      (copyWithin g depth target source c) fun _ _ => True := by
  induction depth generalizing target source c with
  | zero => exact .pure trivial
  | succ depth ih =>
    unfold copyWithin
    rw [hf.entities, hf.name]
    split
    · exact .pure trivial
    · refine (entityAt_agrees hq).bind fun known known' hknown => ?_
      subst hknown
      refine (putEntity_agrees).bind fun _ _ _ => .forM fun field _ => ?_
      exact copyField_agrees hq fun _ _ _ => ih

end

section
variable {resolve₁ resolve₂ : Name → RunM schema Fragment} {Spread : Name → Prop}
  (hq : Run.Quiet I)
  (hr : ∀ name, Spread name →
    RunM.Agrees strict I (resolve₁ name) (resolve₂ name) Fragment.Alike)
include hq hr

/-- Selections are checked. -/
theorem validateWithin_agrees {height : Nat} {c : Name} {selections : List Selection}
    (hs : ∀ name ∈ Selection.spreadsAll selections, Spread name) :
    RunM.Agrees strict I (validateWithin resolve₁ height c selections)
      (validateWithin resolve₂ height c selections) fun _ _ => True := by
  induction height generalizing c selections with
  | zero => exact .pure trivial
  | succ height ih =>
    refine (RunM.Agrees.ask hq (Selection.normalizeAll_steady c selections)).bind ?_
    rintro normal _ ⟨rfl, hn⟩
    refine .forM fun s hmem => ?_
    have hspreads : ∀ name ∈ s.spreads, Spread name := fun name hname =>
      hs name ((Selection.normalizeAll_parts selections hn s hmem).spreads name hname)
    cases s with
    | field aliasName name place inner c =>
      refine (fieldType_agrees hq).bind ?_
      rintro declared _ rfl
      refine (RunM.Agrees.ask hq (LookupM.type_steady _)).bind ?_
      rintro type _ ⟨rfl, -⟩
      split
      · exact ih hspreads
      · exact checkLeaf_agrees
    | spread name place c =>
      exact (hr name (hspreads name (.head _))).bind fun _ _ _ => .pure trivial
    | unreachable place inner own => exact ih hspreads

/-- A spread is entered. -/
theorem visitSpread_agrees {location : Location} {name c : Name} (hs : Spread name) :
    UnitM.Agrees strict I (visitSpread resolve₁ location name c)
      (visitSpread resolve₂ location name c) fun _ _ => True := by
  refine (UnitM.Agrees.ofRun (hr name hs)).bind fun f g hf => ?_
  refine (UnitM.Agrees.modify fun w₁ w₂ hw => hw.refer hf).bind fun _ _ _ => ?_
  rw [hf.definition]
  refine (UnitM.Agrees.ask hq (LookupM.intersect_steady ..)).bind ?_
  rintro cs _ ⟨rfl, -⟩
  refine .forM fun c' _ => ?_
  unfold copyFragment
  rw [hf.entities, hf.rootLocation]
  exact copyWithin_agrees hq hf

/-- Selections are entered. -/
theorem visitWithin_agrees {height : Nat} {location : Location} {c : Name}
    {selections : List Selection} (hs : ∀ name ∈ Selection.spreadsAll selections, Spread name) :
    UnitM.Agrees strict I (visitWithin resolve₁ height location c selections)
      (visitWithin resolve₂ height location c selections) fun _ _ => True := by
  induction height generalizing location c selections with
  | zero => exact (entityAt_agrees hq).bind fun _ _ _ => .pure trivial
  | succ height ih =>
    refine (entityAt_agrees hq).bind fun _ _ _ => ?_
    refine (UnitM.Agrees.ask hq (Selection.normalizeAll_steady c selections)).bind ?_
    rintro normal _ ⟨rfl, hn⟩
    refine .forM fun s hmem => ?_
    have hspreads : ∀ name ∈ s.spreads, Spread name := fun name hname =>
      hs name ((Selection.normalizeAll_parts selections hn s hmem).spreads name hname)
    cases s with
    | field aliasName name place inner c =>
      refine (UnitM.Agrees.ofRun (fieldType_agrees hq)).bind ?_
      rintro declared _ rfl
      refine (UnitM.Agrees.ask hq (LookupM.type_steady _)).bind ?_
      rintro type _ ⟨rfl, -⟩
      split
      · exact (ih hspreads).bind fun _ _ _ => mergeAt_agrees hq
      · exact (UnitM.Agrees.ofRun checkLeaf_agrees).bind fun _ _ _ => mergeAt_agrees hq
    | spread name place c => exact visitSpread_agrees hq hr (hspreads name (.head _))
    | unreachable place inner own => exact .ofRun (validateWithin_agrees hq hr hspreads)

end

/-! ## Definitions -/

section
variable {resolve₁ resolve₂ : Name → RunM schema Fragment} (hq : Run.Quiet I)
include hq

/-- A fragment definition compiles to the same content. The first run may lose `I` by the record
that the fragment was built, but its registry does not. -/
theorem compileFragment_agrees {d : FragmentDefinition}
    (hr : ∀ name ∈ Selection.spreadsAll d.selections,
      RunM.Agrees strict I (resolve₁ name) (resolve₂ name) Fragment.Alike) :
    RunM.AgreesTo strict I (fun run => ∃ run', I run' ∧ run.registry = run'.registry)
      (compileFragment resolve₁ d) (compileFragment resolve₂ d)
      fun c c' => c.content = c'.content := by
  refine RunM.AgreesTo.bind (RunM.Agrees.report hq fun _ => rfl) fun _ _ _ => ?_
  refine RunM.AgreesTo.bind (RunM.Agrees.ask hq (LookupM.type_steady d.condition)) ?_
  rintro type _ ⟨rfl, -⟩
  split
  · refine RunM.AgreesTo.bind
      (visitWithin_agrees hq hr (fun _ h => h) .empty .empty ⟨rfl, rfl⟩) ?_
    rintro ⟨_, w₁⟩ ⟨_, w₂⟩ ⟨-, hw⟩
    change w₁.Alike w₂ at hw
    intro run₁ run₂ hI
    refine ⟨⟨run₁, hI, rfl⟩, _, _, rfl, ?_⟩
    simp only [Compiled.content, hw.entities, hw.referenced]
  · exact .throw

/-- An operation definition compiles to the same content. -/
theorem compileOperation_agrees {d : OperationDefinition}
    (hr : ∀ name ∈ Selection.spreadsAll d.selections,
      RunM.Agrees strict I (resolve₁ name) (resolve₂ name) Fragment.Alike) :
    RunM.Agrees strict I (compileOperation resolve₁ d) (compileOperation resolve₂ d)
      fun op op' => op.content = op'.content := by
  refine (RunM.Agrees.report hq fun _ => rfl).bind fun _ _ _ => ?_
  cases schema.root? d.kind with
  | none => exact .throw
  | some type =>
    refine RunM.Agrees.bind (visitWithin_agrees hq hr (fun _ h => h) .empty .empty ⟨rfl, rfl⟩) ?_
    rintro ⟨_, w₁⟩ ⟨_, w₂⟩ ⟨-, hw⟩
    change w₁.Alike w₂ at hw
    dsimp only
    have hsize : w₁.referenced.size = w₂.referenced.size := by
      rw [← Dict.length_keys, hw.referenced, Dict.length_keys]
    rw [hw.entities, hsize]
    refine (RunM.Agrees.report hq fun _ => rfl).bind fun _ _ _ => .pure ?_
    simp only [Compiled.content, hw.referenced]

end

end EntityGraph
