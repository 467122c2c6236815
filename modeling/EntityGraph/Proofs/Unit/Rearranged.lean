import EntityGraph.Proofs.Request.Replies
import EntityGraph.Proofs.Walk.Collecting

/-!
# Order and repetition of selections

Two documents that differ only by the order in which selections are listed, and by selections that
are listed more than once, are built to storages that match, or both fail to be built
(`Document.Rearranged.builds_matching`). Selections that are rearranged are valid together and
contribute the same (`Selection.Rearranged.valid_iff`, `Selection.Rearranged.contributions_eq`), and
fragments that match contribute the same where they are copied (`copied_eq`). A definition compiles
to the sum of its contributions, so rearranged definitions compile to storages that match, by
induction on how deep compilations are nested (`compileAnew_matches`).
-/

namespace EntityGraph

open LookupM (Gives)

/-! ## Rearranging -/

/-- The two lists of selections differ only by order and repetition, at any depth, and by where they
were written. -/
inductive Selection.Rearranged : List Selection → List Selection → Prop
  | perm {l l' : List Selection} : l.Perm l' → Rearranged l l'
  | repeated {l : List Selection} {s : Selection} : s ∈ l → Rearranged l (s :: l)
  | field {aliasName : Option Name} {name : Name} {place place' : SourceLocation}
      {inner inner' rest : List Selection} :
      Rearranged inner inner' →
      Rearranged (.field aliasName name place inner :: rest)
        (.field aliasName name place' inner' :: rest)
  | spread {name : Name} {place place' : SourceLocation} {rest : List Selection} :
      Rearranged (.spread name place :: rest) (.spread name place' :: rest)
  | inline {condition : Option Name} {place place' : SourceLocation}
      {inner inner' rest : List Selection} :
      Rearranged inner inner' →
      Rearranged (.inline condition place inner :: rest) (.inline condition place' inner' :: rest)
  | symm {l l' : List Selection} : Rearranged l l' → Rearranged l' l
  | trans {l l' l'' : List Selection} : Rearranged l l' → Rearranged l' l'' → Rearranged l l''

/-- The fragments differ only by how their selections are arranged. -/
structure FragmentDefinition.Rearranged (d d' : FragmentDefinition) : Prop where
  name : d.name = d'.name
  condition : d.condition = d'.condition
  selections : Selection.Rearranged d.selections d'.selections

/-- The operations differ only by how their selections are arranged. -/
structure OperationDefinition.Rearranged (d d' : OperationDefinition) : Prop where
  kind : d.kind = d'.kind
  name : d.name = d'.name
  selections : Selection.Rearranged d.selections d'.selections

/-- The documents differ only by how the selections of their definitions are arranged. -/
structure Document.Rearranged (document document' : Document) : Prop where
  fragments : List.Forall₂ FragmentDefinition.Rearranged document.fragments document'.fragments
  operations : List.Forall₂ OperationDefinition.Rearranged document.operations document'.operations

/-- The definitions are kept under the same names and differ only by how their selections are
arranged. -/
def Rearranges (definitions definitions' : Dict Name FragmentDefinition) : Prop :=
  ∀ name, Option.Rel FragmentDefinition.Rearranged (definitions.find? name)
    (definitions'.find? name)

/-- A new builder for the document builds the operation to `op`. -/
def Builds (schema : Schema) (document : Document) (d : OperationDefinition) (op : Operation) :
    Prop :=
  ∃ b b', Builder.new schema document = .ok b ∧ Builder.buildOperation d b = .ok op b'

section
variable {schema : Schema} {Ok : Name → Prop} {G G' : Name → Compiled FragmentDefinition → Prop}
  {l : Location} {c : Name} {a : Contribution} {selections selections' : List Selection}

/-! ## Rearranged selections -/

namespace Selection

/-- Something is selected either way. -/
theorem Rearranged.eq_nil_iff (h : Rearranged selections selections') :
    selections = [] ↔ selections' = [] := by
  induction h with
  | perm hp => rw [← List.length_eq_zero_iff, ← List.length_eq_zero_iff, hp.length_eq]
  | repeated hs => simp [List.ne_nil_of_mem hs]
  | field _ _ | spread | inline _ _ => simp
  | symm _ ih => exact ih.symm
  | trans _ _ ih₁ ih₂ => exact ih₁.trans ih₂

/-- Rearranged selections are valid together. -/
theorem Rearranged.valid_iff (h : Rearranged selections selections') :
    (∀ s ∈ selections, s.Valid schema Ok c) ↔ ∀ s ∈ selections', s.Valid schema Ok c := by
  induction h generalizing c with
  | perm hp => exact forall_congr' fun s => imp_congr_left hp.mem_iff
  | repeated hs =>
    rw [List.forall_mem_cons]
    exact ⟨fun h => ⟨h _ hs, h⟩, And.right⟩
  | field hinner ih =>
    rw [List.forall_mem_cons, List.forall_mem_cons, ← valid_field_iff, ← valid_field_iff]
    refine and_congr_left' (exists_congr fun declared => exists_congr fun type => ?_)
    rw [hinner.eq_nil_iff, ih]
  | spread =>
    rw [List.forall_mem_cons, List.forall_mem_cons]
    refine and_congr_left' ⟨fun h => ?_, fun h => ?_⟩ <;> cases h with
    | spread hok => exact .spread hok
  | @inline condition _ _ _ _ _ _ ih =>
    rw [List.forall_mem_cons, List.forall_mem_cons]
    refine and_congr_left' ⟨fun h => ?_, fun h => ?_⟩
    · cases h with
      | inline h => exact .inline (ih.1 h)
      | narrowed hi hne h => exact .narrowed hi hne fun c' hc' => ih.1 (h c' hc')
      | excluded hi h => exact .excluded hi (ih.1 h)
    · cases h with
      | inline h => exact .inline (ih.2 h)
      | narrowed hi hne h => exact .narrowed hi hne fun c' hc' => ih.2 (h c' hc')
      | excluded hi h => exact .excluded hi (ih.2 h)
  | symm _ ih => exact ih.symm
  | trans _ _ ih₁ ih₂ => exact ih₁.trans ih₂

/-- Rearranged selections contribute the same. -/
theorem Rearranged.adds_iff (h : Rearranged selections selections') :
    (∃ s ∈ selections, s.Adds schema G l c a) ↔ ∃ s ∈ selections', s.Adds schema G l c a := by
  induction h generalizing l c with
  | perm hp => exact exists_congr fun s => and_congr_left' hp.mem_iff
  | repeated hs =>
    rw [List.exists_mem_cons_iff]
    exact ⟨.inr, fun h => h.elim (fun h => ⟨_, hs, h⟩) id⟩
  | field hinner ih =>
    rw [List.exists_mem_cons_iff, List.exists_mem_cons_iff, adds_field_iff, adds_field_iff]
    refine or_congr_left (exists_congr fun declared => and_congr_right' (or_congr_right ?_))
    exact and_congr_right' (or_congr_right ih)
  | spread =>
    rw [List.exists_mem_cons_iff, List.exists_mem_cons_iff]
    refine or_congr_left ⟨fun h => ?_, fun h => ?_⟩ <;> cases h with
    | spread hG hcs hc' ha => exact .spread hG hcs hc' ha
  | @inline condition _ _ _ _ _ _ ih =>
    rw [List.exists_mem_cons_iff, List.exists_mem_cons_iff]
    refine or_congr_left ?_
    cases condition with
    | none => rw [adds_inline_iff, adds_inline_iff, ih]
    | some own =>
      rw [adds_inlineOn_iff, adds_inlineOn_iff]
      simp only [ih]
  | symm _ ih => exact ih.symm
  | trans _ _ ih₁ ih₂ => exact ih₁.trans ih₂

/-- Rearranged selections contribute the same at a location. -/
theorem Rearranged.contributions_eq (h : Rearranged selections selections') :
    contributions schema G l c selections = contributions schema G l c selections' := by
  ext a
  exact or_congr_right h.adds_iff

end Selection

/-! ## Matching fragments -/

/-- Related values have a property together, if they are there at all. -/
theorem exists_some_congr {α β : Type} {R : α → β → Prop} {o : Option α} {o' : Option β}
    (h : Option.Rel R o o') {P : α → Prop} {P' : β → Prop} (hP : ∀ x y, R x y → (P x ↔ P' y)) :
    (∃ x, o = some x ∧ P x) ↔ ∃ y, o' = some y ∧ P' y := by
  cases h with
  | none => simp
  | some hR => simp [hP _ _ hR]

/-- Dictionaries whose values are related key by key are of the same size. -/
theorem Dict.size_eq_of_rel {κ ν ν' : Type} [DecidableEq κ] {R : ν → ν' → Prop} {d : Dict κ ν}
    {d' : Dict κ ν'} (h : ∀ k, Option.Rel R (d.find? k) (d'.find? k)) : d.size = d'.size := by
  have hkeys : ∀ k, k ∈ d.keys ↔ k ∈ d'.keys := by
    intro k
    have hfound : (∃ v, d.find? k = some v ∧ True) ↔ ∃ v, d'.find? k = some v ∧ True :=
      exists_some_congr (h k) fun _ _ _ => Iff.rfl
    simpa [Dict.mem_keys_iff] using hfound
  have hperm := (List.perm_ext_iff_of_nodup d.nodup_keys d'.nodup_keys).2 hkeys
  rw [← Dict.length_keys, ← Dict.length_keys, hperm.length_eq]

/-- The compiled fragments have the same name, type and root, and storages that match. -/
structure Compiled.Matches (f f' : Compiled FragmentDefinition) : Prop where
  name : f.definition.name = f'.definition.name
  condition : f.definition.condition = f'.definition.condition
  rootLocation : f.rootLocation = f'.rootLocation
  entities : Storage.Matches f.entities f'.entities

/-- Every answer that `G` gives for a spread is matched by one of `G'`. -/
def Matched (G G' : Name → Compiled FragmentDefinition → Prop) : Prop :=
  ∀ name f, G name f → ∃ f', G' name f' ∧ f.Matches f'

/-- Fields that match contribute the same where they are copied. -/
theorem copiedField_eq {x x' : EntityField} (h : x.Matches x')
    {nested : (target source : Location) → Set Contribution} {target : Location} {key : FieldKey} :
    copiedField schema nested target c key x = copiedField schema nested target c key x' := by
  ext a
  refine exists_congr fun n => and_congr ?_ ?_
  · exact exists_congr fun c' => and_congr_left' (h.conditions c')
  · rw [h.child]

/-- Entities that match have the same fragments merged in. -/
theorem noted_eq {e e' : Entity} (h : e.Matches e') {target : Location} {name : Name} :
    noted target name e = noted target name e' := by
  ext a
  refine or_congr_right (or_congr_right (exists_congr fun other => ?_))
  exact and_congr_left' (h.merged other)

/-- Fragments that match contribute the same where they are copied. -/
theorem copied_eq {f f' : Compiled FragmentDefinition} (h : f.Matches f') {depth : Nat}
    {target source : Location} :
    copied schema f depth target source c = copied schema f' depth target source c := by
  induction depth generalizing target source c with
  | zero => rfl
  | succ depth ih =>
    have hnested : (fun target source => copied schema f depth target source source.typeName) =
        fun target source => copied schema f' depth target source source.typeName :=
      funext fun _ => funext fun _ => ih
    ext a
    refine exists_some_congr (h.entities source) fun e e' he => ?_
    rw [hnested, h.name, noted_eq he]
    refine or_congr_right (exists_congr fun key => ?_)
    refine exists_some_congr (he.fields key) fun x x' hx => ?_
    rw [copiedField_eq hx]

/-- A selection contributes the same if its spreads are answered by fragments that match. -/
theorem Selection.Adds.of_matches {s : Selection} (h : s.Adds schema G l c a)
    (hG : Matched G G') : s.Adds schema G' l c a := by
  induction h with
  | field hd => exact .field hd
  | entity hd hc => exact .entity hd hc
  | nested hd hc hs _ ih => exact .nested hd hc hs ih
  | spread hf hcs hc' ha =>
    obtain ⟨f', hf', hm⟩ := hG _ _ hf
    refine .spread hf' (hm.condition ▸ hcs) hc' ?_
    rwa [← copied_eq hm, ← hm.rootLocation, ← Dict.size_eq_of_rel hm.entities]
  | inline hs _ ih => exact .inline hs ih
  | narrowed hi hc' hs _ ih => exact .narrowed hi hc' hs ih

/-- Rearranged selections contribute the same if their spreads are answered by fragments that
match. -/
theorem Selection.Rearranged.contributions_eq_of_matches
    (h : Selection.Rearranged selections selections')
    (hG : Matched G G')
    (hG' : Matched G' G) :
    contributions schema G l c selections = contributions schema G' l c selections' := by
  rw [← h.contributions_eq]
  ext a
  refine or_congr_right (exists_congr fun s => and_congr_right fun _ => ?_)
  exact ⟨fun h => h.of_matches hG, fun h => h.of_matches hG'⟩

/-- Rearranged selections are valid where fragments that match may be spread. -/
theorem Selection.Rearranged.valid_of_matches (h : Selection.Rearranged selections selections')
    (hG : Matched G G')
    (hvalid : ∀ s ∈ selections, s.Valid schema (fun name => ∃ f, G name f) c) :
    ∀ s ∈ selections', s.Valid schema (fun name => ∃ f, G' name f) c := by
  rw [← h.valid_iff]
  intro s hs
  refine (hvalid s hs).mono ?_
  rintro name - ⟨f, hf⟩
  obtain ⟨f', hf', -⟩ := hG name f hf
  exact ⟨f', hf'⟩

/-! ## Compiling anew -/

variable {definitions definitions' : Dict Name FragmentDefinition} {stack : OrderedSet Name}

/-- The fragment `name` compiles anew to `f`. -/
def Anew (schema : Schema) (definitions : Dict Name FragmentDefinition) (depth : Nat)
    (stack : OrderedSet Name) (name : Name) (f : Compiled FragmentDefinition) : Prop :=
  compileAnew schema definitions depth stack name = .ok f

/-- The spreads for which calls were answered compile anew. -/
theorem Calls.anew {depth : Nat} {called : List (Name × Fragment)} {run run' : Run schema}
    (h : Calls (fun m => replay (compileAnew schema definitions depth stack m)) called run run')
    (hvalid : ∀ s ∈ selections, s.Valid schema (Answered called) c) :
    ∀ s ∈ selections, s.Valid schema (fun m => ∃ f, Anew schema definitions depth stack m f) c := by
  intro s hs
  refine (hvalid s hs).mono ?_
  rintro m - ⟨x, hx⟩
  obtain ⟨r, r', hr⟩ := h.resolved hx
  exact ⟨x.toCompiled, replay_eq_ok hr⟩

/-- What is compiled anew is well-formed. -/
theorem compileAnew_answering (hs : schema.Coherent) (hp : schema.Inhabited)
    (definitions : Dict Name FragmentDefinition) (depth : Nat) (stack : OrderedSet Name) :
    Answering schema (fun m => replay (compileAnew schema definitions depth stack m))
      (Anew schema definitions depth stack) := by
  have hreturns : ∀ depth stack m f, Anew schema definitions depth stack m f →
      RunM.Returns (replay (compileAnew schema definitions depth stack m) : RunM schema Fragment)
        fun x => x.toCompiled = f := by
    intro depth stack m f hf run
    rw [hf]
    exact ⟨_, run, rfl, rfl⟩
  have hsound : ∀ m f, Anew schema definitions depth stack m f →
      schema.Composite f.definition.condition ∧ ∃ C, f.entities.Sums schema C := by
    induction depth generalizing stack with
    | zero =>
      intro m f hf
      obtain ⟨_, _, _, hdepth, -⟩ := compileAnew_ok hf
      omega
    | succ depth ih =>
      intro m f hf
      obtain ⟨_, d, run', hdepth, -, -, hc, -⟩ := compileAnew_ok hf
      cases hdepth
      have hr : Answering schema
          (fun n => replay (compileAnew schema definitions depth (stack.insert m) n))
          (Anew schema definitions depth (stack.insert m)) :=
        ⟨hreturns _ _, fun n f hf => (ih _ n f hf).1, fun n f hf => (ih _ n f hf).2⟩
      obtain ⟨called, run₁, hcalls, -, -, hvalid, -⟩ := compileFragment_ok hc
      obtain ⟨hcomp, hdef, -, hsums⟩ := compileFragment_sums hs hp hr (hcalls.anew hvalid) hc
      exact ⟨hdef ▸ hcomp, _, hsums⟩
  exact ⟨hreturns _ _, fun m f hf => (hsound m f hf).1, fun m f hf => (hsound m f hf).2⟩

/-! ## Rearranged definitions -/

/-- Definitions that are rearranged are so the other way round. -/
theorem FragmentDefinition.Rearranged.symm {d d' : FragmentDefinition} (h : d.Rearranged d') :
    d'.Rearranged d :=
  ⟨h.name.symm, h.condition.symm, h.selections.symm⟩

/-- The same for all definitions under their names. -/
theorem Rearranges.symm (h : Rearranges definitions definitions') :
    Rearranges definitions' definitions := by
  intro name
  have hrel := h name
  generalize definitions.find? name = found, definitions'.find? name = found' at hrel ⊢
  cases hrel with
  | none => exact .none
  | some hd => exact .some hd.symm

/-- Definitions that are rearranged are there together. -/
theorem Rearranges.defined (h : Rearranges definitions definitions') {name : Name}
    {d : FragmentDefinition} (hd : definitions.find? name = some d) :
    ∃ d', definitions'.find? name = some d' ∧ d.Rearranged d' := by
  have hrel := h name
  rw [hd] at hrel
  generalize definitions'.find? name = found at hrel ⊢
  cases hrel with
  | some hdd => exact ⟨_, rfl, hdd⟩

/-- A fragment that compiles does so from definitions that are rearranged, to a storage that
matches. -/
theorem compileAnew_matches (hs : schema.Coherent) (hp : schema.Inhabited)
    (h : Rearranges definitions definitions') (depth : Nat) (stack : OrderedSet Name) :
    Matched (Anew schema definitions depth stack) (Anew schema definitions' depth stack) := by
  induction depth generalizing definitions definitions' stack with
  | zero =>
    intro name f hf
    obtain ⟨_, _, _, hdepth, -⟩ := compileAnew_ok hf
    omega
  | succ depth ih =>
    intro name f hf
    obtain ⟨_, d, run, hdepth, hname, hd, hc, -⟩ := compileAnew_ok hf
    cases hdepth
    obtain ⟨d', hd', hdd⟩ := h.defined hd
    have hr := compileAnew_answering hs hp definitions depth (stack.insert name)
    have hr' := compileAnew_answering hs hp definitions' depth (stack.insert name)
    obtain ⟨called, run₁, hcalls, -, -, hvalid, -⟩ := compileFragment_ok hc
    replace hvalid := hcalls.anew hvalid
    obtain ⟨hcomp, hdef, hroot, hsums⟩ := compileFragment_sums hs hp hr hvalid hc
    -- the contributions are the same only if the spreads match both ways
    have hvalid' := hdd.selections.valid_of_matches (ih h _) hvalid
    rw [hdd.selections.contributions_eq_of_matches (ih h _) (ih h.symm _), hdd.name,
      hdd.condition] at hsums
    rw [hdd.condition] at hvalid' hcomp
    obtain ⟨f', run', hc', -⟩ := exists_compileFragment hs hp hr' hcomp hvalid' hsums.free .blank
    obtain ⟨-, hdef', hroot', hsums'⟩ := compileFragment_sums hs hp hr' hvalid' hc'
    refine ⟨f', ?_, ?_, ?_, ?_, hsums.matches hsums'⟩
    · rw [Anew, compileAnew_of_defined hname hd', hc']
      rfl
    · rw [hdef, hdef', hdd.name]
    · rw [hdef, hdef', hdd.condition]
    · rw [hroot, hroot', hdd.name, hdd.condition]

/-- An operation that compiles does so if it is rearranged and its spreads are compiled from
definitions that are, to a storage that matches. -/
theorem compileOperation_matches (hs : schema.Coherent) (hp : schema.Inhabited)
    (h : Rearranges definitions definitions') {depth : Nat} {d d' : OperationDefinition}
    (hdd : d.Rearranged d') {op : Operation} {run : Run schema}
    (hop : compileOperation (fun m => replay (compileAnew schema definitions depth stack m)) d
      .blank = .ok op run) :
    ∃ op' run',
      compileOperation (fun m => replay (compileAnew schema definitions' depth stack m)) d'
        (.blank : Run schema) = .ok op' run' ∧
      op.entities.Matches op'.entities := by
  have hr := compileAnew_answering hs hp definitions depth stack
  have hr' := compileAnew_answering hs hp definitions' depth stack
  obtain ⟨called, hcalls, ⟨type, hroot, hvalid⟩, -⟩ := compileOperation_walks.of_ok hop
  replace hvalid := hcalls.anew hvalid
  have hsums := compileOperation_sums hs hp hr hroot hvalid hop
  have hvalid' := hdd.selections.valid_of_matches (compileAnew_matches hs hp h _ _) hvalid
  rw [hdd.selections.contributions_eq_of_matches (compileAnew_matches hs hp h _ _)
    (compileAnew_matches hs hp h.symm _ _), hdd.name] at hsums
  rw [hdd.kind] at hroot
  obtain ⟨op', run', hop', -⟩ := exists_compileOperation hs hp hr' hroot hvalid' hsums.free .blank
  exact ⟨op', run', hop', hsums.matches (compileOperation_sums hs hp hr' hroot hvalid' hop')⟩

/-! ## Rearranged documents -/

/-- Operations that are rearranged are so the other way round. -/
theorem OperationDefinition.Rearranged.symm {d d' : OperationDefinition} (h : d.Rearranged d') :
    d'.Rearranged d :=
  ⟨h.kind.symm, h.name.symm, h.selections.symm⟩

/-- Documents that are rearranged are so the other way round. -/
theorem Document.Rearranged.symm {document document' : Document}
    (h : document.Rearranged document') : document'.Rearranged document where
  fragments := h.fragments.flip.imp fun _ _ h => h.symm
  operations := h.operations.flip.imp fun _ _ h => h.symm

/-- A definition that is registered is so if it is rearranged, where the registered ones are. -/
theorem Registry.register_rearranged {d d' : FragmentDefinition} (hdd : d.Rearranged d')
    {registry registry₁ registry' : Registry}
    (hd : Rearranges registry.definitions registry'.definitions)
    (h : Registry.register d registry = .ok () registry₁) :
    ∃ registry₁', Registry.register d' registry' = .ok () registry₁' ∧
      Rearranges registry₁.definitions registry₁'.definitions := by
  unfold Registry.register at h
  split at h
  · cases h
  · next hnew =>
    cases h
    have hnew' : registry'.definitions.find? d'.name = none := by
      have hrel := hd d.name
      rw [hnew, hdd.name] at hrel
      generalize registry'.definitions.find? d'.name = found at hrel ⊢
      cases hrel
      rfl
    refine ⟨{ registry' with definitions := registry'.definitions.insert d'.name d' }, ?_, ?_⟩
    · unfold Registry.register
      rw [hnew']
    · intro name
      rw [Dict.find?_insert, Dict.find?_insert, hdd.name]
      split
      · exact .some hdd
      · exact hd name

/-- The same for a list of definitions. -/
theorem Registry.forM_register_rearranged {ds ds' : List FragmentDefinition}
    (h : List.Forall₂ FragmentDefinition.Rearranged ds ds')
    {registry registry₁ registry' : Registry}
    (hd : Rearranges registry.definitions registry'.definitions)
    (hr : ds.forM Registry.register registry = .ok () registry₁) :
    ∃ registry₁', ds'.forM Registry.register registry' = .ok () registry₁' ∧
      Rearranges registry₁.definitions registry₁'.definitions := by
  induction h generalizing registry registry' with
  | nil =>
    cases hr
    exact ⟨registry', rfl, hd⟩
  | @cons d d' ds ds' hdd _ ih =>
    obtain ⟨_, registry₀, h₀, hr⟩ := ok_of_bind hr
    obtain ⟨registry₀', h₀', hd₀⟩ := register_rearranged hdd hd h₀
    obtain ⟨registry₁', hr', hd₁⟩ := ih hd₀ hr
    exact ⟨registry₁', (bind_of_ok h₀').trans hr', hd₁⟩

/-- Rearranged documents have builders together. -/
theorem Document.Rearranged.new {document document' : Document}
    (h : document.Rearranged document') {b : Builder schema}
    (hb : Builder.new schema document = .ok b) :
    ∃ b' : Builder schema, Builder.new schema document' = .ok b' ∧
      Rearranges b.run.registry.definitions b'.run.registry.definitions := by
  unfold Builder.new at hb
  split at hb
  · next _ registry hr =>
    cases hb
    have hempty : Rearranges (Registry.empty 0).definitions (Registry.empty 0).definitions :=
      fun _ => .none
    obtain ⟨registry', hr', hd⟩ := Registry.forM_register_rearranged h.fragments hempty hr
    refine ⟨⟨document', false, .fresh schema, registry'⟩, ?_, hd⟩
    unfold Builder.new Registry.registerDocument
    rw [hr']
  · cases hb

/-- A new builder builds an operation as if all spreads were compiled anew. -/
theorem Builder.buildOperation_anew {document : Document} {b : Builder schema}
    (hb : Builder.new schema document = .ok b) (d : OperationDefinition) :
    (outcome (Builder.buildOperation d b)).map (·.content) =
      (outcome (compileOperation (fun m => replay (compileAnew schema
        b.run.registry.definitions b.run.registry.definitions.size ∅ m)) d
        (Run.blank : Run schema))).map (·.content) := by
  have hready := Builder.Ready.new hb
  have hagrees : RunM.Agrees True (Run.Mirrors b.run.registry.definitions ∅)
      (RunM.operation d : RunM schema Operation)
      (compileOperation (fun m => replay (compileAnew schema
        b.run.registry.definitions b.run.registry.definitions.size ∅ m)) d)
      fun op op' => op.content = op'.content :=
    operation_agrees (by intro n hn; cases hn)
  rw [← hagrees.outcome_eq (hready.mirrors hb)]
  unfold Builder.buildOperation
  cases hw : RunM.operation d b.run with
  | ok op run => rw [Builder.guarded_of_ok hready.unpoisoned hw]; rfl
  | error e run => rw [Builder.guarded_of_error hready.unpoisoned hw]; rfl

/-- What a document builds is built, to a storage that matches, if the document is rearranged. -/
theorem Document.Rearranged.builds (hs : schema.Coherent) (hp : schema.Inhabited)
    {document document' : Document} (h : document.Rearranged document')
    {d d' : OperationDefinition} (hdd : d.Rearranged d') {op : Operation}
    (hop : Builds schema document d op) :
    ∃ op', Builds schema document' d' op' ∧ op.entities.Matches op'.entities := by
  obtain ⟨b, b₁, hb, hop⟩ := hop
  obtain ⟨b', hb', hd⟩ := h.new hb
  have hanew := Builder.buildOperation_anew hb d
  rw [outcome_map_eq_ok.2 ⟨op, b₁, hop, rfl⟩, eq_comm, outcome_map_eq_ok] at hanew
  obtain ⟨op₀, run, hcompile, hcontent⟩ := hanew
  obtain ⟨op₀', run', hcompile', hmatches⟩ := compileOperation_matches hs hp hd hdd hcompile
  rw [Dict.size_eq_of_rel hd] at hcompile'
  have hanew' := Builder.buildOperation_anew hb' d'
  rw [outcome_map_eq_ok.2 ⟨op₀', run', hcompile', rfl⟩, outcome_map_eq_ok] at hanew'
  obtain ⟨op', b₁', hop', hcontent'⟩ := hanew'
  have hentities : op₀.entities = op.entities := congrArg Content.entities hcontent
  have hentities' : op'.entities = op₀'.entities := congrArg Content.entities hcontent'
  refine ⟨op', ⟨b', b₁', hb', hop'⟩, ?_⟩
  rwa [← hentities, hentities']

/-- A document builds an operation to one storage. -/
theorem Builds.unique {document : Document} {d : OperationDefinition} {op op' : Operation}
    (h : Builds schema document d op) (h' : Builds schema document d op') : op = op' := by
  obtain ⟨b, b₁, hb, hop⟩ := h
  obtain ⟨b', b₁', hb', hop'⟩ := h'
  rw [hb] at hb'
  cases hb'
  rw [hop] at hop'
  cases hop'
  rfl

/-- Rearranged documents build their operations together, to storages that match: an operation of
one is built exactly if the one at the same place in the other is. -/
theorem Document.Rearranged.builds_matching (hs : schema.Built) (hp : schema.Inhabited)
    {document document' : Document} (h : document.Rearranged document') (i : Nat)
    {d d' : OperationDefinition} (hd : document.operations[i]? = some d)
    (hd' : document'.operations[i]? = some d') :
    ((∃ op, Builds schema document d op) ↔ ∃ op', Builds schema document' d' op') ∧
      ∀ op op', Builds schema document d op → Builds schema document' d' op' →
        op.entities.Matches op'.entities := by
  have hdd : d.Rearranged d' := by
    obtain ⟨hi, rfl⟩ := List.getElem?_eq_some_iff.1 hd
    obtain ⟨hi', rfl⟩ := List.getElem?_eq_some_iff.1 hd'
    exact h.operations.get hi hi'
  refine ⟨⟨?_, ?_⟩, ?_⟩
  · rintro ⟨op, hop⟩
    obtain ⟨op', hop', -⟩ := h.builds hs.coherent hp hdd hop
    exact ⟨op', hop'⟩
  · rintro ⟨op', hop'⟩
    obtain ⟨op, hop, -⟩ := h.symm.builds hs.coherent hp hdd.symm hop'
    exact ⟨op, hop⟩
  · intro op op' hop hop'
    obtain ⟨op₁, hop₁, hmatches⟩ := h.builds hs.coherent hp hdd hop
    rwa [hop'.unique hop₁]

end

namespace Sample

/-- The operation, with what it selects on its one field listed the other way round and the fragment
spread twice. -/
def rearranged : OperationDefinition where
  location := place
  kind := .query
  name := none
  selections := [.field none "node" place (.spread "Parts" place :: inner.reverse)]

/-- The document with the rearranged operation. -/
def rearrangedDocument : Document where
  file := none
  fragments := [fragment]
  operations := [rearranged]

/-- The document is rearranged. -/
theorem document_rearranged : document.Rearranged rearrangedDocument where
  fragments := .cons ⟨rfl, rfl, .perm (.refl _)⟩ .nil
  operations := by
    have hreverse : Selection.Rearranged inner inner.reverse := .perm inner.reverse_perm.symm
    have hrepeated : Selection.Rearranged inner.reverse (.spread "Parts" place :: inner.reverse) :=
      .repeated (by simp [inner])
    exact .cons ⟨rfl, rfl, .field (hreverse.trans hrepeated)⟩ .nil

/-- Every composite type of the schema has a possible type. -/
theorem schema_inhabited : schema.Inhabited := Schema.inhabited_of_keys (by decide +kernel)

/-- The rearranged operation is built as well, to a storage that matches. -/
theorem rearranged_builds : ∃ op op', Builds schema document operation op ∧
    Builds schema rearrangedDocument rearranged op' ∧ op.entities.size = 4 ∧
    op.entities.Matches op'.entities := by
  obtain ⟨b, type, op, b', hb, ht, hop, hu⟩ := unit_eq
  have hbuilds : Builds schema document operation op := ⟨b, b', hb, hop⟩
  have hoperation : document.operations[0]? = some operation := rfl
  have hrearranged : rearrangedDocument.operations[0]? = some rearranged := rfl
  obtain ⟨hiff, hmatches⟩ := document_rearranged.builds_matching built schema_inhabited 0
    hoperation hrearranged
  obtain ⟨op', hop'⟩ := hiff.1 ⟨op, hbuilds⟩
  refine ⟨op, op', hbuilds, hop', ?_, hmatches op op' hbuilds hop'⟩
  have hsize : unit.entities.size = 4 := by decide +kernel
  rw [hu] at hsize
  exact hsize

end Sample

end EntityGraph
