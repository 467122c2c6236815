import EntityGraph.Proofs.Document.Valid
import EntityGraph.Proofs.Walk.Anew
import EntityGraph.Proofs.Walk.Contributions
import EntityGraph.Proofs.Walk.Filled

/-!
# What selections contribute

The contributions of selections, read off the selections alone: a field contributes itself and what
is selected on it, an inline fragment what its selections contribute under the narrowed conditions,
and a spread what its compiled fragment has, narrowed in the same way (`Selection.Adds`, `copied`).
Nothing here depends on an order. A walk over valid selections contributes exactly that, and fails
only because of a clash (`copyWithin_collects`, `visitWithin_collects`); so a definition compiles to
the sum of its contributions, if they do not clash (`compileFragment_sums`,
`exists_compileFragment` and the same for operations).
-/

namespace EntityGraph

open LookupM (Answers Gives Steady)

/-! ## Contributions of fragments and selections -/

section
variable (schema : Schema)

/-- The condition `n` is left of one of the conditions when this is narrowed to `c`. -/
def Narrowed (conditions : OrderedSet Name) (c n : Name) : Prop :=
  ∃ x ∈ conditions, ∃ ns, Gives (LookupM.intersect x c : LookupM schema LookupError _) ns ∧ n ∈ ns

/-- What a copied field contributes to `target`, where `nested` says it of the entity that the field
leads to. -/
def copiedField (nested : (target source : Location) → Set Contribution) (target : Location)
    (c : Name) (key : FieldKey) (x : EntityField) : Set Contribution :=
  {a | ∃ n, Narrowed schema x.conditions c n ∧ (a = .field target key n ∨
    ∃ source, x.child = some source ∧ a ∈ nested (target.append key.key source.typeName) source)}

/-- What merging the fragment `name` into the entity at `target` contributes, apart from fields. -/
def noted (target : Location) (name : Name) (e : Entity) : Set Contribution :=
  {a | a = .entity target ∨ a = .merged target name ∨
    ∃ other ∈ e.mergedFragments, a = .merged target other}

/-- What the entity at `source` of a fragment contributes to `target`, at most `depth` levels
down. -/
def copied (f : Compiled FragmentDefinition) :
    (depth : Nat) → (target source : Location) → Name → Set Contribution
  | 0, _, _, _ => ∅
  | depth + 1, target, source, c =>
    {a | ∃ e, f.entities.find? source = some e ∧ (a ∈ noted target f.definition.name e ∨
      ∃ key x, e.fields.find? key = some x ∧
        a ∈ copiedField schema (fun target source => copied f depth target source source.typeName)
          target c key x)}

/-- What a selection contributes to the entity at a location and below it, where it is made on a
type, and `G` says what the spreads are answered by. -/
inductive Selection.Adds (G : Name → Compiled FragmentDefinition → Prop) :
    Location → Name → Selection → Contribution → Prop
  | field {l : Location} {c name : Name} {aliasName : Option Name} {place : SourceLocation}
      {inner : List Selection} {declared : DeclaredType} :
      schema.fieldType? c name = some declared →
      Adds G l c (.field aliasName name place inner)
        (.field l ⟨responseKey aliasName name, declared⟩ c)
  | entity {l : Location} {c name : Name} {aliasName : Option Name} {place : SourceLocation}
      {inner : List Selection} {declared : DeclaredType} :
      schema.fieldType? c name = some declared → schema.Composite declared.innermostName →
      Adds G l c (.field aliasName name place inner)
        (.entity (l.append (responseKey aliasName name) declared.innermostName))
  | nested {l : Location} {c name : Name} {aliasName : Option Name} {place : SourceLocation}
      {inner : List Selection} {declared : DeclaredType} {s : Selection} {a : Contribution} :
      schema.fieldType? c name = some declared → schema.Composite declared.innermostName →
      s ∈ inner → Adds G (l.append (responseKey aliasName name) declared.innermostName)
        declared.innermostName s a →
      Adds G l c (.field aliasName name place inner) a
  | spread {l : Location} {c c' name : Name} {place : SourceLocation}
      {f : Compiled FragmentDefinition} {cs : List Name} {a : Contribution} :
      G name f →
      Gives (LookupM.intersect c f.definition.condition : LookupM schema LookupError _) cs →
      c' ∈ cs → a ∈ copied schema f f.entities.size l f.rootLocation c' →
      Adds G l c (.spread name place) a
  | inline {l : Location} {c : Name} {place : SourceLocation} {inner : List Selection}
      {s : Selection} {a : Contribution} :
      s ∈ inner → Adds G l c s a → Adds G l c (.inline none place inner) a
  | narrowed {l : Location} {c c' own : Name} {place : SourceLocation} {inner : List Selection}
      {cs : List Name} {s : Selection} {a : Contribution} :
      Gives (LookupM.intersect c own : LookupM schema LookupError _) cs → c' ∈ cs →
      s ∈ inner → Adds G l c' s a → Adds G l c (.inline (some own) place inner) a

/-- What selections on a type contribute at a location, which they enter. -/
def contributions (G : Name → Compiled FragmentDefinition → Prop) (l : Location) (c : Name)
    (selections : List Selection) : Set Contribution :=
  {a | a = .entity l ∨ ∃ s ∈ selections, s.Adds schema G l c a}

/-- What a normal selection contributes. -/
def NormalSelection.Adds (G : Name → Compiled FragmentDefinition → Prop) (l : Location) :
    NormalSelection → Contribution → Prop
  | .field aliasName name place inner c, a =>
    (Selection.field aliasName name place inner).Adds schema G l c a
  | .spread name place c, a => (Selection.spread name place).Adds schema G l c a
  | .unreachable _ _ _, _ => False

/-- Names are resolved to what `G` says, and that is well-formed. -/
structure Answering (resolve : Name → RunM schema Fragment)
    (G : Name → Compiled FragmentDefinition → Prop) : Prop where
  returns : ∀ name f, G name f → RunM.Returns (resolve name) fun x => x.toCompiled = f
  composite : ∀ name f, G name f → schema.Composite f.definition.condition
  sums : ∀ name f, G name f → ∃ C, f.entities.Sums schema C

end

section
variable {schema : Schema} {G : Name → Compiled FragmentDefinition → Prop} {l : Location}
  {c : Name} {a : Contribution}

/-- A name has one answer. -/
theorem Answering.unique {resolve : Name → RunM schema Fragment} (h : Answering schema resolve G)
    {name : Name} {f f' : Compiled FragmentDefinition} (hf : G name f) (hf' : G name f') :
    f = f' := by
  obtain ⟨x, run, hx, rfl⟩ := h.returns name f hf .blank
  obtain ⟨x', run', hx', rfl⟩ := h.returns name f' hf' .blank
  rw [hx] at hx'
  cases hx'
  rfl

/-! ## Kinds of selections -/

namespace Selection

/-- A field contributes itself and, on a composite type, what is selected on it. -/
theorem adds_field_iff {aliasName : Option Name} {name : Name} {place : SourceLocation}
    {inner : List Selection} :
    (Selection.field aliasName name place inner).Adds schema G l c a ↔
      ∃ declared, schema.fieldType? c name = some declared ∧
        (a = .field l ⟨responseKey aliasName name, declared⟩ c ∨
          schema.Composite declared.innermostName ∧
            a ∈ contributions schema G
              (l.append (responseKey aliasName name) declared.innermostName)
              declared.innermostName inner) := by
  constructor
  · intro h
    cases h with
    | field hd => exact ⟨_, hd, .inl rfl⟩
    | entity hd hc => exact ⟨_, hd, .inr ⟨hc, .inl rfl⟩⟩
    | nested hd hc hs h => exact ⟨_, hd, .inr ⟨hc, .inr ⟨_, hs, h⟩⟩⟩
  · rintro ⟨declared, hd, rfl | ⟨hc, rfl | ⟨s, hs, h⟩⟩⟩
    · exact .field hd
    · exact .entity hd hc
    · exact .nested hd hc hs h

/-- An inline fragment without a condition contributes what its selections do. -/
theorem adds_inline_iff {place : SourceLocation} {inner : List Selection} :
    (Selection.inline none place inner).Adds schema G l c a ↔
      ∃ s ∈ inner, s.Adds schema G l c a := by
  constructor
  · intro h
    cases h with
    | inline hs h => exact ⟨_, hs, h⟩
  · rintro ⟨s, hs, h⟩
    exact .inline hs h

/-- An inline fragment contributes what its selections do under the narrowed conditions. -/
theorem adds_inlineOn_iff {own : Name} {place : SourceLocation} {inner : List Selection} :
    (Selection.inline (some own) place inner).Adds schema G l c a ↔
      ∃ cs, Gives (LookupM.intersect c own : LookupM schema LookupError _) cs ∧
        ∃ c' ∈ cs, ∃ s ∈ inner, s.Adds schema G l c' a := by
  constructor
  · intro h
    cases h with
    | narrowed hi hc' hs h => exact ⟨_, hi, _, hc', _, hs, h⟩
  · rintro ⟨cs, hi, c', hc', s, hs, h⟩
    exact .narrowed hi hc' hs h

/-! ## Normal forms -/

mutual

/-- The normal form of a selection contributes what the selection does. -/
theorem normalize_adds_iff : ∀ (s : Selection) {c : Name} {normal : List NormalSelection},
    Gives (normalize c s : LookupM schema LookupError _) normal →
    ((∃ n ∈ normal, n.Adds schema G l a) ↔ s.Adds schema G l c a)
  | .field .., c, normal, h => by
    cases h.of_pure
    simp [NormalSelection.Adds]
  | .spread .., c, normal, h => by
    cases h.of_pure
    simp [NormalSelection.Adds]
  | .inline none _ inner, c, normal, h => by
    rw [normalizeAll_adds_iff inner h, adds_inline_iff]
  | .inline (some own) location inner, c, normal, h => by
    rw [normalize] at h
    obtain ⟨narrowed, hi, h⟩ := h.of_bind
    have hone : (Selection.inline (some own) location inner).Adds schema G l c a ↔
        ∃ c' ∈ narrowed, ∃ s ∈ inner, s.Adds schema G l c' a := by
      rw [adds_inlineOn_iff]
      refine ⟨fun ⟨cs, hi', h⟩ => ?_, fun h => ⟨narrowed, hi, h⟩⟩
      rwa [(LookupM.intersect_steady c own).unique hi hi']
    rw [hone]
    split at h
    · next hnil =>
      obtain ⟨_, -, h⟩ := h.of_bind
      cases h.of_pure
      simp [List.isEmpty_iff.1 hnil, NormalSelection.Adds]
    · obtain ⟨parts, hp, h⟩ := h.of_bind
      cases h.of_pure
      have hiff := hp.of_mapM.imp fun c' part hpart => normalizeAll_adds_iff inner hpart
      constructor
      · rintro ⟨n, hn, hadds⟩
        obtain ⟨part, hpart, hn⟩ := List.mem_flatten.1 hn
        obtain ⟨c', hc', hparts⟩ := exists_of_forall₂ hiff.flip part hpart
        exact ⟨c', hc', hparts.1 ⟨n, hn, hadds⟩⟩
      · rintro ⟨c', hc', hadds⟩
        obtain ⟨part, hpart, hparts⟩ := exists_of_forall₂ hiff c' hc'
        obtain ⟨n, hn, hadds⟩ := hparts.2 hadds
        exact ⟨n, List.mem_flatten.2 ⟨part, hpart, hn⟩, hadds⟩

/-- The normal form of selections contributes what the selections do. -/
theorem normalizeAll_adds_iff : ∀ (selections : List Selection) {c : Name}
    {normal : List NormalSelection},
    Gives (normalizeAll c selections : LookupM schema LookupError _) normal →
    ((∃ n ∈ normal, n.Adds schema G l a) ↔ ∃ s ∈ selections, s.Adds schema G l c a)
  | [], c, normal, h => by
    cases h.of_pure
    simp
  | s :: rest, c, normal, h => by
    obtain ⟨first, hf, h⟩ := h.of_bind
    obtain ⟨tail, ht, h⟩ := h.of_bind
    cases h.of_pure
    simp only [List.mem_append, List.mem_cons, or_and_right, exists_or, exists_eq_left]
    rw [normalize_adds_iff s hf, normalizeAll_adds_iff rest ht]

end

end Selection

/-! ## Copying -/

/-- Conditions that are composite can be narrowed to one that is. -/
theorem narrowConditions_answers {conditions : List Name}
    (hconditions : ∀ x ∈ conditions, schema.Composite x) (hc : schema.Composite c) :
    ∃ cs, Answers (narrowConditions conditions c : LookupM schema LookupError _) cs ∧
      ∀ n, n ∈ cs ↔ ∃ x ∈ conditions, ∃ ns,
        Gives (LookupM.intersect x c : LookupM schema LookupError _) ns ∧ n ∈ ns := by
  suffices hfold : ∀ known : OrderedSet Name, ∃ cs,
      Answers (conditions.foldlM (fun narrowed x => do
        return narrowed.insertAll (← LookupM.intersect x c)) known :
          LookupM schema LookupError _) cs ∧
        ∀ n, n ∈ cs ↔ n ∈ known ∨ ∃ x ∈ conditions, ∃ ns,
          Gives (LookupM.intersect x c : LookupM schema LookupError _) ns ∧ n ∈ ns by
    obtain ⟨cs, hcs, hmem⟩ := hfold ∅
    refine ⟨cs, hcs, fun n => (hmem n).trans ⟨fun h => h.resolve_left nofun, .inr⟩⟩
  induction conditions with
  | nil => exact fun known => ⟨known, .pure _, by simp⟩
  | cons x rest ih =>
    intro known
    obtain ⟨ns, hns⟩ := LookupM.intersect_answers (hconditions x (.head _)) hc
    obtain ⟨cs, hcs, hmem⟩ := ih (fun y hy => hconditions y (List.mem_cons_of_mem _ hy))
      (known.insertAll ns)
    have hunique : ∀ ns', Gives (LookupM.intersect x c : LookupM schema LookupError _) ns' →
        ns' = ns := fun ns' h => (LookupM.intersect_steady x c).unique h hns.gives
    have hfirst : Answers (do return known.insertAll (← LookupM.intersect x c) :
        LookupM schema LookupError _) (known.insertAll ns) := hns.bind (.pure _)
    refine ⟨cs, ?_, fun n => ?_⟩
    · rw [List.foldlM_cons]
      exact hfirst.bind hcs
    · rw [hmem, OrderedSet.mem_insertAll, or_assoc, List.exists_mem_cons_iff]
      refine or_congr_right (or_congr_left ⟨fun hn => ⟨ns, hns.gives, hn⟩, ?_⟩)
      rintro ⟨ns', hns', hn⟩
      rwa [← hunique ns' hns']

variable {f : Compiled FragmentDefinition} {target source : Location} {depth : Nat}

section
variable {N : (target source : Location) → Set Contribution} {x : EntityField}
  {cs : OrderedSet Name} (hmem : ∀ n, n ∈ cs ↔ Narrowed schema x.conditions c n)
include hmem

/-- A field of which no condition is left contributes nothing. -/
theorem copiedField_eq_empty (he : ∀ n, n ∉ cs) :
    copiedField schema N target c x.fieldKey x = ∅ := by
  refine Set.eq_empty_of_forall_notMem ?_
  rintro a ⟨n, hn, -⟩
  exact he n ((hmem n).2 hn)

/-- A field that leads nowhere contributes itself under the narrowed conditions. -/
theorem copiedField_leaf (hchild : x.child = none) :
    copiedField schema N target c x.fieldKey x =
      EntityField.contributions target { x with child := none, conditions := cs } := by
  ext a
  refine exists_congr fun n => and_congr (hmem n).symm ⟨fun h => ?_, .inl⟩
  rcases h with h | ⟨source, hsource, -⟩
  · exact h
  · rw [hchild] at hsource
    cases hsource

/-- A field of which a condition is left also contributes what is below it. -/
theorem copiedField_node (hchild : x.child = some source) (hne : ∃ n, n ∈ cs) :
    copiedField schema N target c x.fieldKey x =
      N (target.append x.key source.typeName) source ∪
        EntityField.contributions target { x with
          child := some (target.append x.key source.typeName)
          conditions := cs } := by
  ext a
  constructor
  · rintro ⟨n, hn, rfl | ⟨source, hsource, ha⟩⟩
    · exact .inr ⟨n, (hmem n).2 hn, rfl⟩
    · rw [hchild] at hsource
      cases hsource
      exact .inl ha
  · rintro (ha | ⟨n, hn, rfl⟩)
    · obtain ⟨n, hn⟩ := hne
      exact ⟨n, (hmem n).1 hn, .inr ⟨source, hchild, ha⟩⟩
    · exact ⟨n, (hmem n).1 hn, .inl rfl⟩

end

/-- A field is copied or left out. -/
theorem copyField_collects (hs : schema.Coherent) (hp : schema.Inhabited)
    {nested : (target source : Location) → Name → UnitM schema Unit}
    {N : (target source : Location) → Set Contribution}
    (hn : ∀ target source, schema.Composite target.typeName →
      target.typeName = source.typeName →
      UnitM.Collects (N target source) (nested target source source.typeName))
    {x : EntityField} (hx : x.Fits schema source) (ht : schema.Composite target.typeName)
    (hc : schema.Composite c) (hw : schema.Within c target.typeName) :
    UnitM.Collects (copiedField schema N target c x.fieldKey x)
      (copyField nested target c x) := by
  obtain ⟨cs, hcs, hmem⟩ := narrowConditions_answers hx.composite hc
  refine UnitM.Collects.ofRun_bind (.ask hcs) ?_
  rintro cs rfl
  split
  · next he =>
    have hnone : ∀ n, n ∉ cs := by
      intro n hn
      rw [← OrderedSet.mem_toList, List.isEmpty_iff.1 he] at hn
      cases hn
    rw [copiedField_eq_empty hmem hnone]
    exact .pure
  · next he =>
    have he : cs.isEmpty = false := by simpa using he
    have hne : ∃ n, n ∈ cs :=
      List.exists_mem_of_ne_nil cs.toList (by simpa [OrderedSet.isEmpty] using he)
    cases hchild : x.child with
    | none =>
      have hhandle : none = schema.handle? target x.fieldKey := by
        rw [hx.child, Schema.handle?_eq_none_iff] at hchild
        rw [eq_comm, Schema.handle?_eq_none_iff]
        exact hchild
      have hfits := hx.narrow hs hw hcs.gives he hhandle
      rw [copiedField_leaf hmem hchild]
      exact mergeAt_collects hp ht hfits
    | some source' =>
      obtain ⟨hcomp, hsource⟩ := Schema.handle?_eq_some_iff.1 (hx.child ▸ hchild)
      have htype : source'.typeName = x.fieldKey.type.innermostName := by
        rw [hsource, Location.typeName_append]
      have hhandle : some (target.append x.key source'.typeName) =
          schema.handle? target x.fieldKey := by
        rw [eq_comm, Schema.handle?_eq_some_iff, htype]
        exact ⟨hcomp, rfl⟩
      have hfits := hx.narrow hs hw hcs.gives he hhandle
      rw [copiedField_node hmem hchild hne]
      refine UnitM.Collects.bind (hn _ _ ?_ ?_) fun _ => mergeAt_collects hp ht hfits
      · rw [Location.typeName_append, htype]
        exact hcomp
      · rw [Location.typeName_append]

/-- A fragment has no more to contribute where it has no entity. -/
theorem copied_of_none (he : f.entities.find? source = none) :
    copied schema f (depth + 1) target source c = ∅ := by
  refine Set.eq_empty_of_forall_notMem ?_
  rintro a ⟨e, he', -⟩
  rw [he] at he'
  cases he'

/-- An entity contributes what is merged into it, and what its fields contribute. -/
theorem copied_of_some {e : Entity} (he : f.entities.find? source = some e)
    (hkeyed : ∀ key x, e.fields.find? key = some x → x.fieldKey = key) :
    copied schema f (depth + 1) target source c =
      noted target f.definition.name e ∪ {a | ∃ x ∈ e.fields.values, a ∈ copiedField schema
        (fun target source => copied schema f depth target source source.typeName) target c
        x.fieldKey x} := by
  ext a
  constructor
  · rintro ⟨e', he', ha⟩
    rw [he] at he'
    cases he'
    refine ha.imp_right ?_
    rintro ⟨key, x, hx, ha⟩
    refine ⟨x, Dict.mem_values_iff.2 ⟨key, hx⟩, ?_⟩
    rw [hkeyed key x hx]
    exact ha
  · intro ha
    refine ⟨e, he, ha.imp_right ?_⟩
    rintro ⟨x, hx, ha⟩
    obtain ⟨key, hx⟩ := Dict.mem_values_iff.1 hx
    rw [hkeyed key x hx] at ha
    exact ⟨key, x, hx, ha⟩

/-- A fragment is merged into the entity at a location, together with what was merged into it. -/
theorem Storage.Sums.noted {C : Set Contribution} {w : Workpiece}
    (hw : w.entities.Sums schema C) (ht : schema.Composite target.typeName) (name : Name)
    (e : Entity) :
    (w.put target { w.entity target with
      mergedFragments := ((w.entity target).mergedFragments.insert name).insertAll
        e.mergedFragments.toList }).entities.Sums schema (C ∪ EntityGraph.noted target name e) := by
  refine hw.note ht ?_ ⟨_, .inl rfl⟩ ?_ fun other => ?_
  · rintro a (rfl | rfl | ⟨other, -, rfl⟩) <;> rfl
  · rintro l key c (h | h | ⟨other, -, h⟩) <;> cases h
  · rw [OrderedSet.mem_insertAll, OrderedSet.mem_insert, (hw.entity_at ht).merged other, or_assoc]
    refine or_congr_right ⟨?_, ?_⟩
    · rintro (rfl | hmem)
      · exact .inr (.inl rfl)
      · exact .inr (.inr ⟨other, hmem, rfl⟩)
    · rintro (h | h | ⟨other', hmem, h⟩) <;> cases h
      · exact .inl rfl
      · exact .inr hmem

/-- A fragment is copied. -/
theorem copyWithin_collects (hs : schema.Coherent) (hp : schema.Inhabited) {f : Fragment}
    {C : Set Contribution} (hf : f.entities.Sums schema C) {depth : Nat}
    (ht : schema.Composite target.typeName) (hc : schema.Composite c)
    (hw : schema.Within c target.typeName) :
    UnitM.Collects (copied schema f.toCompiled depth target source c)
      (copyWithin f depth target source c : UnitM schema Unit) := by
  induction depth generalizing target source c with
  | zero => exact .pure
  | succ depth ih =>
    unfold copyWithin
    cases he : f.entities.find? source with
    | none =>
      rw [copied_of_none he]
      exact .pure
    | some e =>
      have hsum := hf.entity source e he
      have hfields : ∀ x ∈ e.fields.values, UnitM.Collects (copiedField schema
            (fun target source => copied schema f.toCompiled depth target source source.typeName)
            target c x.fieldKey x)
          (copyField (copyWithin f depth) target c x : UnitM schema Unit) := by
        intro x hx
        obtain ⟨key, hkey⟩ := Dict.mem_values_iff.1 hx
        refine copyField_collects hs hp ?_ (hsum.fits key x hkey) ht hc hw
        intro target source ht htype
        exact ih ht (htype ▸ ht) (htype ▸ .refl _)
      rw [copied_of_some he hsum.keyed]
      refine UnitM.Collects.step (fun C w run hw => ?_) (.forM hfields)
      obtain ⟨run₁, hentity⟩ := entityAt_eq target w run
      refine ⟨_, run₁, hw.noted ht f.name e, ?_⟩
      rw [← Workpiece.put_put w target (w.entity target)]
      exact UnitM.bind_of_ok hentity

/-! ## Visiting -/

/-- The declared type of a field that exists is found. -/
theorem fieldType_returns {name : Name} {place : SourceLocation} {declared : DeclaredType}
    (h : schema.fieldType? c name = some declared) :
    RunM.Returns (RunM.fieldType name place c : RunM schema DeclaredType) (· = declared) := by
  unfold Schema.fieldType? at h
  unfold RunM.fieldType
  split at h
  · next hname =>
    rw [if_pos hname]
    exact .pure (Option.some.inj h)
  · next hname =>
    rw [if_neg hname]
    simp only [Option.map_eq_some_iff, Option.bind_eq_some_iff] at h
    obtain ⟨field, ⟨type, htype, hfield⟩, rfl⟩ := h
    refine (RunM.Returns.ask (LookupM.type_answers htype)).bind ?_
    rintro _ rfl
    simp only [hfield]
    exact .pure rfl

variable {resolve : Name → RunM schema Fragment}

/-- Valid selections pass the check. -/
theorem validateWithin_returns {Ok : Name → Prop}
    (hr : ∀ name, Ok name → RunM.Returns (resolve name) fun _ => True) {height : Nat}
    {selections : List Selection} (hheight : Selection.heightAll selections ≤ height)
    (hvalid : ∀ s ∈ selections, s.Valid schema Ok c) :
    RunM.Returns (validateWithin resolve height c selections) fun _ => True := by
  induction height generalizing c selections with
  | zero => exact .pure trivial
  | succ height ih =>
    obtain ⟨normal, hnormal⟩ := Selection.exists_normalizeAll selections hvalid
    refine (RunM.Returns.ask hnormal).bind ?_
    rintro normal rfl
    refine .forM fun n hn => ?_
    have hvalid := (Selection.normalizeAll_valid_iff selections hnormal.gives).2 hvalid n hn
    have hlower : Selection.heightAll n.selections ≤ height := by
      have := (Selection.normalizeAll_parts selections hnormal.gives n hn).lower
      omega
    cases n with
    | field aliasName name place inner c =>
      obtain ⟨declared, type, hdeclared, htype, hinner⟩ := hvalid
      refine (fieldType_returns hdeclared).bind ?_
      rintro _ rfl
      refine (RunM.Returns.ask (LookupM.type_answers htype)).bind ?_
      rintro type rfl
      split at hinner
      · next hc =>
        rw [if_pos hc]
        exact ih hlower hinner
      · next hc =>
        rw [if_neg hc, hinner]
        exact .pure trivial
    | spread name place c => exact (hr name hvalid).bind fun _ _ => .pure trivial
    | unreachable place inner own => exact ih hlower hvalid

/-- A spread is entered: the fragment is referenced and copied. -/
theorem visitSpread_collects (hs : schema.Coherent) (hp : schema.Inhabited)
    (hr : Answering schema resolve G) {name : Name} {place : SourceLocation}
    (hok : ∃ f, G name f) (hl : schema.Composite l.typeName) (hc : schema.Composite c)
    (hw : schema.Within c l.typeName) :
    UnitM.Collects {a | (Selection.spread name place).Adds schema G l c a}
      (visitSpread resolve l name c) := by
  obtain ⟨f, hG⟩ := hok
  obtain ⟨C, hf⟩ := hr.sums name f hG
  obtain ⟨cs, hcs⟩ := LookupM.intersect_answers hc (hr.composite name f hG)
  have hmeet := LookupM.intersect_gives hs hc hcs.gives
  have hset : {a | (Selection.spread name place).Adds schema G l c a} =
      ∅ ∪ {a | ∃ c' ∈ cs, a ∈ copied schema f f.entities.size l f.rootLocation c'} := by
    rw [Set.empty_union]
    ext a
    constructor
    · intro h
      cases h with
      | spread hG' hcs' hc' ha =>
        -- the spread has one answer, and the intersection too
        have hsame := hr.unique hG hG'
        subst hsame
        have hcs₁ := (LookupM.intersect_steady _ _).unique hcs.gives hcs'
        subst hcs₁
        exact ⟨_, hc', ha⟩
    · rintro ⟨c', hc', ha⟩
      exact .spread hG hcs.gives hc' ha
  rw [hset]
  refine UnitM.Collects.ofRun_bind (hr.returns name f hG) ?_
  rintro x rfl
  have hrefer : UnitM.Collects ∅ (UnitM.addReferenced x : UnitM schema Unit) :=
    .modify fun _ => rfl
  refine hrefer.bind fun _ => UnitM.Collects.ofRun_bind (.ask hcs) ?_
  rintro cs rfl
  refine .forM fun c' hc' => ?_
  exact copyWithin_collects hs hp hf hl (hmeet.composite c' hc') ((hmeet.left c' hc').trans hw)

section
variable {aliasName : Option Name} {name : Name} {place : SourceLocation} {inner : List Selection}
  {declared : DeclaredType}

/-- A field that is selected under one condition contributes itself. -/
theorem contributions_single {key : Name} {child : Option Location} :
    (EntityField.single key name declared child c).contributions l =
      {.field l ⟨key, declared⟩ c} := by
  ext a
  constructor
  · rintro ⟨c', hc', rfl⟩
    cases List.mem_singleton.1 hc'
    rfl
  · rintro rfl
    exact ⟨c, .head _, rfl⟩

/-- A field of another type contributes itself. -/
theorem Selection.adds_leaf (hd : schema.fieldType? c name = some declared)
    (hc : ¬ schema.Composite declared.innermostName) :
    {a | (Selection.field aliasName name place inner).Adds schema G l c a} =
      {.field l ⟨responseKey aliasName name, declared⟩ c} := by
  ext a
  rw [Set.mem_ofPred_eq, Selection.adds_field_iff, hd]
  simp [hc]

/-- A field of a composite type contributes what is selected on it, and itself. -/
theorem Selection.adds_node (hd : schema.fieldType? c name = some declared)
    (hc : schema.Composite declared.innermostName) :
    {a | (Selection.field aliasName name place inner).Adds schema G l c a} =
      contributions schema G (l.append (responseKey aliasName name) declared.innermostName)
        declared.innermostName inner ∪ {.field l ⟨responseKey aliasName name, declared⟩ c} := by
  ext a
  rw [Set.mem_ofPred_eq, Selection.adds_field_iff, hd]
  simp [hc]

/-- A valid field is entered, where the selections on it are entered as they should. -/
theorem visitField_collects (hs : schema.Coherent) (hp : schema.Inhabited) {Ok : Name → Prop}
    {nested : Location → Name → List Selection → UnitM schema Unit}
    (hvalid : (NormalSelection.field aliasName name place inner c).Valid schema Ok)
    (hn : ∀ l, schema.Composite l.typeName →
      (∀ s ∈ inner, s.Valid schema Ok l.typeName) →
      UnitM.Collects (contributions schema G l l.typeName inner) (nested l l.typeName inner))
    (hl : schema.Composite l.typeName) (hc : schema.Composite c)
    (hw : schema.Within c l.typeName) :
    UnitM.Collects {a | (Selection.field aliasName name place inner).Adds schema G l c a}
      (visitField nested l aliasName name place inner c) := by
  obtain ⟨declared, type, hdeclared, htype, hinner⟩ := hvalid
  have hname : type.name = declared.innermostName := hs.named _ _ htype
  refine UnitM.Collects.ofRun_bind (fieldType_returns hdeclared) ?_
  rintro declared rfl
  refine UnitM.Collects.ofRun_bind (.ask (LookupM.type_answers htype)) ?_
  rintro type rfl
  split at hinner
  · next hcomposite =>
    have hcomp : schema.Composite declared.innermostName := ⟨type, htype, hcomposite⟩
    have hchild := hn (l.append (responseKey aliasName name) declared.innermostName)
    rw [Location.typeName_append] at hchild
    rw [if_pos hcomposite, Selection.adds_node hdeclared hcomp, hname, ← contributions_single]
    refine (hchild hcomp (hname ▸ hinner)).bind fun _ => mergeAt_collects hp hl (.single hc hw ?_)
    rw [eq_comm, Schema.handle?_eq_some_iff]
    exact ⟨hcomp, rfl⟩
  · next hcomposite =>
    have hcomp : ¬ schema.Composite declared.innermostName :=
      Schema.not_composite htype (by simpa using hcomposite)
    subst hinner
    have hleaf : RunM.Returns (RunM.checkLeaf type [] : RunM schema Unit) fun _ => True :=
      .pure trivial
    rw [if_neg hcomposite, Selection.adds_leaf hdeclared hcomp, ← contributions_single]
    refine UnitM.Collects.ofRun_bind hleaf fun _ _ => mergeAt_collects hp hl (.single hc hw ?_)
    rw [eq_comm, Schema.handle?_eq_none_iff]
    exact hcomp

end

/-- A valid normal selection is entered, where the selections on it are entered as they should. -/
theorem visitSelection_collects (hs : schema.Coherent) (hp : schema.Inhabited)
    (hr : Answering schema resolve G)
    {nested : Location → Name → List Selection → UnitM schema Unit} {n : NormalSelection}
    (hvalid : n.Valid schema fun name => ∃ f, G name f) (hinside : n.Inside schema l.typeName)
    (hl : schema.Composite l.typeName)
    (hn : ∀ l, schema.Composite l.typeName →
      (∀ s ∈ n.selections, s.Valid schema (fun name => ∃ f, G name f) l.typeName) →
      UnitM.Collects (contributions schema G l l.typeName n.selections)
        (nested l l.typeName n.selections)) :
    UnitM.Collects {a | n.Adds schema G l a} (visitSelection resolve nested l n) := by
  cases n with
  | field aliasName name place inner c =>
    exact visitField_collects hs hp hvalid hn hl hinside.1 hinside.2
  | spread name place c => exact visitSpread_collects hs hp hr hvalid hl hinside.1 hinside.2
  | unreachable place inner own =>
    have hset : {a | (NormalSelection.unreachable place inner own).Adds schema G l a} = ∅ :=
      Set.eq_empty_of_forall_notMem fun _ h => h
    rw [hset]
    refine .ofRun (validateWithin_returns ?_ (Nat.le_refl _) hvalid)
    rintro name ⟨f, hf⟩ run
    obtain ⟨x, run', hx, -⟩ := hr.returns name f hf run
    exact ⟨x, run', hx, trivial⟩

/-- Valid selections are entered: the location is, and they contribute what they add. -/
theorem visitWithin_collects (hs : schema.Coherent) (hp : schema.Inhabited)
    (hr : Answering schema resolve G) {height : Nat} {selections : List Selection}
    (hheight : Selection.heightAll selections ≤ height)
    (hvalid : ∀ s ∈ selections, s.Valid schema (fun name => ∃ f, G name f) l.typeName)
    (hl : schema.Composite l.typeName) :
    UnitM.Collects (contributions schema G l l.typeName selections)
      (visitWithin resolve height l l.typeName selections) := by
  induction height generalizing l selections with
  | zero =>
    cases Selection.eq_nil_of_heightAll (Nat.le_zero.1 hheight)
    have hset : contributions schema G l l.typeName [] = {.entity l} ∪ ∅ := by
      ext a
      simp [contributions]
    rw [hset]
    exact (entityAt_collects hl).bind fun _ => .pure
  | succ height ih =>
    obtain ⟨normal, hnormal⟩ := Selection.exists_normalizeAll selections hvalid
    -- only the conditions matter here, and they do not depend on any definitions
    have hinside : Normal schema ⟨none, [], []⟩ l.typeName selections normal :=
      Selection.normalizeAll_normal hs selections hl hnormal.gives
    have hstep : ∀ n ∈ normal, UnitM.Collects {a | n.Adds schema G l a}
        (visitSelection resolve (visitWithin resolve height) l n) := by
      intro n hn
      have hlower := (Selection.normalizeAll_parts selections hnormal.gives n hn).lower
      refine visitSelection_collects hs hp hr
        ((Selection.normalizeAll_valid_iff selections hnormal.gives).2 hvalid n hn)
        (hinside.inside n hn) hl fun l hl hvalid => ih (by omega) hvalid hl
    have hset : contributions schema G l l.typeName selections =
        {.entity l} ∪ {a | ∃ n ∈ normal, n.Adds schema G l a} := by
      ext a
      exact or_congr_right (Selection.normalizeAll_adds_iff selections hnormal.gives).symm
    rw [hset]
    refine (entityAt_collects hl).bind fun _ => UnitM.Collects.ofRun_bind (.ask hnormal) ?_
    rintro normal rfl
    exact .forM hstep

/-! ## Definitions -/

section
variable (hs : schema.Coherent) (hp : schema.Inhabited) (hr : Answering schema resolve G)
include hs hp hr

/-- The walk over the selections of a definition. -/
theorem visit_collected {selections : List Selection}
    (hvalid : ∀ s ∈ selections, s.Valid schema (fun name => ∃ f, G name f) l.typeName)
    (hl : schema.Composite l.typeName) (run : Run schema) :
    Collected (contributions schema G l l.typeName selections)
      ((visit resolve l l.typeName selections).run .empty run) := by
  have hcollects := visitWithin_collects hs hp hr (Nat.le_refl _) hvalid hl ∅ .empty run .empty
  rwa [Set.empty_union] at hcollects

/-- The walk succeeds if the contributions do not clash. -/
theorem visit_returns {selections : List Selection}
    (hvalid : ∀ s ∈ selections, s.Valid schema (fun name => ∃ f, G name f) l.typeName)
    (hl : schema.Composite l.typeName)
    (hfree : ¬ Clash schema (contributions schema G l l.typeName selections)) :
    RunM.Returns ((visit resolve l l.typeName selections).run .empty) fun _ => True := by
  intro run
  have hcollected := visit_collected hs hp hr hvalid hl run
  cases hv : (visit resolve l l.typeName selections).run .empty run with
  | ok p run' => exact ⟨p, run', rfl, trivial⟩
  | error e run' =>
    rw [hv] at hcollected
    exact absurd hcollected hfree

/-- A fragment definition is compiled to the sum of its contributions. -/
theorem compileFragment_sums {d : FragmentDefinition} {f : Compiled FragmentDefinition}
    {run run' : Run schema}
    (hvalid : ∀ s ∈ d.selections, s.Valid schema (fun name => ∃ f, G name f) d.condition)
    (h : compileFragment resolve d run = .ok f run') :
    schema.Composite d.condition ∧ f.definition = d ∧
      f.rootLocation = .ofFragment d.name d.condition ∧
      f.entities.Sums schema
        (contributions schema G (.ofFragment d.name d.condition) d.condition d.selections) := by
  obtain ⟨_, r₁, h₁, h⟩ := ok_of_bind h
  obtain ⟨type, r₂, h₂, h⟩ := ok_of_bind h
  have hask : RunM.Does (fun _ => True) (RunM.ask (LookupM.type d.condition) : RunM schema _)
      (Gives (LookupM.type d.condition)) := .ask
  have hask := hask r₁ trivial
  rw [h₂] at hask
  split at h
  · next hc =>
    obtain ⟨⟨_, work⟩, r₃, h₃, h⟩ := ok_of_bind h
    obtain ⟨_, r₄, h₄, h⟩ := ok_of_bind h
    have hcomp : schema.Composite d.condition := ⟨type, LookupM.type_gives hask.2, hc⟩
    have hcollected : Collected
        (contributions schema G (.ofFragment d.name d.condition) d.condition d.selections)
        ((visit resolve (.ofFragment d.name d.condition) d.condition d.selections).run .empty r₂) :=
      visit_collected (l := .ofFragment d.name d.condition) hs hp hr hvalid hcomp r₂
    rw [h₃] at hcollected
    cases h
    exact ⟨hcomp, rfl, rfl, hcollected⟩
  · cases h

/-- A fragment definition is compiled if its contributions do not clash. -/
theorem exists_compileFragment {d : FragmentDefinition} (hcomp : schema.Composite d.condition)
    (hvalid : ∀ s ∈ d.selections, s.Valid schema (fun name => ∃ f, G name f) d.condition)
    (hfree : ¬ Clash schema
      (contributions schema G (.ofFragment d.name d.condition) d.condition d.selections)) :
    RunM.Returns (compileFragment resolve d) fun _ => True := by
  obtain ⟨type, htype, hc⟩ := hcomp
  have hvisit : RunM.Returns
      ((visit resolve (.ofFragment d.name d.condition) d.condition d.selections).run .empty)
      fun _ => True := visit_returns hs hp hr hvalid ⟨type, htype, hc⟩ hfree
  refine RunM.Returns.report.bind fun _ _ => ?_
  refine (RunM.Returns.ask (LookupM.type_answers htype)).bind ?_
  rintro type rfl
  rw [if_pos hc]
  exact hvisit.bind fun _ _ => RunM.Returns.report.bind fun _ _ => .pure trivial

/-- An operation definition is compiled to the sum of its contributions. -/
theorem compileOperation_sums {d : OperationDefinition} {op : Operation} {run run' : Run schema}
    {type : NamedType} (hroot : schema.root? d.kind = some type)
    (hvalid : ∀ s ∈ d.selections, s.Valid schema (fun name => ∃ f, G name f) type.name)
    (h : compileOperation resolve d run = .ok op run') :
    op.entities.Sums schema
      (contributions schema G (.ofOperation d.name type.name) type.name d.selections) := by
  obtain ⟨_, r₁, h₁, h⟩ := ok_of_bind h
  simp only [hroot] at h
  obtain ⟨⟨_, work⟩, r₂, h₂, h⟩ := ok_of_bind h
  obtain ⟨_, r₃, h₃, h⟩ := ok_of_bind h
  have hcollected : Collected
      (contributions schema G (.ofOperation d.name type.name) type.name d.selections)
      ((visit resolve (.ofOperation d.name type.name) type.name d.selections).run .empty r₁) :=
    visit_collected (l := .ofOperation d.name type.name) hs hp hr hvalid
      (hs.root_composite hroot) r₁
  rw [h₂] at hcollected
  cases h
  exact hcollected

/-- An operation definition is compiled if its contributions do not clash. -/
theorem exists_compileOperation {d : OperationDefinition} {type : NamedType}
    (hroot : schema.root? d.kind = some type)
    (hvalid : ∀ s ∈ d.selections, s.Valid schema (fun name => ∃ f, G name f) type.name)
    (hfree : ¬ Clash schema
      (contributions schema G (.ofOperation d.name type.name) type.name d.selections)) :
    RunM.Returns (compileOperation resolve d) fun _ => True := by
  have hvisit : RunM.Returns
      ((visit resolve (.ofOperation d.name type.name) type.name d.selections).run .empty)
      fun _ => True := visit_returns hs hp hr hvalid (hs.root_composite hroot) hfree
  refine RunM.Returns.report.bind fun _ _ => ?_
  simp only [hroot]
  exact hvisit.bind fun _ _ => RunM.Returns.report.bind fun _ _ => .pure trivial

end

end

end EntityGraph
