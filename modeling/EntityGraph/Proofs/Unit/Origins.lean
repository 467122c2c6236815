import EntityGraph.Proofs.Unit.Responses
import EntityGraph.Proofs.Unit.RootFields
import EntityGraph.Proofs.Walk.Contributions

/-!
# Where the fields of an entity come from

A field of an entity can be in a response if the object types along its location can be chosen so
that each response key is collected for the type before it (`Occurs`). What a walk selects itself
does occur. A named fragment is compiled on its own, though, and only the fields of its root entity
are restricted to the place where it is spread; what lies below them is taken over as it is. So a
key that leads into a fragment has to be collected where the fragment is spread, and from there the
location is followed in the fragment, for any object type that its own condition allows (`Arises`).
Main statement: `Yields.arises`, every field of every entity arises. Two branches of a fragment that
exclude each other can meet in this way below a field that both have, and then a field arises that
never occurs (`Branches.field_never_occurs`).
-/

namespace EntityGraph

open Conditions (Cover)
open LookupM (Gives)

/-! ## Paths of responses -/

section
variable (schema : Schema) (document : Document)

/-- The spread of a fragment is entered for the object type `o`: it is selected directly, or in
inline fragments whose conditions the object type satisfies. -/
inductive Enters (o : Name) : List Selection → Name → Prop
  | spread {selections : List Selection} {name : Name} {location : SourceLocation} :
      .spread name location ∈ selections → Enters o selections name
  | inline {selections inner : List Selection} {location : SourceLocation} {name : Name} :
      .inline none location inner ∈ selections → Enters o inner name → Enters o selections name
  | inlineOn {selections inner : List Selection} {location : SourceLocation} {c name : Name} :
      .inline (some c) location inner ∈ selections → schema.Possible c o → Enters o inner name →
      Enters o selections name

/-- A response can have the key `k` where the path leads to from the position: the object types
along the path can be chosen so that each key is collected for the type before it. -/
def Occurs : Position → List LocationStep → Name → Prop
  | p, [], k => ∃ g, p.Collects schema document g ∧ g.key = k
  | p, s :: path, k => (∃ g, p.Collects schema document g ∧ g.key = s.key) ∧
      ∃ o, schema.Possible s.typeName o ∧ Occurs (p.step schema document s.key o) path k

/-- The key `k` is selected where the path leads to from the position. This is as in `Occurs`,
except that a key which is collected from a spread fragment may be followed in the fragment on its
own, for another object type that satisfies its condition. -/
inductive Arises : Position → List LocationStep → Name → Prop
  | here {p : Position} {g : FieldSelection} : p.Collects schema document g → Arises p [] g.key
  | step {p : Position} {g : FieldSelection} {type o k : Name} {path : List LocationStep} :
      p.Collects schema document g → schema.Possible type o →
      Arises (p.step schema document g.key o) path k → Arises p (⟨g.key, type⟩ :: path) k
  | apart {p : Position} {selections : List Selection} {name : Name} {d : FragmentDefinition}
      {g : FieldSelection} {type o k : Name} {path : List LocationStep} :
      p.selections selections → Enters schema p.object selections name →
      document.Defines name d → schema.Possible d.condition p.object →
      Gathers schema document p.object d.selections g → schema.Possible d.condition o →
      Arises ⟨o, fun selections => selections = d.selections⟩ (⟨g.key, type⟩ :: path) k →
      Arises p (⟨g.key, type⟩ :: path) k

end

section
variable {schema : Schema} {document : Document}

/-- Where more selections are merged, as much arises. -/
theorem Arises.mono {p : Position} {path : List LocationStep} {k : Name}
    (h : Arises schema document p path k) {q : Position} (ho : q.object = p.object)
    (hsel : ∀ selections, p.selections selections → q.selections selections) :
    Arises schema document q path k := by
  have hcollects : ∀ {p q : Position}, q.object = p.object →
      (∀ selections, p.selections selections → q.selections selections) →
      ∀ {g}, p.Collects schema document g → q.Collects schema document g := by
    rintro p q ho hsel g ⟨selections, hs, hg⟩
    exact ⟨selections, hsel _ hs, ho ▸ hg⟩
  induction h generalizing q with
  | here hg => exact .here (hcollects ho hsel hg)
  | step hg hpossible _ ih =>
    refine .step (hcollects ho hsel hg) hpossible (ih rfl ?_)
    rintro selections ⟨g', hg', hkey, rfl⟩
    exact ⟨g', hcollects ho hsel hg', hkey, rfl⟩
  | apart hs he hd hc hg hpossible harises _ =>
    exact .apart (hsel _ hs) (ho ▸ he) hd (ho ▸ hc) (ho ▸ hg) hpossible harises

/-- Without named fragments what arises also occurs. -/
theorem Arises.occurs {p : Position} {path : List LocationStep} {k : Name}
    (h : Arises schema document p path k) (hnone : document.fragments = []) :
    Occurs schema document p path k := by
  induction h with
  | here hg => exact ⟨_, hg, rfl⟩
  | step hg hpossible _ ih => exact ⟨⟨_, hg, rfl⟩, _, hpossible, ih⟩
  | apart _ _ hd =>
    obtain ⟨hmem, -⟩ := hd
    rw [hnone] at hmem
    cases hmem

end

/-! ## Spreads in normal forms -/

section
variable {schema : Schema} {o c c' name : Name} {place : SourceLocation}

/-- From a spread that is entered the fields of the fragment are collected. -/
theorem Enters.gathers {document : Document} {selections : List Selection} {d : FragmentDefinition}
    {g : FieldSelection} (h : Enters schema o selections name) (hd : document.Defines name d)
    (ho : schema.Possible d.condition o) (hg : Gathers schema document o d.selections g) :
    Gathers schema document o selections g := by
  induction h with
  | spread hm => exact .spread hm hd ho hg
  | inline hm _ ih => exact .inline hm (ih hd)
  | inlineOn hm hc _ ih => exact .inlineOn hm hc (ih hd)

/-- A spread that comes out of selections is entered in them for what satisfies its condition. -/
theorem Emits.enters (hs : schema.Coherent) {selections : List Selection} (hc : schema.Composite c)
    (h : Emits schema c selections (.spread name place c')) (ho : schema.Possible c' o) :
    schema.Possible c o ∧ Enters schema o selections name := by
  generalize hn : NormalSelection.spread name place c' = n at h
  induction h with
  | field | excluded => cases hn
  | spread hm =>
    cases hn
    exact ⟨ho, .spread hm⟩
  | inline hm _ ih =>
    obtain ⟨hpossible, henters⟩ := ih hc hn
    exact ⟨hpossible, .inline hm henters⟩
  | narrowed hm hi hc' _ ih =>
    have hmeet := LookupM.intersect_gives hs hc hi
    obtain ⟨hpossible, henters⟩ := ih (hmeet.composite _ hc') hn
    exact ⟨hmeet.left _ hc' o hpossible, .inlineOn hm (hmeet.right _ hc' o hpossible) henters⟩

end

/-! ## What a unit gains -/

/-- The location a path further. -/
def Location.extend (l : Location) (path : List LocationStep) : Location :=
  { l with path := l.path ++ path }

@[simp] theorem Location.extend_nil (l : Location) : l.extend [] = l := by
  simp [Location.extend]

/-- A path after a field. -/
theorem Location.extend_append (l : Location) (key type : Name) (path : List LocationStep) :
    (l.append key type).extend path = l.extend (⟨key, type⟩ :: path) := by
  simp [Location.extend, Location.append]

/-- The entity at a location has a field with the response key `k`. -/
def Storage.Has (entities : Storage) (l : Location) (k : Name) : Prop :=
  ∃ key f, entities.field? l key = some f ∧ key.key = k

/-- The unit `w'` has the response keys that `w` has, and beyond these only what `A` allows. -/
def Gains (A : Location → Name → Prop) (w w' : Workpiece) : Prop :=
  ∀ l k, w'.entities.Has l k → w.entities.Has l k ∨ A l k

namespace Gains

variable {A B : Location → Name → Prop} {w w₁ w₂ w₃ w' : Workpiece}

/-- Nothing is gained. -/
theorem refl (w : Workpiece) : Gains A w w := fun _ _ h => .inl h

/-- Gains add up. -/
theorem trans (h₁ : Gains A w₁ w₂) (h₂ : Gains A w₂ w₃) : Gains A w₁ w₃ :=
  fun l k h => (h₂ l k h).elim (h₁ l k) .inr

/-- More may be allowed. -/
theorem mono (h : Gains A w w') (hAB : ∀ l k, A l k → B l k) : Gains B w w' :=
  fun l k hk => (h l k hk).imp_right (hAB l k)

/-- An entity is replaced by one with the same fields. -/
theorem put {l : Location} {e : Entity} (h : e.fields = (w.entity l).fields) :
    Gains A w (w.put l e) := by
  rintro l' k ⟨key, f, hf, hk⟩
  refine .inl ⟨key, f, ?_, hk⟩
  rw [Workpiece.field?_put] at hf
  split at hf
  · next heq => rw [heq, Workpiece.field?_entity, ← h, hf]
  · exact hf

/-- A field that is merged is gained. -/
theorem merge {schema : Schema} {l : Location} {f : EntityField} (h : Merges schema l f w w')
    (hA : A l f.key) : Gains A w w' := by
  obtain ⟨m, -, rfl⟩ := h
  rintro l' k ⟨key, x, hx, hk⟩
  rw [Workpiece.field?_put] at hx
  split at hx
  · next heq =>
    rw [Dict.find?_insert] at hx
    split at hx
    · next hkey =>
      refine .inr ?_
      rw [heq, ← hk, hkey]
      exact hA
    · refine .inl ⟨key, x, ?_, hk⟩
      rw [heq, Workpiece.field?_entity]
      exact hx
  · exact .inl ⟨key, x, hx, hk⟩

end Gains

/-! ## Copying -/

/-- The key that a path with a key at its end starts with. -/
def leadingKey : List LocationStep → Name → Name
  | [], k => k
  | step :: _, _ => step.key

section
variable {schema : Schema} {document : Document} {fragment : Fragment} {depth : Nat}
  {location target source : Location} {condition : Name} {w w' : Workpiece}

/-- What the entity at `source` of a fragment may give to `target`: a key that is selected below it,
whose path starts with one that is in responses of an object type satisfying the condition. -/
def Inherited (schema : Schema) (fragment : Fragment) (target source : Location) (condition : Name)
    (l : Location) (k : Name) : Prop :=
  ∃ path o, l = target.extend path ∧ fragment.entities.Has (source.extend path) k ∧
    schema.Possible condition o ∧ fragment.entities.Covers schema source (leadingKey path k) o

/-- A field that is not left out is covered for some object type that satisfies the condition. -/
theorem exists_cover_of_narrowed (hs : schema.Coherent) (hp : schema.Inhabited) {f : EntityField}
    {cs : OrderedSet Name} (hf : f.Fits schema source)
    (hcs : Gives (narrowConditions f.conditions.toList condition :
      LookupM schema LookupError _) cs) (hne : cs.isEmpty = false) :
    ∃ o, schema.Possible condition o ∧ Cover schema f.conditions o := by
  have hnarrows := narrowConditions_gives hs hf.composite hcs
  rw [OrderedSet.isEmpty, List.isEmpty_eq_false_iff] at hne
  obtain ⟨c, hc⟩ := List.exists_mem_of_ne_nil _ hne
  obtain ⟨o, ho⟩ := hp c (hnarrows.composite c hc)
  obtain ⟨hcover, hcondition⟩ := (hnarrows.cover o).1 ⟨c, hc, ho⟩
  exact ⟨o, hcondition, hcover⟩

/-- A copied field gives itself and what lies below it. -/
theorem CopiesField.gains (hs : schema.Coherent) (hp : schema.Inhabited)
    {nested : (target source : Location) → Name → Workpiece → Workpiece → Prop}
    (hn : ∀ target source condition w w', nested target source condition w w' →
      Gains (Inherited schema fragment target source condition) w w')
    {f : EntityField} {key : FieldKey} (hf : f.Fits schema source) (hkey : f.fieldKey = key)
    (hfield : fragment.entities.field? source key = some f)
    (h : CopiesField schema nested target condition f w w') :
    Gains (Inherited schema fragment target source condition) w w' := by
  have hk : key.key = f.key := by rw [← hkey]; rfl
  have hself : ∀ {cs}, Gives (narrowConditions f.conditions.toList condition :
      LookupM schema LookupError _) cs → cs.isEmpty = false →
        Inherited schema fragment target source condition target f.key := by
    intro cs hcs hne
    obtain ⟨o, ho, hcover⟩ := exists_cover_of_narrowed hs hp hf hcs hne
    refine ⟨[], o, by simp, ⟨key, f, by simpa using hfield, hk⟩, ho, key, f, hfield, hk, hcover⟩
  cases h with
  | skip => exact .refl _
  | leaf hcs hne _ hm => exact .merge hm (hself hcs hne)
  | node hcs hne hchild hnested hm =>
    obtain ⟨o, ho, hcover⟩ := exists_cover_of_narrowed hs hp hf hcs hne
    obtain ⟨-, rfl⟩ := Schema.handle?_eq_some_iff.1 (hf.child ▸ hchild)
    refine ((hn _ _ _ _ _ hnested).mono ?_).trans (.merge hm (hself hcs hne))
    rintro l k ⟨path, o', rfl, hhas, -, -⟩
    rw [Location.typeName_append, Location.extend_append]
    rw [Location.extend_append] at hhas
    exact ⟨_, o, rfl, hhas, ho, key, f, hfield, hk, hcover⟩

/-- A copy gives what lies below the source. -/
theorem Copies.gains (hs : schema.Coherent) (hp : schema.Inhabited)
    (hF : fragment.unit.Formed schema)
    (h : Copies schema fragment depth target source condition w w') :
    Gains (Inherited schema fragment target source condition) w w' := by
  induction depth generalizing target source condition w w' with
  | zero => exact h ▸ .refl _
  | succ depth ih =>
    unfold Copies at h
    split at h
    · exact h ▸ .refl _
    · next e he =>
      have hform := hF.formed.entities source e he
      refine Gains.trans (.put ?_) (h.lift Gains.refl Gains.trans fun f hf w w' hcopy => ?_)
      · rfl
      · obtain ⟨key, hkey⟩ := Dict.mem_values_iff.1 hf
        exact hcopy.gains hs hp (fun _ _ _ _ _ => ih) (hform.fits key f hkey)
          (hform.keyed key f hkey) (Storage.field?_eq_some_iff.2 ⟨e, he, hkey⟩)

/-! ## Visiting -/

/-- What selections on a type may give to a location: what arises from them for an object type that
the type can have. -/
def Selected (schema : Schema) (document : Document) (location : Location) (type : Name)
    (selections : List Selection) (l : Location) (k : Name) : Prop :=
  ∃ path o, l = location.extend path ∧ schema.Possible type o ∧
    Arises schema document ⟨o, fun s => s = selections⟩ path k

/-- All keys of the unit arise from its selections. -/
def CompiledUnit.Sourced (schema : Schema) (document : Document) (u : CompiledUnit) : Prop :=
  ∀ l k, u.entities.Has l k → Selected schema document u.root u.rootType u.selections l k

/-- What a spread gives arises, where the spread is entered. -/
theorem Inherited.selected {selections : List Selection} {name c k : Name} {l : Location}
    (hdef : ∀ d, document.Defines name d ↔ d = fragment.definition)
    (hF : fragment.unit.FormedExact schema document)
    (hsourced : fragment.unit.Sourced schema document)
    (henters : ∀ o, schema.Possible c o → schema.Possible condition o ∧
      schema.Possible fragment.definition.condition o ∧ Enters schema o selections name)
    (h : Inherited schema fragment location fragment.rootLocation c l k) :
    Selected schema document location condition selections l k := by
  obtain ⟨path, o, rfl, hhas, ho, hcovers⟩ := h
  obtain ⟨hcondition, hown, henter⟩ := henters o ho
  have hdefines := (hdef _).2 rfl
  obtain ⟨g, hg, hkey⟩ := (hF.2 _ o hown).1 hcovers
  refine ⟨path, o, rfl, hcondition, ?_⟩
  cases path with
  | nil =>
    cases hkey
    exact .here ⟨selections, rfl, henter.gathers hdefines hown hg⟩
  | cons step rest =>
    obtain ⟨key, type⟩ := step
    cases hkey
    -- below its root the fragment is followed on its own
    obtain ⟨path', o', hpath, ho', harises⟩ := hsourced _ k hhas
    have hsame : path' = ⟨g.key, type⟩ :: rest := by
      have hpaths := congrArg Location.path hpath
      exact (List.append_cancel_left hpaths).symm
    exact .apart rfl henter hdefines hown hg ho' (hsame ▸ harises)

variable {G : Name → Fragment → Prop}

/-- What a normal selection gives arises from the selections that it belongs to. -/
theorem VisitsSelection.gains (hs : schema.Coherent) (hp : schema.Inhabited)
    (hG : ∀ name f, G name f → (∀ d, document.Defines name d ↔ d = f.definition) ∧
      f.unit.FormedExact schema document ∧ f.unit.Sourced schema document)
    {nested : Location → Name → List Selection → Workpiece → Workpiece → Prop}
    {selections : List Selection} {s : NormalSelection} (hi : s.Inside schema condition)
    (hgathers : ∀ o g, s.Contributes schema document o g →
      Gathers schema document o selections g)
    (henters : ∀ name place c, s = .spread name place c → ∀ o, schema.Possible c o →
      Enters schema o selections name)
    (hn : ∀ location type inner w w', schema.Composite type → nested location type inner w w' →
      Gains (Selected schema document location type inner) w w')
    (h : VisitsSelection schema G nested location s w w') :
    Gains (Selected schema document location condition selections) w w' := by
  -- a field is collected for some object type that satisfies its condition
  have hfield : ∀ {aliasName : Option Name} {name c : Name} {place : SourceLocation}
      {inner : List Selection}, s = .field aliasName name place inner c →
        ∃ o, schema.Possible condition o ∧
          Position.Collects schema document ⟨o, fun s => s = selections⟩
            ⟨aliasName, name, place, inner⟩ := by
    rintro aliasName name c place inner rfl
    obtain ⟨o, ho⟩ := hp c hi.1
    exact ⟨o, hi.2 o ho, selections, rfl, hgathers o _ ⟨ho, rfl⟩⟩
  cases h with
  | leaf _ _ _ hm =>
    obtain ⟨o, ho, hcollects⟩ := hfield rfl
    exact .merge hm ⟨[], o, by simp, ho, .here hcollects⟩
  | @node aliasName name c place inner declared type _ _ _ _ ht hcomposite hv hm =>
    obtain ⟨o, ho, hcollects⟩ := hfield rfl
    have htype : schema.Composite type.name := by
      rw [hs.named _ _ ht]
      exact ⟨type, ht, hcomposite⟩
    refine ((hn _ _ _ _ _ htype hv).mono ?_).trans (.merge hm ⟨[], o, by simp, ho, .here hcollects⟩)
    rintro l k ⟨path, o', rfl, ho', harises⟩
    rw [Location.extend_append]
    refine ⟨_, o, rfl, ho, .step hcollects ho' (harises.mono rfl ?_)⟩
    rintro selections rfl
    exact ⟨_, hcollects, rfl, rfl⟩
  | @spread name c place fragment cs w w' hg hcs hcopies =>
    obtain ⟨hdef, hF, hsourced⟩ := hG name fragment hg
    have hmeet := LookupM.intersect_gives hs hi.1 hcs
    show Gains _ (w.refer fragment) w'
    refine hcopies.lift Gains.refl Gains.trans fun c' hc' w w' hcopy => ?_
    refine (hcopy.gains hs hp hF.1).mono fun l k hinherited => ?_
    refine hinherited.selected hdef hF hsourced fun o ho => ?_
    have hc := hmeet.left c' hc' o ho
    exact ⟨hi.2 o hc, hmeet.right c' hc' o ho, henters name place c rfl o hc⟩
  | unreachable => exact .refl _

/-- What selections give arises from them. -/
theorem Visits.gains (hs : schema.Coherent) (hp : schema.Inhabited)
    (hG : ∀ name f, G name f → (∀ d, document.Defines name d ↔ d = f.definition) ∧
      f.unit.FormedExact schema document ∧ f.unit.Sourced schema document)
    {height : Nat} {selections : List Selection} (hc : schema.Composite condition)
    (h : Visits schema G height location condition selections w w') :
    Gains (Selected schema document location condition selections) w w' := by
  induction height generalizing location condition selections w w' with
  | zero => exact h ▸ .put rfl
  | succ height ih =>
    obtain ⟨normal, hnormal, hchain⟩ := h
    have hn : Normal schema document condition selections normal :=
      Selection.normalizeAll_normal hs selections hc hnormal
    refine Gains.trans (.put rfl) (hchain.lift Gains.refl Gains.trans fun s hm w w' hv => ?_)
    refine hv.gains hs hp hG (hn.inside s hm) (fun o g hcon => ?_) ?_ fun _ _ _ _ _ hc => ih hc
    · exact (hn.gathers o g (hcon.possible (hn.inside s hm))).2 ⟨s, hm, hcon⟩
    · rintro name place c rfl o ho
      exact ((Selection.normalizeAll_emits selections hnormal _ hm).enters hs hc ho).2

end

/-! ## Units -/

section
variable {schema : Schema} {document : Document} {u : CompiledUnit}

/-- A loop of steps that are others as well. -/
theorem Chain.imp {α : Type} {R S : α → Workpiece → Workpiece → Prop}
    (hRS : ∀ a w w', R a w w' → S a w w') :
    ∀ {l : List α} {w w' : Workpiece}, Chain R l w w' → Chain S l w w'
  | [], _, _, h => h
  | _ :: _, _, _, ⟨w₁, h₁, h₂⟩ => ⟨w₁, hRS _ _ _ h₁, h₂.imp hRS⟩

/-- Spreads may be answered by more. -/
theorem Visits.mono {G G' : Name → Fragment → Prop} (hG : ∀ name f, G name f → G' name f)
    {height : Nat} {location : Location} {condition : Name} {selections : List Selection}
    {w w' : Workpiece} (h : Visits schema G height location condition selections w w') :
    Visits schema G' height location condition selections w w' := by
  induction height generalizing location condition selections w w' with
  | zero => exact h
  | succ height ih =>
    obtain ⟨normal, hnormal, hchain⟩ := h
    refine ⟨normal, hnormal, hchain.imp fun s w w' hv => ?_⟩
    cases hv with
    | leaf hd ht hc hm => exact .leaf hd ht hc hm
    | node hd ht hc hv hm => exact .node hd ht hc (ih hv) hm
    | spread hg hcs hcopies => exact .spread (hG _ _ hg) hcs hcopies
    | unreachable => exact .unreachable

/-- Less may be known of the fragments that a unit spreads. -/
theorem Walked.mono {P Q : CompiledUnit → Prop} (hPQ : ∀ u, P u → Q u)
    (h : Walked schema document P u) : Walked schema document Q u :=
  ⟨h.root, h.composite, h.visits.mono fun _ _ hf => ⟨hf.1, hPQ _ hf.2⟩⟩

/-- The keys of a unit arise from its selections if those of the fragments that it spreads do. -/
theorem Walked.sourced (hs : schema.Coherent) (hp : schema.Inhabited)
    (h : Walked schema document
      (fun u => u.FormedExact schema document ∧ u.Sourced schema document) u) :
    u.FormedExact schema document ∧ u.Sourced schema document := by
  refine ⟨(h.mono fun _ h => h.1).exact hs, fun l k hhas => ?_⟩
  refine (h.visits.gains hs hp (fun _ _ h => h) h.composite l k hhas).resolve_left ?_
  rintro ⟨key, f, hf, -⟩
  cases hf

/-- Every field of every entity arises from the selections of the unit, for an object type that its
root can have. If no fragments are defined it occurs there. -/
theorem Yields.arises (hs : schema.Built) (hp : schema.Inhabited) (h : Yields schema document u)
    {l : Location} {e : Entity} (he : u.entities.find? l = some e) {f : EntityField}
    (hf : f ∈ e.fields.values) :
    ∃ o, schema.Possible u.rootType o ∧
      Arises schema document ⟨o, fun s => s = u.selections⟩ l.path f.key ∧
      (document.fragments = [] →
        Occurs schema document ⟨o, fun s => s = u.selections⟩ l.path f.key) := by
  have hu := h.induction hs.coherent fun _ hw => hw.sourced hs.coherent hp
  obtain ⟨key, hkey⟩ := Dict.mem_values_iff.1 hf
  have hform := hu.1.1.formed.entities l e he
  have hhas : u.entities.Has l f.key :=
    ⟨key, f, Storage.field?_eq_some_iff.2 ⟨e, he, hkey⟩, by rw [← hform.keyed key f hkey]; rfl⟩
  obtain ⟨path, o, rfl, ho, harises⟩ := hu.2 l f.key hhas
  rw [hu.1.1.root]
  exact ⟨o, ho, harises, harises.occurs⟩

end

/-! ## A field that only arises

A fragment on an interface enters one field under each of two object types, and selects something
else there each time. Where it is spread on one of the object types, the entity of the field has
both. -/

namespace Branches

open Grammar (Definition)
open Sample (field type place)

/-- The definitions of the schema. -/
def definitions : List Definition := [
  type "Node" (.interface [] [field "part" (.named "Part")]),
  type "First" (.object ["Node"] [field "part" (.named "Part")]),
  type "Second" (.object ["Node"] [field "part" (.named "Part")]),
  type "Part" (.object [] [field "x" (.named "Int"), field "y" (.named "Int")]),
  type "Query" (.object [] [field "first" (.named "First")])]

/-- The definitions make up a schema. -/
theorem build?_isSome : (Sample.build? definitions).isSome = true := by decide +kernel

/-- The schema. -/
def schema : Schema := (Sample.build? definitions).get build?_isSome

/-- The schema is one that was built. -/
theorem built : schema.Built := Sample.built_of_build? (Option.some_get build?_isSome).symm

/-- Every composite type of the schema has a possible type. -/
theorem inhabited : schema.Inhabited := Schema.inhabited_of_keys (by decide +kernel)

/-- The field with the two object types around it. -/
def part (key : Name) : List Selection :=
  [.field none "part" place [.field none key place []]]

/-- The fragment, with one branch for each object type. -/
def fragment : FragmentDefinition where
  location := place
  name := "Parts"
  selections := [.inline (some "First") place (part "x"), .inline (some "Second") place (part "y")]
  condition := "Node"

/-- The operation, which spreads the fragment on the first object type. -/
def operation : OperationDefinition where
  location := place
  kind := .query
  name := none
  selections := [.field none "first" place [.spread "Parts" place]]

/-- The document. -/
def document : Document where
  file := none
  fragments := [fragment]
  operations := [operation]

/-- The operation can be compiled. -/
theorem compile?_isSome : (Sample.compile? schema document operation).isSome = true := by
  decide +kernel

/-- The compiled operation. -/
@[irreducible]
def compiled : Operation := (Sample.compile? schema document operation).get compile?_isSome

/-- Where the compiled operation comes from. -/
theorem compiled_eq : ∃ b b', Builder.new schema document = .ok b ∧
    Builder.buildOperation operation b = .ok compiled b' := by
  unfold compiled
  exact Sample.exists_of_compile? (Option.some_get compile?_isSome).symm

/-- Where the two branches meet. -/
def meeting : Location := ⟨[⟨"first", "First"⟩, ⟨"part", "Part"⟩], .operation none "Query"⟩

/-- The entity has what the second branch selects. -/
theorem exists_field : ∃ e, compiled.entities.find? meeting = some e ∧
    ∃ f ∈ e.fields.values, f.key = "y" := by
  have h : (compiled.entities.find? meeting).any
      (fun e => e.fields.values.any (·.key = "y")) = true := by decide +kernel
  simpa only [Option.any_eq_true, List.any_eq_true, decide_eq_true_eq] using h

/-- The compiled operation is a unit, on the query type. -/
theorem yields : Yields schema document (operation.unit "Query" compiled) := by
  obtain ⟨b, b', hb, ho⟩ := compiled_eq
  have hroot : (schema.root? operation.kind).any (fun type => type.name = "Query") = true := by
    decide +kernel
  obtain ⟨type, ht, hname⟩ := (Option.any_eq_true ..).1 hroot
  rw [← of_decide_eq_true hname]
  exact .operation (.new hb) ht ho

/-- What the second branch selects is not collected below the first object type. -/
theorem not_occurs (o : Name) :
    ¬ Occurs schema document ⟨o, fun s => s = operation.selections⟩ meeting.path "y" := by
  rintro ⟨-, a, ha, -, c, -, g, ⟨_, ⟨g₁, ⟨_, ⟨g₂, ⟨_, rfl, hg₂⟩, -, rfl⟩, hg₁⟩, -, rfl⟩, hg⟩, hk⟩
  cases gathers_field.1 hg₂
  obtain ⟨d, ⟨hd, -⟩, -, hg₁⟩ := gathers_spread.1 hg₁
  cases List.mem_singleton.1 hd
  have hself : schema.Possible "First" "First" := by decide +kernel
  cases (built.coherent.possible_self hself).2 a |>.1 ha
  rcases gathers_cons.1 hg₁ with hg₁ | hg₁
  · obtain ⟨-, hg₁⟩ := gathers_inlineOn.1 hg₁
    cases gathers_field.1 hg₁
    cases gathers_field.1 hg
    exact absurd hk (by decide)
  · obtain ⟨hsecond, -⟩ := gathers_inlineOn.1 hg₁
    have hother : ¬ schema.Possible "Second" "First" := by decide +kernel
    exact hother hsecond

/-- An entity of an operation can have a field that never occurs. -/
theorem field_never_occurs : schema.Built ∧ schema.Inhabited ∧
    ∃ b b' e f, Builder.new schema document = .ok b ∧
      Builder.buildOperation operation b = .ok compiled b' ∧
      compiled.entities.find? meeting = some e ∧ f ∈ e.fields.values ∧
      ∀ o, ¬ Occurs schema document ⟨o, fun s => s = operation.selections⟩ meeting.path f.key := by
  obtain ⟨b, b', hb, ho⟩ := compiled_eq
  obtain ⟨e, he, f, hf, hkey⟩ := exists_field
  exact ⟨built, inhabited, b, b', e, f, hb, ho, he, hf, hkey ▸ not_occurs⟩

/-- The field arises, out of the fragment on its own. -/
theorem field_arises : ∃ e f o, schema.Built ∧ schema.Inhabited ∧
    Yields schema document (operation.unit "Query" compiled) ∧
    compiled.entities.find? meeting = some e ∧ f ∈ e.fields.values ∧ f.key = "y" ∧
    schema.Possible "Query" o ∧
    Arises schema document ⟨o, fun s => s = operation.selections⟩ meeting.path f.key := by
  obtain ⟨e, he, f, hf, hkey⟩ := exists_field
  obtain ⟨o, hpossible, harises, -⟩ := yields.arises built inhabited he hf
  exact ⟨e, f, o, built, inhabited, yields, he, hf, hkey, hpossible, harises⟩

end Branches

end EntityGraph
