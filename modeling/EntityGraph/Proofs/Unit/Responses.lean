import EntityGraph.Proofs.Unit.Shape

/-!
# Nothing that a response can have is missing

A response is followed down a path: at each position there is an object type and the selection sets
that are merged there, and one goes on through the response key of a collected field, to an object
type that the field can have (`Executes`). The entities of a unit are followed at the same time,
through the one field with the response key that covers the object type (`Follows`). Main statement:
`Yields.response_covered`, the entity that is reached covers every field that is collected.

Entities are described by how far down they serve selections (`Serves`, by the number of steps). A
unit serves its own selections to any depth (`Yields.serves`): copies serve what their source serves
(`Copies.serves`), and a walk serves the selections that it enters (`Visits.serves`). What is
collected for the object type of a position may have been selected on an interface, where the field
has another type than on the object type; that is where objects have to have the fields of their
interfaces (`Schema.Implemented`).
-/

namespace EntityGraph

open Conditions (Cover)

/-! ## Responses -/

section
variable (schema : Schema) (document : Document)

/-- The named type `own` may stand where an interface says `expected`: it is the same, or a
composite one whose possible types are all possible types of that. -/
def Schema.MayStandFor (own expected : Name) : Prop :=
  own = expected ∨ schema.Composite own ∧ schema.Within own expected

/-- Every object type has the fields of the interfaces that it says it implements, with a named type
that may stand for that of the interface. -/
def Schema.Implemented : Prop :=
  ∀ object ∈ schema.objects, ∀ i ∈ object.interfaceNames, ∀ interface,
    schema.types.find? i = some (.interface interface) →
    ∀ name field, interface.field? name = some field →
      ∃ own, object.field? name = some own ∧
        schema.MayStandFor own.type.innermostName field.type.innermostName

instance {own expected : Name} : Decidable (schema.MayStandFor own expected) :=
  inferInstanceAs (Decidable (_ ∨ _ ∧ _))

/-- Whether every object type has the fields of its interfaces. -/
def Schema.isImplemented : Bool :=
  schema.objects.all fun object => object.interfaceNames.all fun i =>
    match schema.types.find? i with
    | some (.interface interface) => interface.fields.entries.all fun (name, field) =>
        (object.field? name).any fun own =>
          decide (schema.MayStandFor own.type.innermostName field.type.innermostName)
    | _ => true

/-- The check decides whether every object type has the fields of its interfaces. -/
theorem Schema.isImplemented_iff : schema.isImplemented = true ↔ schema.Implemented := by
  unfold Schema.isImplemented Schema.Implemented
  simp only [List.all_eq_true]
  refine forall₂_congr fun object _ => forall₂_congr fun i _ => ?_
  split
  · next interface hi =>
    simp only [hi, Option.some.injEq, NamedType.interface.injEq, forall_eq', List.all_eq_true,
      Option.any_eq_true, decide_eq_true_eq, Prod.forall, FieldedType.field?,
      Dict.find?_eq_some_iff]
  · next hi => simpa using fun interface h => absurd h (hi interface)

instance : Decidable schema.Implemented := decidable_of_iff _ schema.isImplemented_iff

/-- A position in a response: the object type there, and the selection sets that are merged. -/
structure Position where
  object : Name
  selections : List Selection → Prop

namespace Position

/-- The field is collected at the position. -/
def Collects (p : Position) (g : FieldSelection) : Prop :=
  ∃ selections, p.selections selections ∧ Gathers schema document p.object selections g

/-- The response may have an object of type `o` under the key `k`: some field with that key is
collected, and `o` is a possible type of the field's type on the object type of the position. -/
def Allows (p : Position) (k o : Name) : Prop :=
  ∃ g type, p.Collects schema document g ∧ g.key = k ∧
    schema.fieldType? p.object g.name = some type ∧ schema.Possible type.innermostName o

/-- The position of an object of type `o` under the key `k`: all collected fields with that key are
merged. -/
def step (p : Position) (k o : Name) : Position where
  object := o
  selections selections :=
    ∃ g, p.Collects schema document g ∧ g.key = k ∧ selections = g.selections

end Position

/-- From the position `p` the path leads to the position `q`. A path is a list of response keys,
each with the object type of the value that it leads to. -/
inductive Executes : Position → List (Name × Name) → Position → Prop
  | here {p : Position} : Executes p [] p
  | field {p q : Position} {k o : Name} {path : List (Name × Name)} :
      p.Allows schema document k o → Executes (p.step schema document k o) path q →
      Executes p ((k, o) :: path) q

/-- From the entity at `l`, for the object type `o` there, fields that cover the object types of the
path lead to the entity at `l'`. -/
inductive Follows (entities : Storage) :
    Location → Name → List (Name × Name) → Location → Prop
  | here {l : Location} {o : Name} : Follows entities l o [] l
  | field {l l₁ l' : Location} {o k o₁ : Name} {path : List (Name × Name)} {e : Entity}
      {f : EntityField} :
      entities.find? l = some e → f ∈ e.fields.values → f.key = k →
      Cover schema f.conditions o → f.child = some l₁ → Follows entities l₁ o₁ path l' →
      Follows entities l o ((k, o₁) :: path) l'

/-- The entity at `l` has a field for the collected field `g`, in responses of the object type `o`,
and what the field leads to satisfies `next`. The type of the field is the one that it has on some
condition that the object type satisfies. -/
def Storage.Provides (entities : Storage) (next : Location → Name → List Selection → Prop)
    (l : Location) (o : Name) (g : FieldSelection) : Prop :=
  ∃ type f c, entities.field? l ⟨g.key, type⟩ = some f ∧ Cover schema f.conditions o ∧
    schema.Possible c o ∧ schema.fieldType? c g.name = some type ∧
    ∀ o', schema.Possible type.innermostName o' →
      next (l.append g.key type.innermostName) o' g.selections

/-- The entity at `l` has the fields that are collected from the selections for the object type `o`,
and so on with what they lead to, `n` steps down. -/
def Serves (entities : Storage) : (n : Nat) → Location → Name → List Selection → Prop
  | 0, _, _, _ => True
  | n + 1, l, o, selections => ∀ g, Gathers schema document o selections g →
    entities.Provides schema (Serves entities n) l o g

end

section
variable {schema : Schema} {document : Document} {base location target source : Location}
  {w w₁ w' w'' : Workpiece} {o condition : Name} {selections : List Selection} {n : Nat}
  {g : FieldSelection}

/-- What is provided is provided when the unit has grown. -/
theorem Storage.Provides.mono {next next' : Location → Name → List Selection → Prop}
    (hg : Grows schema base w w')
    (hnext : ∀ l o selections, next l o selections → next' l o selections)
    (h : w.entities.Provides schema next location o g) :
    w'.entities.Provides schema next' location o g := by
  obtain ⟨type, f, c, hf, ho, hc, ht, hchild⟩ := h
  obtain ⟨f', hf', hcover⟩ := hg.fields _ _ f hf
  exact ⟨type, f', c, hf', hcover o ho, hc, ht, fun o' ho' => hnext _ _ _ (hchild o' ho')⟩

/-- What is served is served when the unit has grown. -/
theorem Serves.mono (hg : Grows schema base w w') {l : Location}
    (h : Serves schema document w.entities n l o selections) :
    Serves schema document w'.entities n l o selections := by
  induction n generalizing l o selections with
  | zero => trivial
  | succ n ih => exact fun g hgather => (h g hgather).mono hg fun _ _ _ => ih

/-- A field that is merged is provided for what it covers, if it leads where it should. -/
theorem Merges.provides {next : Location → Name → List Selection → Prop} {f : EntityField}
    {c : Name} (hm : Merges schema location f w w') (hk : f.key = g.key)
    (ho : Cover schema f.conditions o) (hc : schema.Possible c o)
    (ht : schema.fieldType? c g.name = some f.type)
    (hnext : ∀ o', schema.Possible f.type.innermostName o' →
      next (location.append g.key f.type.innermostName) o' g.selections) :
    w'.entities.Provides schema next location o g := by
  obtain ⟨m, hmf, hmc⟩ := hm.field
  rw [EntityField.fieldKey, hk] at hmf
  exact ⟨f.type, m, c, hmf, hmc o ho, hc, ht, hnext⟩

/-! ## Copying -/

/-- The field that provides for `g` at the source, once it is copied, provides for it at the target,
if the copies of what it leads to serve what they should. -/
theorem CopiesField.provides (hs : schema.Coherent)
    {nested : (target source : Location) → Name → Workpiece → Workpiece → Prop}
    {f : EntityField} (hf : f.Fits schema source) (ho : schema.Possible condition o)
    (hcover : Cover schema f.conditions o) (hk : f.key = g.key) {c : Name}
    (hc : schema.Possible c o) (ht : schema.fieldType? c g.name = some f.type)
    (hn : ∀ o' w w', schema.Possible f.type.innermostName o' →
      nested (target.append g.key f.type.innermostName)
        (source.append g.key f.type.innermostName) f.type.innermostName w w' →
      Serves schema document w'.entities n (target.append g.key f.type.innermostName) o'
        g.selections)
    (h : CopiesField schema nested target condition f w w') :
    w'.entities.Provides schema (Serves schema document w'.entities n) target o g := by
  have hnarrow : ∀ cs, LookupM.Gives (narrowConditions f.conditions.toList condition :
      LookupM schema LookupError _) cs → Cover schema cs o :=
    fun cs hcs => ((narrowConditions_gives hs hf.composite hcs).cover o).2 ⟨hcover, ho⟩
  cases h with
  | skip hcs hempty =>
    obtain ⟨c', hc', -⟩ := hnarrow _ hcs
    exact absurd (List.isEmpty_iff.1 hempty) (List.ne_nil_of_mem (OrderedSet.mem_toList.2 hc'))
  | leaf hcs _ hchild hm =>
    refine hm.provides hk (hnarrow _ hcs) hc ht fun o' ho' => ?_
    rw [hf.child, Schema.handle?_eq_none_iff] at hchild
    exact absurd ho'.composite hchild
  | node hcs _ hchild hnested hm =>
    refine hm.provides hk (hnarrow _ hcs) hc ht fun o' ho' => ?_
    rw [hf.child, Schema.handle?_eq_some_iff] at hchild
    obtain ⟨-, rfl⟩ := hchild
    rw [Location.typeName_append] at hnested
    rw [EntityField.fieldKey, hk] at hnested
    exact (hn o' _ _ ho' hnested).mono hm.grows

/-- A copy serves what its source serves, for the object types that satisfy the condition. -/
theorem Copies.serves (hs : schema.Coherent) {fragment : Fragment}
    (hF : fragment.unit.Formed schema) {depth : Nat} (hr : fragment.Ready depth source)
    (h : Copies schema fragment depth target source condition w w')
    (ho : schema.Possible condition o)
    (hserve : Serves schema document fragment.entities n source o selections) :
    Serves schema document w'.entities n target o selections := by
  induction depth generalizing target source condition w w' o selections n with
  | zero => exact absurd rfl (hr.ne_zero hF)
  | succ depth ih =>
    cases n with
    | zero => trivial
    | succ n =>
      intro g hgather
      obtain ⟨type, f, c, hf, hcover, hc, ht, hnext⟩ := hserve g hgather
      obtain ⟨e, he, hkey⟩ := Storage.field?_eq_some_iff.1 hf
      have hform := hF.formed.entities source e he
      have hfits := hform.fits _ f hkey
      have hk : f.key = g.key := congrArg FieldKey.key (hform.keyed _ f hkey)
      cases (congrArg FieldKey.type (hform.keyed _ f hkey) : f.type = type)
      unfold Copies at h
      rw [he] at h
      obtain ⟨before, after, w₁, w₂, -, -, hcopy, hrest⟩ :=
        h.split (Dict.mem_values_iff.2 ⟨_, hkey⟩)
      have hgrow : Grows schema target w₂ w' :=
        hrest.grows fun _ _ _ _ h => h.grows fun _ _ _ _ _ => Copies.grows
      refine (hcopy.provides hs hfits ho hcover hk hc ht ?_).mono hgrow fun _ _ _ h => h.mono hgrow
      intro o' u u' ho' hnested
      have hchild : f.child = some (source.append f.key f.type.innermostName) := by
        rw [hfits.child, Schema.handle?_eq_some_iff]
        exact ⟨ho'.composite, rfl⟩
      have hready := (hr.child hF hf hchild).1
      rw [hk] at hready
      exact ih hready hnested ho' (hnext o' ho')

/-! ## Visiting -/

variable {G : Name → Fragment → Prop}

/-- What is known of a fragment that answers a spread: it is the one that is defined, and it serves
its own selections. -/
structure Fragment.Serving (schema : Schema) (document : Document) (name : Name)
    (fragment : Fragment) : Prop where
  defines : ∀ d, document.Defines name d ↔ d = fragment.definition
  formed : fragment.unit.Formed schema
  serves : ∀ n o, schema.Possible fragment.definition.condition o →
    Serves schema document fragment.entities n fragment.rootLocation o
      fragment.definition.selections

/-- What is collected from a normal selection is provided once the selection is entered. -/
theorem VisitsSelection.provides (hs : schema.Coherent)
    (hG : ∀ name fragment, G name fragment → fragment.Serving schema document name)
    {nested : Location → Name → List Selection → Workpiece → Workpiece → Prop}
    {s : NormalSelection} (hi : s.Inside schema condition) {height : Nat} (hl : s.Lower height)
    (hn : ∀ location type inner o w w', Selection.heightAll inner < height →
      schema.Possible type o → nested location type inner w w' →
      Serves schema document w'.entities n location o inner)
    (hcon : s.Contributes schema document o g)
    (h : VisitsSelection schema G nested location s w w') :
    w'.entities.Provides schema (Serves schema document w'.entities n) location o g := by
  cases h with
  | leaf hd ht hleaf hm =>
    obtain ⟨ho, rfl⟩ := hcon
    refine hm.provides rfl ⟨_, .head _, ho⟩ ho hd fun o' ho' => ?_
    exact absurd ho'.composite (Schema.not_composite ht hleaf)
  | node hd ht _ hv hm =>
    obtain ⟨ho, rfl⟩ := hcon
    refine hm.provides rfl ⟨_, .head _, ho⟩ ho hd fun o' ho' => ?_
    rw [hs.named _ _ ht] at hv
    exact (hn _ _ _ o' _ _ hl ho' hv).mono hm.grows
  | @spread name c place fragment cs _ _ hg hcs hcopies =>
    obtain ⟨ho, d, hd, hod, hgather⟩ := hcon
    have hF := hG name fragment hg
    cases (hF.defines d).1 hd
    have hm := LookupM.intersect_gives hs hi.1 hcs
    obtain ⟨c', hc', ho'⟩ := (hm.possible o).2 ⟨ho, hod⟩
    obtain ⟨_, _, w₁, w₂, -, -, hcopy, hrest⟩ := hcopies.split hc'
    have hserve := hcopy.serves hs hF.formed hF.formed.ready ho' (hF.serves (n + 1) o hod)
    have hgrow : Grows schema location w₂ w' := hrest.grows fun _ _ _ _ h => h.grows
    exact (hserve g hgather).mono hgrow fun _ _ _ h => h.mono hgrow
  | unreachable => exact hcon.elim

/-- A walk serves the selections that it enters, for the object types that satisfy its condition. -/
theorem Visits.serves (hs : schema.Coherent)
    (hG : ∀ name fragment, G name fragment → fragment.Serving schema document name)
    {height : Nat} (hh : Selection.heightAll selections ≤ height)
    (ho : schema.Possible condition o)
    (h : Visits schema G height location condition selections w w') :
    Serves schema document w'.entities n location o selections := by
  induction height generalizing location condition selections w w' o n with
  | zero =>
    cases n with
    | zero => trivial
    | succ n =>
      intro g hgather
      cases Selection.eq_nil_of_heightAll (Nat.le_zero.1 hh)
      exact absurd hgather not_gathers_nil
  | succ height ih =>
    cases n with
    | zero => trivial
    | succ n =>
      intro g hgather
      obtain ⟨normal, hnormal, hchain⟩ := h
      have hnorm : Normal schema document condition selections normal :=
        Selection.normalizeAll_normal hs selections ho.composite hnormal
      obtain ⟨s, hmem, hcon⟩ := (hnorm.gathers o g ho).1 hgather
      obtain ⟨before, after, w₁, w₂, -, -, hvisit, hrest⟩ := hchain.split hmem
      have hgrow : Grows schema location w₂ w' :=
        hrest.grows fun _ _ _ _ h => h.grows fun _ _ _ _ _ => Visits.grows
      have hprovides : w₂.entities.Provides schema (Serves schema document w₂.entities n)
          location o g := by
        refine hvisit.provides hs hG (hnorm.inside s hmem) ((hnorm.lower s hmem).mono hh) ?_ hcon
        intro location type inner o w w' hlower ho h
        exact ih (Nat.lt_succ_iff.1 hlower) ho h
      exact hprovides.mono hgrow fun _ _ _ h => h.mono hgrow

end

/-! ## Units -/

section
variable {schema : Schema} {document : Document} {u : CompiledUnit}

/-- A unit that is well-formed and serves its own selections to any depth. -/
structure CompiledUnit.Serving (schema : Schema) (document : Document) (u : CompiledUnit) :
    Prop where
  formed : u.Formed schema
  serves : ∀ n o, schema.Possible u.rootType o →
    Serves schema document u.entities n u.root o u.selections

/-- A unit serves its selections if the fragments that it spreads do. -/
theorem Walked.serves (hs : schema.Coherent)
    (h : Walked schema document (CompiledUnit.Serving schema document) u) :
    u.Serving schema document := by
  refine ⟨h.formed hs fun _ h => h.formed, fun n o ho => ?_⟩
  refine h.visits.serves hs (fun name fragment hg => ?_) (Nat.le_refl _) ho
  exact ⟨hg.1, hg.2.formed, hg.2.serves⟩

/-- Every unit serves its selections. -/
theorem Yields.serves (hs : schema.Coherent) (h : Yields schema document u) :
    u.Serving schema document :=
  h.induction hs fun _ hw => hw.serves hs

/-! ## Paths -/

/-- On an object type a field that is selected on a condition has a type whose objects the selected
one has, too. -/
theorem Schema.Implemented.possible (hi : schema.Implemented) (hs : schema.Coherent)
    {c o name o' : Name} {type own : DeclaredType} (hc : schema.Possible c o)
    (ht : schema.fieldType? c name = some type) (hown : schema.fieldType? o name = some own)
    (ho : schema.Possible own.innermostName o') : schema.Possible type.innermostName o' := by
  unfold Schema.fieldType? at ht hown
  split at ht
  · next hname =>
    rw [if_pos hname] at hown
    cases ht
    cases hown
    exact ho
  · next hname =>
    rw [if_neg hname] at hown
    obtain ⟨ct, hct, hcomp⟩ := hc.composite
    rw [hct] at ht
    cases ct with
    | object t =>
      cases (Schema.possible_object hct).1 hc
      rw [hct] at hown
      cases ht.symm.trans hown
      exact ho
    | interface t =>
      obtain ⟨object, hobject, himp, rfl⟩ := (Schema.possible_interface hct).1 hc
      have hfind := hs.find?_object hobject
      have hname' : t.name = c := hs.named c _ hct
      rw [hfind] at hown
      obtain ⟨field, hfield, rfl⟩ := Option.map_eq_some_iff.1 ht
      obtain ⟨field', hfield', rfl⟩ := Option.map_eq_some_iff.1 hown
      have hmem : c ∈ object.interfaceNames := by
        simpa [FieldedType.implements, hname'] using himp
      obtain ⟨own, hown', htype⟩ := hi object hobject c hmem t hct name field hfield
      cases hown'.symm.trans hfield'
      rcases htype with heq | ⟨-, hwithin⟩
      · exact heq ▸ ho
      · exact hwithin o' ho
    | union t => cases ht
    | enum | inputObject | scalar => cases hcomp

/-- What is known of the entity at `l` when a response is at the position `p`. -/
structure Position.At (schema : Schema) (document : Document) (entities : Storage) (p : Position)
    (l : Location) : Prop where
  mem : l ∈ entities.keys
  possible : schema.Possible l.typeName p.object
  serves : ∀ selections, p.selections selections →
    ∀ n, Serves schema document entities n l p.object selections

variable {p q : Position} {l : Location}

/-- A collected field is covered by exactly one field of the entity. -/
theorem Position.At.field (hu : u.Formed schema) (h : p.At schema document u.entities l)
    {g : FieldSelection} (hg : p.Collects schema document g) {e : Entity}
    (he : u.entities.find? l = some e) :
    ∃ f ∈ e.fields.values, f.key = g.key ∧ Cover schema f.conditions p.object ∧
      (∃ c, schema.Possible c p.object ∧ schema.fieldType? c g.name = some f.type) ∧
      ∀ f' ∈ e.fields.values, f'.key = g.key → Cover schema f'.conditions p.object → f' = f := by
  obtain ⟨selections, hsel, hgather⟩ := hg
  obtain ⟨type, f, c, hf, hcover, hc, ht, -⟩ := h.serves selections hsel 1 g hgather
  obtain ⟨e', he', hkey⟩ := Storage.field?_eq_some_iff.1 hf
  cases he.symm.trans he'
  have hform := hu.formed.entities l e he
  have hmem := Dict.mem_values_iff.2 ⟨_, hkey⟩
  have hk : f.key = g.key := congrArg FieldKey.key (hform.keyed _ f hkey)
  have htype : f.type = type := congrArg FieldKey.type (hform.keyed _ f hkey)
  refine ⟨f, hmem, hk, hcover, ⟨c, hc, htype ▸ ht⟩, fun f' hf' hk' hcover' => ?_⟩
  exact hform.shaped.single f' hf' f hmem (hk'.trans hk.symm) p.object hcover' hcover

/-- One step of a response is a step to one entity. -/
theorem Position.At.step (hi : schema.Implemented) (hs : schema.Coherent) (hu : u.Formed schema)
    (h : p.At schema document u.entities l) {k o : Name} (ha : p.Allows schema document k o) :
    ∃ e f l₁, u.entities.find? l = some e ∧ f ∈ e.fields.values ∧ f.key = k ∧
      Cover schema f.conditions p.object ∧ f.child = some l₁ ∧
      (p.step schema document k o).At schema document u.entities l₁ := by
  obtain ⟨g, own, ⟨selections, hsel, hgather⟩, rfl, hown, ho⟩ := ha
  obtain ⟨type, f, c, hf, hcover, hc, ht, -⟩ := h.serves selections hsel 1 g hgather
  have ho' := hi.possible hs hc ht hown ho
  obtain ⟨e, he, hkey⟩ := Storage.field?_eq_some_iff.1 hf
  have hform := hu.formed.entities l e he
  have hfk := hform.keyed _ f hkey
  have hchild : f.child = some (l.append g.key type.innermostName) := by
    rw [(hform.fits _ f hkey).child, hfk, Schema.handle?_eq_some_iff]
    exact ⟨ho'.composite, rfl⟩
  refine ⟨e, f, _, he, Dict.mem_values_iff.2 ⟨_, hkey⟩, congrArg FieldKey.key hfk, hcover, hchild,
    hu.formed.handles l _ f _ hf hchild, ?_, ?_⟩
  · rw [Location.typeName_append]
    exact ho'
  -- another collected field with the same key has the same type, since both cover the object type
  · rintro selections' ⟨g', ⟨selections'', hsel', hgather'⟩, hkey', rfl⟩ n
    obtain ⟨type', f', c', hf', hcover', -, -, hnext⟩ :=
      h.serves selections'' hsel' (n + 1) g' hgather'
    obtain ⟨e', he', hfind'⟩ := Storage.field?_eq_some_iff.1 hf'
    cases he.symm.trans he'
    have hsame := (hform.eq_of_cover hkey hfind' hkey'.symm hcover hcover').1
    cases congrArg FieldKey.type hsame
    rw [← hkey']
    exact hnext o ho'

/-- Along a path of a response exactly one way leads through the entities. -/
theorem Executes.follows (hi : schema.Implemented) (hs : schema.Coherent) (hu : u.Formed schema)
    {path : List (Name × Name)} (h : Executes schema document p path q)
    (hp : p.At schema document u.entities l) :
    ∃ l', Follows schema u.entities l p.object path l' ∧
      (∀ l'', Follows schema u.entities l p.object path l'' → l'' = l') ∧
      q.At schema document u.entities l' := by
  induction h generalizing l with
  | here => exact ⟨l, .here, fun l'' h => by cases h; rfl, hp⟩
  | @field p q k o path ha _ ih =>
    obtain ⟨e, f, l₁, he, hf, hk, hcover, hchild, hat⟩ := hp.step hi hs hu ha
    obtain ⟨l', hfollows, hunique, hq⟩ := ih hat
    refine ⟨l', .field he hf hk hcover hchild hfollows, fun l'' h => ?_, hq⟩
    cases h with
    | field he' hf' hk' hcover' hchild' h =>
      cases he.symm.trans he'
      have hform := hu.formed.entities l e he
      cases hform.shaped.single _ hf' _ hf (hk'.trans hk.symm) p.object hcover' hcover
      cases hchild.symm.trans hchild'
      exact hunique l'' h

end

/-- Along every path of a response there is exactly one way through the entities of the unit, and
the entity at its end covers every field that is collected there, by exactly one field each, with
the type that the collected field has on a condition that the object type satisfies. -/
theorem Yields.response_covered {schema : Schema} {document : Document} {u : CompiledUnit}
    (hs : schema.Built) (hi : schema.Implemented) (h : Yields schema document u) {o : Name}
    (ho : schema.Possible u.rootType o) {path : List (Name × Name)} {q : Position}
    (hpath : Executes schema document ⟨o, fun selections => selections = u.selections⟩ path q) :
    ∃ l e, Follows schema u.entities u.root o path l ∧
      (∀ l', Follows schema u.entities u.root o path l' → l' = l) ∧
      u.entities.find? l = some e ∧ schema.Possible e.rootType q.object ∧
      ∀ g, q.Collects schema document g →
        ∃ f ∈ e.fields.values, f.key = g.key ∧ (∃ c ∈ f.conditions, schema.Possible c q.object) ∧
          (∃ c, schema.Possible c q.object ∧ schema.fieldType? c g.name = some f.type) ∧
          ∀ f' ∈ e.fields.values, f'.key = g.key →
            (∃ c ∈ f'.conditions, schema.Possible c q.object) → f' = f := by
  have hu := h.serves hs.coherent
  have hstart : Position.At schema document u.entities
      ⟨o, fun selections => selections = u.selections⟩ u.root := by
    refine ⟨hu.formed.mem, ?_, fun selections hsel n => ?_⟩
    · rw [hu.formed.root]
      exact ho
    · cases hsel
      exact hu.serves n o ho
  obtain ⟨l, hfollows, hunique, hat⟩ := hpath.follows hi hs.coherent hu.formed hstart
  obtain ⟨e, he⟩ := Dict.mem_keys_iff.1 hat.mem
  refine ⟨l, e, hfollows, hunique, he, ?_, fun g hg => hat.field hu.formed hg he⟩
  rw [(hu.formed.formed.entities l e he).rootType]
  exact hat.possible

namespace Sample

/-- Where responses to the small operation start. -/
def start : Position := ⟨"Query", fun selections => selections = unit.selections⟩

/-- The position of the node. -/
def node : Position := start.step schema document "node" "Leaf"

/-- The position after the node. -/
def next : Position := node.step schema document "next" "Leaf"

/-- The node is collected at the start. -/
theorem collects_node : start.Collects schema document ⟨none, "node", place, inner⟩ :=
  ⟨_, rfl, gathers_node⟩

/-- What follows a node is collected there. -/
theorem collects_next : node.Collects schema document ⟨none, "next", place, leaf⟩ :=
  ⟨inner, ⟨_, collects_node, rfl, rfl⟩, .field (.head _)⟩

/-- And so is the one field on it. -/
theorem collects_id : next.Collects schema document ⟨none, "id", place, []⟩ :=
  ⟨leaf, ⟨_, collects_next, rfl, rfl⟩, .field (.head _)⟩

/-- A response may have two nodes, one after the other. -/
theorem executes : Executes schema document start [("node", "Leaf"), ("next", "Leaf")] next := by
  have hnode : schema.fieldType? "Query" "node" = some (.named "Node" true) := by decide +kernel
  have hnext : schema.fieldType? "Leaf" "next" = some (.named "Leaf" true) := by decide +kernel
  refine .field ⟨_, _, collects_node, rfl, hnode, ?_⟩
    (.field ⟨_, _, collects_next, rfl, hnext, ?_⟩ .here)
  · decide +kernel
  · decide +kernel

/-- The path goes through a field that is selected on the interface, where its type is wider than on
the object type. -/
theorem unit_response_covered :
    ∃ l e, Follows schema unit.entities unit.root "Query" [("node", "Leaf"), ("next", "Leaf")] l ∧
      unit.entities.find? l = some e ∧
      ∃ f ∈ e.fields.values, f.key = "id" ∧ ∃ c ∈ f.conditions, schema.Possible c "Leaf" := by
  have ho : schema.Possible unit.rootType "Query" := by decide +kernel
  have hi : schema.Implemented := by decide +kernel
  obtain ⟨l, e, hfollows, -, he, -, hcover⟩ :=
    Yields.response_covered built hi yields ho executes
  obtain ⟨f, hf, hk, hc, -⟩ := hcover _ collects_id
  exact ⟨l, e, hfollows, he, f, hf, hk, hc⟩

end Sample

end EntityGraph
