import EntityGraph.Proofs.Walk.Outcomes

/-!
# What a successful walk does to a unit

A walk over selections asks questions, reports, resolves spreads and may fail. What a walk that
succeeds has done to its compilation unit is described here without all that, as relations between
the unit before and the unit after: `Merges` for one field, `Copies` for a fragment, `Visits` for
selections. They follow the functions step by step and keep their bounds. A spread is answered by
any fragment that `G` allows for its name. Main statements: `copyWithin_does` and
`visitWithin_does`, a walk that succeeds is such a step, as soon as names are resolved to what `G`
allows.
-/

namespace EntityGraph

open LookupM (Gives)

/-! ## Changes of a unit -/

namespace Workpiece

/-- The entity at a location, as it is or as it would be created. -/
def entity (w : Workpiece) (l : Location) : Entity := (w.entities.find? l).getD (.new l)

/-- Puts an entity at a location. -/
def put (w : Workpiece) (l : Location) (e : Entity) : Workpiece :=
  { w with entities := w.entities.insert l e }

/-- Notes the use of a fragment and of the fragments that it uses itself. -/
def refer (w : Workpiece) (fragment : Fragment) : Workpiece :=
  { w with
    referenced := ((fragment.name, fragment.id) :: fragment.referenced.entries).foldl
      (fun known (name, id) => if known.contains name then known else known.insert name id)
      w.referenced }

@[simp] theorem entities_refer (w : Workpiece) (fragment : Fragment) :
    (w.refer fragment).entities = w.entities := rfl

/-- The names of the fragments that a unit references, in order. -/
def noted (w : Workpiece) : OrderedSet Name := ⟨w.referenced.keys, w.referenced.nodup_keys⟩

/-- Putting an entity somewhere notes nothing. -/
@[simp] theorem noted_put (w : Workpiece) (l : Location) (e : Entity) :
    (w.put l e).noted = w.noted := rfl

/-- A fragment is noted, and then what it notes itself. -/
theorem noted_refer (w : Workpiece) (fragment : Fragment) :
    (w.refer fragment).noted =
      w.noted.insertAll (fragment.name :: fragment.referenced.keys) := by
  have hfold : ∀ (l : List (Name × FragmentId)) (known : Dict Name FragmentId)
      (names : OrderedSet Name), known.keys = names.toList →
      (l.foldl (fun known (name, id) =>
        if known.contains name then known else known.insert name id) known).keys =
        (names.insertAll (l.map Prod.fst)).toList := by
    intro l
    induction l with
    | nil => exact fun _ _ h => h
    | cons e l ih =>
      intro known names hk
      obtain ⟨name, id⟩ := e
      refine ih _ (names.insert name) ?_
      have hmem : known.contains name ↔ name ∈ names := by
        rw [Dict.contains_iff, hk, OrderedSet.mem_toList]
      dsimp only
      rw [OrderedSet.toList_insert]
      by_cases hm : name ∈ names
      · rw [if_pos hm, if_pos (hmem.2 hm), hk]
      · rw [if_neg hm, if_neg fun h => hm (hmem.1 h), Dict.keys_insert, hk,
          if_neg fun h => hm (OrderedSet.mem_toList.1 h)]
  exact OrderedSet.ext (hfold _ _ w.noted rfl)

/-- Noting a fragment notes its name and the names that it notes itself. -/
theorem mem_keys_refer {w : Workpiece} {fragment : Fragment} {name : Name} :
    name ∈ (w.refer fragment).referenced.keys ↔
      name ∈ w.referenced.keys ∨ name = fragment.name ∨ name ∈ fragment.referenced.keys := by
  show name ∈ (w.refer fragment).noted ↔ name ∈ w.noted ∨ _
  rw [noted_refer, OrderedSet.mem_insertAll, List.mem_cons]

theorem find?_put (w : Workpiece) (l l' : Location) (e : Entity) :
    (w.put l e).entities.find? l' = if l' = l then some e else w.entities.find? l' :=
  Dict.find?_insert ..

theorem entity_put (w : Workpiece) (l l' : Location) (e : Entity) :
    (w.put l e).entity l' = if l' = l then e else w.entity l' := by
  unfold entity
  rw [find?_put]
  split <;> rfl

@[simp] theorem put_put (w : Workpiece) (l : Location) (e e' : Entity) :
    (w.put l e).put l e' = w.put l e' := by
  simp [put]

/-- What is there stays as it is when it is put back. -/
theorem put_entity {w : Workpiece} {l : Location} {e : Entity} (h : w.entities.find? l = some e) :
    w.put l (w.entity l) = w := by
  simp [put, entity, h, Dict.insert_of_find? h]

end Workpiece

/-- The declared type of a field that is selected on the type `c`. -/
def Schema.fieldType? (schema : Schema) (c name : Name) : Option DeclaredType :=
  if name = typenameField then some typenameType
  else ((schema.types.find? c).bind (·.selectableField? name)).map (·.type)

section
variable (schema : Schema)

/-- The field `f` was merged into the entity at `l`. -/
def Merges (l : Location) (f : EntityField) (w w' : Workpiece) : Prop :=
  ∃ m, Entity.Merge schema (w.entity l) f m ∧
    w' = w.put l { w.entity l with fields := (w.entity l).fields.insert f.fieldKey m }

/-! ## Copying -/

/-- What is left of some conditions when each of them is narrowed to `condition`. -/
structure Restricted (conditions : List Name) (condition : Name) (narrowed : OrderedSet Name) :
    Prop where
  composite : ∀ c ∈ narrowed, schema.Composite c
  within : ∀ c ∈ narrowed, schema.Within c condition
  cover : ∀ o, Conditions.Cover schema narrowed o ↔
    (∃ c ∈ conditions, schema.Possible c o) ∧ schema.Possible condition o

/-- The field `f` was copied to the entity at `target`, or left out. -/
inductive CopiesField (nested : (target source : Location) → Name → Workpiece → Workpiece → Prop)
    (target : Location) (condition : Name) : EntityField → Workpiece → Workpiece → Prop
  | skip {f : EntityField} {w : Workpiece} {cs : OrderedSet Name} :
      Gives (narrowConditions f.conditions.toList condition : LookupM schema LookupError _) cs →
      cs.isEmpty = true → CopiesField nested target condition f w w
  | leaf {f : EntityField} {w w' : Workpiece} {cs : OrderedSet Name} :
      Gives (narrowConditions f.conditions.toList condition : LookupM schema LookupError _) cs →
      cs.isEmpty = false → f.child = none →
      Merges schema target { f with child := none, conditions := cs } w w' →
      CopiesField nested target condition f w w'
  | node {f : EntityField} {w w₁ w' : Workpiece} {cs : OrderedSet Name} {source : Location} :
      Gives (narrowConditions f.conditions.toList condition : LookupM schema LookupError _) cs →
      cs.isEmpty = false → f.child = some source →
      nested (target.append f.key source.typeName) source source.typeName w w₁ →
      Merges schema target
        { f with child := some (target.append f.key source.typeName), conditions := cs } w₁ w' →
      CopiesField nested target condition f w w'

/-- The entity at `source` of a fragment was copied to `target`, at most `depth` levels down. -/
def Copies (fragment : Fragment) :
    (depth : Nat) → (target source : Location) → Name → Workpiece → Workpiece → Prop
  | 0, _, _, _, w, w' => w' = w
  | depth + 1, target, source, condition, w, w' =>
    match fragment.entities.find? source with
    | none => w' = w
    | some entity =>
      Chain (CopiesField schema (Copies fragment depth) target condition) entity.fields.values
        (w.put target { w.entity target with
          mergedFragments := ((w.entity target).mergedFragments.insert fragment.name).insertAll
            entity.mergedFragments.toList }) w'

/-! ## Visiting -/

/-- A normal selection was entered at `location`. -/
inductive VisitsSelection (G : Name → Fragment → Prop)
    (nested : Location → Name → List Selection → Workpiece → Workpiece → Prop)
    (location : Location) : NormalSelection → Workpiece → Workpiece → Prop
  | leaf {aliasName : Option Name} {name condition : Name} {place : SourceLocation}
      {declared : DeclaredType} {type : NamedType} {w w' : Workpiece} :
      schema.fieldType? condition name = some declared →
      schema.types.find? declared.innermostName = some type → type.isComposite = false →
      Merges schema location
        (.single (responseKey aliasName name) name declared none condition) w w' →
      VisitsSelection G nested location (.field aliasName name place [] condition) w w'
  | node {aliasName : Option Name} {name condition : Name} {place : SourceLocation}
      {selections : List Selection} {declared : DeclaredType} {type : NamedType}
      {w w₁ w' : Workpiece} :
      schema.fieldType? condition name = some declared →
      schema.types.find? declared.innermostName = some type → type.isComposite = true →
      nested (location.append (responseKey aliasName name) type.name) type.name selections w w₁ →
      Merges schema location
        (.single (responseKey aliasName name) name declared
          (some (location.append (responseKey aliasName name) type.name)) condition) w₁ w' →
      VisitsSelection G nested location (.field aliasName name place selections condition) w w'
  | spread {name condition : Name} {place : SourceLocation} {fragment : Fragment}
      {cs : List Name} {w w' : Workpiece} :
      G name fragment →
      Gives (LookupM.intersect condition fragment.definition.condition :
        LookupM schema LookupError _) cs →
      Chain (Copies schema fragment fragment.entities.size location fragment.rootLocation) cs
        (w.refer fragment) w' →
      VisitsSelection G nested location (.spread name place condition) w w'
  | unreachable {condition : Name} {place : SourceLocation} {selections : List Selection}
      {w : Workpiece} :
      VisitsSelection G nested location (.unreachable place selections condition) w w

/-- Selections of a bounded height were entered at `location`, under `condition`. -/
def Visits (G : Name → Fragment → Prop) :
    (height : Nat) → Location → Name → List Selection → Workpiece → Workpiece → Prop
  | 0, location, _, _, w, w' => w' = w.put location (w.entity location)
  | height + 1, location, condition, selections, w, w' =>
    ∃ normal, Gives (Selection.normalizeAll condition selections :
        LookupM schema LookupError _) normal ∧
      Chain (VisitsSelection schema G (Visits G height) location) normal
        (w.put location (w.entity location)) w'

end

/-! ## Walks that succeed -/

section
variable {schema : Schema} {I : Registry → Prop} {w : Workpiece}

/-- Conditions are narrowed one after the other. -/
theorem narrowConditions_gives (hs : schema.Coherent) {conditions : List Name} {condition : Name}
    {narrowed : OrderedSet Name} (hc : ∀ c ∈ conditions, schema.Composite c)
    (h : Gives (narrowConditions conditions condition : LookupM schema LookupError _) narrowed) :
    Restricted schema conditions condition narrowed := by
  suffices hfold : ∀ known done, Restricted schema done condition known →
      Gives (conditions.foldlM (fun narrowed c => do
        return narrowed.insertAll (← LookupM.intersect c condition)) known :
          LookupM schema LookupError _) narrowed →
      Restricted schema (done ++ conditions) condition narrowed by
    exact hfold ∅ [] ⟨by simp [← OrderedSet.mem_toList], by simp [← OrderedSet.mem_toList],
      by simp [Conditions.Cover, ← OrderedSet.mem_toList]⟩ h
  clear h
  induction conditions with
  | nil =>
    intro known done hk h
    cases h.of_pure
    simpa using hk
  | cons c rest ih =>
    intro known done hk h
    rw [List.foldlM_cons] at h
    obtain ⟨known', hn, h⟩ := h.of_bind
    obtain ⟨cs, hi, hn⟩ := hn.of_bind
    cases hn.of_pure
    have hm := LookupM.intersect_gives hs (hc c (.head _)) hi
    have hstep : Restricted schema (done ++ [c]) condition (known.insertAll cs) := by
      refine ⟨fun x hx => ?_, fun x hx => ?_, fun o => ?_⟩
      · rcases OrderedSet.mem_insertAll.1 hx with hx | hx
        · exact hk.composite x hx
        · exact hm.composite x hx
      · rcases OrderedSet.mem_insertAll.1 hx with hx | hx
        · exact hk.within x hx
        · exact hm.right x hx
      · have hknown := hk.cover o
        have hnew := hm.possible o
        simp only [Conditions.Cover, OrderedSet.mem_insertAll, List.mem_append,
          List.mem_singleton, or_and_right, exists_or, exists_eq_left] at hknown hnew ⊢
        rw [hknown, hnew]
    simpa using ih (fun x hx => hc x (List.mem_cons_of_mem _ hx)) _ _ hstep h

/-- The entity at a location is found or created. -/
theorem entityAt_does {l : Location} :
    UnitM.Does I (UnitM.entityAt l : UnitM schema Entity) w fun e w' =>
      e = w.entity l ∧ w' = w.put l (w.entity l) := by
  refine UnitM.Does.get.bind fun a w₁ ⟨ha, hw⟩ => ?_
  subst ha hw
  cases hf : w₁.entities.find? l with
  | some e => exact .pure ⟨by simp [Workpiece.entity, hf], (Workpiece.put_entity hf).symm⟩
  | none =>
    refine (UnitM.Does.ofRun .report).bind fun _ w₂ ⟨_, hw⟩ => ?_
    refine UnitM.Does.modify.bind fun _ w₃ hw₃ => .pure ?_
    simp [hw₃, hw, Workpiece.entity, Workpiece.put, hf]

/-- A field is merged into the entity at a location, which is put back. -/
theorem mergeAt_puts {l : Location} {f : EntityField} :
    UnitM.Does I (UnitM.mergeAt l f : UnitM schema Unit) w fun _ w' =>
      ∃ e, Gives ((w.entity l).mergeField f : LookupM schema BuildError Entity) e ∧
        w' = w.put l e := by
  refine entityAt_does.bind fun e w₁ ⟨he, hw⟩ => ?_
  refine (UnitM.Does.ofRun .ofLookup).bind fun e' w₂ ⟨he', hw₂⟩ => ?_
  refine UnitM.Does.modify.mono fun _ w₃ hw₃ => ?_
  subst he hw hw₂ hw₃
  exact ⟨e', he', Workpiece.put_put ..⟩

/-- A field is merged. -/
theorem mergeAt_does {l : Location} {f : EntityField} :
    UnitM.Does I (UnitM.mergeAt l f : UnitM schema Unit) w fun _ w' => Merges schema l f w w' := by
  refine mergeAt_puts.mono fun _ w' ⟨e, he, hw'⟩ => ?_
  obtain ⟨m, hm, rfl⟩ := Entity.mergeField_gives he
  exact ⟨m, hm, hw'⟩

/-- The declared type of a field is looked up. -/
theorem fieldType_does {name condition : Name} {place : SourceLocation} :
    RunM.Does I (RunM.fieldType name place condition : RunM schema DeclaredType) fun declared =>
      schema.fieldType? condition name = some declared := by
  unfold RunM.fieldType Schema.fieldType?
  split
  · exact .pure rfl
  · refine RunM.Does.ask.bind fun type ht => ?_
    have ht := LookupM.type_gives ht
    split
    · next field hf => exact .pure (by simp [ht, hf])
    · exact .throw

/-- Nothing is selected on a type without fields. -/
theorem checkLeaf_does {type : NamedType} {selections : List Selection} :
    RunM.Does I (RunM.checkLeaf type selections : RunM schema Unit) fun _ => selections = [] := by
  unfold RunM.checkLeaf
  split
  · next h => exact .pure (List.isEmpty_iff.1 h)
  · exact .throw

/-- A field is copied or left out. -/
theorem copyField_does {nested : (target source : Location) → Name → UnitM schema Unit}
    {N : (target source : Location) → Name → Workpiece → Workpiece → Prop}
    (hn : ∀ target source condition w,
      UnitM.Does I (nested target source condition) w fun _ w' => N target source condition w w')
    {target : Location} {condition : Name} {f : EntityField} :
    UnitM.Does I (copyField nested target condition f) w fun _ w' =>
      CopiesField schema N target condition f w w' := by
  refine UnitM.Does.ask.bind fun cs w₁ ⟨hcs, hw⟩ => ?_
  subst hw
  split
  · next he => exact .pure (.skip hcs he)
  · next he =>
    have he : cs.isEmpty = false := by simpa using he
    cases hf : f.child with
    | some source =>
      refine (hn _ _ _ _).bind fun _ w₂ hw₂ => ?_
      exact mergeAt_does.mono fun _ w₃ hw₃ => .node hcs he hf hw₂ hw₃
    | none => exact mergeAt_does.mono fun _ w₃ hw₃ => .leaf hcs he hf hw₃

/-- A fragment is copied. -/
theorem copyWithin_does {fragment : Fragment} {depth : Nat} {target source : Location}
    {condition : Name} :
    UnitM.Does I (copyWithin fragment depth target source condition : UnitM schema Unit) w
      fun _ w' => Copies schema fragment depth target source condition w w' := by
  induction depth generalizing target source condition w with
  | zero => exact .pure rfl
  | succ depth ih =>
    unfold copyWithin Copies
    cases fragment.entities.find? source with
    | none => exact .pure rfl
    | some entity =>
      refine entityAt_does.bind fun known w₁ ⟨hk, hw₁⟩ => ?_
      subst hk hw₁
      refine UnitM.Does.modify.bind fun _ w₂ hw₂ => ?_
      have hw₂ := hw₂.trans (Workpiece.put_put w target _ _)
      subst hw₂
      exact .forM fun f _ w => copyField_does fun _ _ _ _ => ih

variable {resolve : Name → RunM schema Fragment} {G : Name → Fragment → Prop}

/-- A normal selection that can never apply is checked. -/
theorem validateSelection_does (hr : ∀ name, RunM.Does I (resolve name) (G name))
    {nested : Name → List Selection → RunM schema Unit}
    (hn : ∀ condition selections, RunM.Does I (nested condition selections) fun _ => True)
    {s : NormalSelection} : RunM.Does I (validateSelection resolve nested s) fun _ => True := by
  cases s with
  | field aliasName name place selections condition =>
    refine fieldType_does.bind fun declared _ => RunM.Does.ask.bind fun type _ => ?_
    split
    · exact hn _ _
    · exact checkLeaf_does.mono fun _ _ => trivial
  | spread fragment place condition => exact (hr fragment).bind fun _ _ => .pure trivial
  | unreachable place selections condition => exact hn _ _

/-- Selections that can never apply are checked. -/
theorem validateWithin_does (hr : ∀ name, RunM.Does I (resolve name) (G name)) {height : Nat}
    {condition : Name} {selections : List Selection} :
    RunM.Does I (validateWithin resolve height condition selections) fun _ => True := by
  induction height generalizing condition selections with
  | zero => exact .pure trivial
  | succ height ih =>
    refine RunM.Does.ask.bind fun normal _ => .forM fun s _ => ?_
    exact validateSelection_does hr fun _ _ => ih

/-- A normal selection is entered. -/
theorem visitSelection_does (hr : ∀ name, RunM.Does I (resolve name) (G name))
    {nested : Location → Name → List Selection → UnitM schema Unit}
    {N : Location → Name → List Selection → Workpiece → Workpiece → Prop}
    (hn : ∀ location condition selections w,
      UnitM.Does I (nested location condition selections) w fun _ w' =>
        N location condition selections w w')
    {location : Location} {s : NormalSelection} :
    UnitM.Does I (visitSelection resolve nested location s) w fun _ w' =>
      VisitsSelection schema G N location s w w' := by
  cases s with
  | field aliasName name place selections condition =>
    refine (UnitM.Does.ofRun fieldType_does).bind fun declared w₁ ⟨hd, hw⟩ => ?_
    subst hw
    refine UnitM.Does.ask.bind fun type w₂ ⟨ht, hw⟩ => ?_
    subst hw
    have ht := LookupM.type_gives ht
    split
    · next hc =>
      refine (hn _ _ _ _).bind fun _ w₃ hw₃ => ?_
      exact mergeAt_does.mono fun _ w₄ hw₄ => .node hd ht hc hw₃ hw₄
    · next hc =>
      refine (UnitM.Does.ofRun checkLeaf_does).bind fun _ w₃ ⟨hs, hw⟩ => ?_
      subst hs hw
      exact mergeAt_does.mono fun _ w₄ hw₄ => .leaf hd ht (by simpa using hc) hw₄
  | spread name place condition =>
    refine (UnitM.Does.ofRun (hr name)).bind fun fragment w₁ ⟨hg, hw⟩ => ?_
    subst hw
    refine UnitM.Does.modify.bind fun _ w₂ hw => ?_
    subst hw
    refine UnitM.Does.ask.bind fun cs w₃ ⟨hcs, hw⟩ => ?_
    subst hw
    exact (UnitM.Does.forM fun _ _ _ => copyWithin_does).mono fun _ w₄ hw₄ => .spread hg hcs hw₄
  | unreachable place selections condition =>
    refine (UnitM.Does.ofRun (validateWithin_does hr)).mono fun _ w₁ ⟨_, hw⟩ => ?_
    subst hw
    exact .unreachable

/-- Selections are entered. -/
theorem visitWithin_does (hr : ∀ name, RunM.Does I (resolve name) (G name)) {height : Nat}
    {location : Location} {condition : Name} {selections : List Selection} :
    UnitM.Does I (visitWithin resolve height location condition selections) w fun _ w' =>
      Visits schema G height location condition selections w w' := by
  induction height generalizing location condition selections w with
  | zero => exact entityAt_does.bind fun _ _ h => .pure h.2
  | succ height ih =>
    refine entityAt_does.bind fun _ w₁ h => UnitM.Does.ask.bind fun normal w₂ ⟨hn, hw⟩ => ?_
    subst hw
    refine (UnitM.Does.forM fun s _ w => visitSelection_does hr fun _ _ _ _ => ih).mono ?_
    exact fun _ w' hw' => ⟨normal, hn, h.2 ▸ hw'⟩

end

end EntityGraph
