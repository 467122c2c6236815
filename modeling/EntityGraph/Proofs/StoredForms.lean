import EntityGraph.Data.Document
import EntityGraph.Data.Types
import EntityGraph.Proofs.Schema.Loading

/-!
# Stored forms lose nothing

What is stored is read back: a type, a document, a declared type or a location is the one that was
stored, with every place, every order of entries and every absent value (`stored_restored`). Records
are read field by field, so each type needs one lemma that uses those of its fields. Declared types
and selections are nested, and are read with a bound on the depth of the data; the depth of the
stored form is bound enough (`DeclaredType.decodeWithin?_encode`, `Selection.decodeWithin?_encode`).
-/

namespace EntityGraph

namespace Dict

variable {κ ν : Type} [DecidableEq κ]

/-- Entries with new keys are put at the end of a dictionary. -/
theorem entries_insertAll {l : List (κ × ν)} {d : Dict κ ν}
    (h : ((d.entries ++ l).map Prod.fst).Nodup) : (d.insertAll l).entries = d.entries ++ l := by
  induction l generalizing d with
  | nil => exact (List.append_nil _).symm
  | cons e l ih =>
    rw [List.map_append, List.map_cons] at h
    have hnew : e.1 ∉ d.keys := fun hm => (List.nodup_append.1 h).2.2 _ hm _ (.head _) rfl
    have hinsert := entries_insert e.2 hnew
    show ((d.insert e.1 e.2).insertAll l).entries = _
    rw [ih (by simpa [hinsert] using h), hinsert, List.append_assoc, List.singleton_append]

/-- A dictionary is made of its entries. -/
theorem ofList_entries (d : Dict κ ν) : ofList d.entries = d :=
  ext (entries_insertAll (d := empty) d.nodup)

end Dict

/-! ## Single values, lists and dictionaries -/

namespace Data

/-- The fields of a record are asked for by name. -/
@[simp] theorem slots?_record (names : List String) (fields : List (String × Data)) :
    (record fields).slots? names = some (names.map fun name => fields.lookup name) := rfl

@[simp] theorem fields?_record (names : List String) (fields : List (String × Data)) :
    (record fields).fields? names = some (names.map fun name => fields.lookup name) := rfl

@[simp] theorem choice?_choice (name : String) (content : Data) :
    (choice name content).choice? = some (name, some content) := rfl

@[simp] theorem choice?_str (name : String) : (str name).choice? = some (name, none) := rfl

@[simp] theorem str?_str (s : String) : (str s).str? = some s := rfl

@[simp] theorem bool?_bool (b : Bool) : (bool b).bool? = some b := rfl

@[simp] theorem null?_null : null.null? = some () := rfl

/-- Words are read back. -/
@[simp] theorem word?_nat (w : UInt64) : (nat w.toNat).word? = some w := by
  simp [word?, w.toNat_lt]

/-- A text that may be absent is read back. -/
@[simp] theorem option?_ofText? (t : Option String) :
    option? str? (some (ofText? t)) = some t := by
  cases t <;> rfl

section
variable {α : Type} {decode? : Data → Option α} {encode : α → Data}

/-- A list of items that are read back is read back. -/
theorem list?_map (h : ∀ a, decode? (encode a) = some a) (l : List α) :
    list? decode? (list (l.map encode)) = some l := by
  show (l.map encode).mapM decode? = some l
  induction l with
  | nil => rfl
  | cons a l ih => simp [h, ih]

/-- A dictionary of values that are read back is read back, in the same order. -/
theorem dict?_ofDict (h : ∀ a, decode? (encode a) = some a) (d : Dict Name α) :
    dict? decode? (ofDict encode d) = some d := by
  have hentries (l : List (Name × α)) :
      (l.map fun e => (e.1, encode e.2)).mapM
        (fun e => do return (e.1, ← decode? e.2) : Name × Data → Option (Name × α)) =
          some l := by
    induction l with
    | nil => rfl
    | cons e l ih =>
      rw [List.map_cons, List.mapM_cons, ih]
      simp [h]
  show ((d.entries.map fun e => (e.1, encode e.2)).mapM _ >>= fun entries =>
    some (Dict.ofList entries)) = some d
  rw [hentries]
  exact congrArg some d.ofList_entries

end

end Data

/-! ## Places and locations -/

/-- A position is read back. -/
@[simp] theorem FilePosition.decode?_encode (p : FilePosition) : decode? p.encode = some p := by
  obtain ⟨col, file, line⟩ := p
  cases file <;> simp [decode?, encode, List.lookup_cons]

/-- A place is read back. -/
@[simp] theorem SourceLocation.decode?_encode (l : SourceLocation) :
    decode? l.encode = some l := by
  cases l <;> simp [decode?, encode, Data.bare]

/-- A kind of operations is read back. -/
@[simp] theorem OperationKind.decode?_encode (kind : OperationKind) :
    decode? kind.encode = some kind := by
  cases kind <;> rfl

/-- A step of a location is read back. -/
theorem LocationStep.decode?_encode (step : LocationStep) : decode? step.encode = some step := by
  simp [decode?, encode, List.lookup_cons]

/-- A unit is read back. -/
@[simp] theorem LocationSource.decode?_encode (source : LocationSource) :
    decode? source.encode = some source := by
  cases source <;> simp [decode?, encode, List.lookup_cons]

/-- A location is read back. -/
theorem Location.decode?_encode (l : Location) : decode? l.encode = some l := by
  simp [decode?, encode, List.lookup_cons, Data.list?_map LocationStep.decode?_encode]

/-! ## Types -/

namespace DeclaredType

/-- A declared type is read back with every bound that the depth of its stored form allows. -/
theorem decodeWithin?_encode (t : DeclaredType) :
    ∀ {bound : Nat}, t.encode.depth ≤ bound → decodeWithin? bound t.encode = some t := by
  induction t with
  | named name nullable =>
    intro bound h
    simp only [encode, Data.choice, Data.depth, Data.depthFields] at h
    obtain ⟨bound, rfl⟩ : ∃ n, bound = n + 1 := ⟨bound - 1, by omega⟩
    simp [decodeWithin?, encode, decodeNamed?, List.lookup_cons]
  | list inner nullable ih =>
    intro bound h
    simp only [encode, Data.choice, Data.depth, Data.depthFields] at h
    obtain ⟨bound, rfl⟩ : ∃ n, bound = n + 1 := ⟨bound - 1, by omega⟩
    have hinner : decodeWithin? bound inner.encode = some inner := ih (by omega)
    simp [decodeWithin?, encode, decodeListWith?, List.lookup_cons, hinner]

/-- A declared type is read back. -/
@[simp] theorem decode?_encode (t : DeclaredType) : decode? t.encode = some t :=
  decodeWithin?_encode t (Nat.le_refl _)

end DeclaredType

/-- A reference is read back. -/
@[simp] theorem TypeRef.decode?_encode (r : TypeRef) : decode? r.encode = some r := by
  simp [decode?, encode, List.lookup_cons]

/-- An argument is read back. -/
theorem Parameter.decode?_encode (p : Parameter) : decode? p.encode = some p := by
  simp [decode?, encode, List.lookup_cons]

/-- A field is read back. -/
theorem Field.decode?_encode (f : Field) : decode? f.encode = some f := by
  simp [decode?, encode, List.lookup_cons, Data.dict?_ofDict Parameter.decode?_encode]

/-- An enum value is read back. -/
theorem EnumValue.decode?_encode (v : EnumValue) : decode? v.encode = some v := by
  simp [decode?, encode, List.lookup_cons]

/-- An enum is read back. -/
@[simp] theorem EnumType.decode?_encode (t : EnumType) : decode? t.encode = some t := by
  simp [decode?, encode, List.lookup_cons, Data.dict?_ofDict EnumValue.decode?_encode]

/-- A scalar is read back. -/
@[simp] theorem ScalarType.decode?_encode (t : ScalarType) : decode? t.encode = some t := by
  simp [decode?, encode, List.lookup_cons]

/-- An input object is read back. -/
@[simp] theorem InputObjectType.decode?_encode (t : InputObjectType) :
    decode? t.encode = some t := by
  simp [decode?, encode, List.lookup_cons, Data.dict?_ofDict Field.decode?_encode]

/-- An object or an interface is read back. -/
@[simp] theorem FieldedType.decode?_encode (t : FieldedType) : decode? t.encode = some t := by
  simp [decode?, encode, List.lookup_cons, Data.dict?_ofDict Field.decode?_encode,
    Data.list?_map TypeRef.decode?_encode]

/-- A union is read back. -/
@[simp] theorem UnionType.decode?_encode (t : UnionType) : decode? t.encode = some t := by
  simp [decode?, encode, List.lookup_cons, Data.dict?_ofDict TypeRef.decode?_encode]

/-- A type is read back, as the kind of type that it is. -/
theorem NamedType.decode?_encode (t : NamedType) : decode? t.encode = some t := by
  cases t <;> simp [decode?, encode, kind, TypeKind.label]

/-! ## Documents -/

namespace Selection

mutual

/-- A selection is read back with every bound that the depth of its stored form allows. -/
theorem decodeWithin?_encode : ∀ (s : Selection) {bound : Nat}, s.encode.depth ≤ bound →
    decodeWithin? bound s.encode = some s
  | field aliasName name location selections, bound, h => by
    simp only [encode, Data.choice, Data.depth, Data.depthFields] at h
    obtain ⟨bound, rfl⟩ : ∃ n, bound = n + 1 := ⟨bound - 1, by omega⟩
    have hinner : (encodeAll selections).mapM (decodeWithin? bound) = some selections :=
      mapM_decodeWithin? selections (by omega)
    simp [decodeWithin?, encode, decodeSetWith?, Data.list?, List.lookup_cons, hinner]
  | spread fragment location, bound, h => by
    simp only [encode, Data.choice, Data.depth, Data.depthFields] at h
    obtain ⟨bound, rfl⟩ : ∃ n, bound = n + 1 := ⟨bound - 1, by omega⟩
    simp [decodeWithin?, encode, List.lookup_cons]
  | inline condition location selections, bound, h => by
    simp only [encode, Data.choice, Data.depth, Data.depthFields] at h
    obtain ⟨bound, rfl⟩ : ∃ n, bound = n + 1 := ⟨bound - 1, by omega⟩
    have hinner : (encodeAll selections).mapM (decodeWithin? bound) = some selections :=
      mapM_decodeWithin? selections (by omega)
    simp [decodeWithin?, encode, decodeSetWith?, Data.list?, List.lookup_cons, hinner]

/-- Selections are read back with every bound that the depth of their stored forms allows. -/
theorem mapM_decodeWithin? : ∀ (selections : List Selection) {bound : Nat},
    Data.depthItems (encodeAll selections) ≤ bound →
    (encodeAll selections).mapM (decodeWithin? bound) = some selections
  | [], bound, _ => rfl
  | s :: rest, bound, h => by
    simp only [encodeAll, Data.depthItems] at h
    have hfirst : decodeWithin? bound s.encode = some s := decodeWithin?_encode s (by omega)
    have hrest : (encodeAll rest).mapM (decodeWithin? bound) = some rest :=
      mapM_decodeWithin? rest (by omega)
    simp [encodeAll, hfirst, hrest]

end

/-- A selection is read back. -/
theorem decode?_encode (s : Selection) : decode? s.encode = some s :=
  decodeWithin?_encode s (Nat.le_refl _)

/-- A selection set is read back. -/
@[simp] theorem decodeSet?_encodeSet (selections : List Selection) :
    decodeSet? (encodeSet selections) = some selections := by
  have hencode : ∀ l : List Selection, encodeAll l = l.map encode := by
    intro l
    induction l with
    | nil => rfl
    | cons s l ih => rw [encodeAll, ih, List.map_cons]
  simp [decodeSet?, decodeSetWith?, encodeSet, List.lookup_cons, hencode,
    Data.list?_map decode?_encode]

end Selection

/-- An operation is read back. -/
theorem OperationDefinition.decode?_encode (d : OperationDefinition) :
    decode? d.encode = some d := by
  simp [decode?, encode, List.lookup_cons]

/-- A fragment is read back. -/
theorem FragmentDefinition.decode?_encode (d : FragmentDefinition) :
    decode? d.encode = some d := by
  simp [decode?, encode, List.lookup_cons]

/-- A document is read back. -/
theorem Document.decode?_encode (d : Document) : decode? d.encode = some d := by
  obtain ⟨file, fragments, operations⟩ := d
  cases file <;>
    simp [decode?, encode, List.lookup_cons, Data.list?_map FragmentDefinition.decode?_encode,
      Data.list?_map OperationDefinition.decode?_encode]

/-! ## The result -/

/-- What `encode` stores, `decode?` reads back: reading succeeds, with the value that was stored,
which has the same stored form again. -/
structure Data.Restores {α : Type} (encode : α → Data) (decode? : Data → Option α) : Prop where
  value : ∀ a, decode? (encode a) = some a
  form : ∀ a, (decode? (encode a)).map encode = some (encode a)

/-- What is read back has the same stored form again. -/
theorem Data.Restores.of_value {α : Type} {encode : α → Data} {decode? : Data → Option α}
    (h : ∀ a, decode? (encode a) = some a) : Data.Restores encode decode? :=
  ⟨h, fun a => by rw [h a]; rfl⟩

/-- Documents, types, declared types and locations lose nothing when they are stored. -/
theorem stored_restored : Data.Restores Document.encode Document.decode? ∧
    Data.Restores NamedType.encode NamedType.decode? ∧
    Data.Restores DeclaredType.encode DeclaredType.decode? ∧
    Data.Restores Location.encode Location.decode? :=
  ⟨.of_value Document.decode?_encode, .of_value NamedType.decode?_encode,
    .of_value DeclaredType.decode?_encode, .of_value Location.decode?_encode⟩

end EntityGraph
