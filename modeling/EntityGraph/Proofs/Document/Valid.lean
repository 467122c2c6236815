import EntityGraph.Proofs.Document.Collect
import EntityGraph.Proofs.Questions.Steady
import EntityGraph.Proofs.Walk.Walks

/-!
# Valid selections

What a walk checks, said of the selections alone. A selection is valid on a type if its fields exist
there, something is selected only on composite types, its inline fragments name composite types, and
its spreads name fragments that are allowed (`Selection.Valid`); selections that can never apply
have to be valid as well, on the type that they name themselves. Normal forms neither lose nor add a
check (`Selection.normalizeAll_valid_iff`), and valid selections have one
(`Selection.exists_normalizeAll`). Every spread is checked, wherever it stands
(`Selection.Valid.spreads`).
-/

namespace EntityGraph

open LookupM (Gives Answers Steady)

/-! ## Spreads -/

namespace Selection

mutual

/-- The names of the fragments that are spread in a selection, at any depth. -/
def spreads : Selection → List Name
  | field _ _ _ selections => spreadsAll selections
  | spread fragment _ => [fragment]
  | inline _ _ selections => spreadsAll selections

/-- The names of the fragments that are spread in some selections, at any depth. -/
def spreadsAll : List Selection → List Name
  | [] => []
  | s :: rest => spreads s ++ spreadsAll rest

end

/-- A spread stands in one of the selections. -/
theorem mem_spreadsAll {selections : List Selection} {name : Name} :
    name ∈ spreadsAll selections ↔ ∃ s ∈ selections, name ∈ s.spreads := by
  induction selections with
  | nil => simp [spreadsAll]
  | cons s rest ih => simp [spreadsAll, ih]

/-- Some selections are as low as each of them is. -/
theorem heightAll_le_iff {selections : List Selection} {bound : Nat} :
    heightAll selections ≤ bound ↔ ∀ s ∈ selections, s.height ≤ bound := by
  induction selections with
  | nil => simp [heightAll]
  | cons s rest ih => rw [heightAll, Nat.max_le, List.forall_mem_cons, ih]

end Selection

namespace NormalSelection

/-- The selections that a normal selection was made with. -/
def selections : NormalSelection → List Selection
  | field _ _ _ selections _ => selections
  | spread _ _ _ => []
  | unreachable _ selections _ => selections

/-- The names of the fragments that are spread in a normal selection, at any depth. -/
def spreads : NormalSelection → List Name
  | field _ _ _ selections _ => Selection.spreadsAll selections
  | spread fragment _ _ => [fragment]
  | unreachable _ selections _ => Selection.spreadsAll selections

/-- A normal selection that comes out of some selections is lower than these, and what it spreads is
spread in them. -/
structure Part (whole : List Selection) (s : NormalSelection) : Prop where
  lower : Selection.heightAll s.selections < Selection.heightAll whole
  spreads : ∀ name ∈ s.spreads, name ∈ Selection.spreadsAll whole

end NormalSelection

variable {schema : Schema}

/-- What is in one of some selections is part of them. -/
theorem NormalSelection.Part.of_mem {whole : List Selection} {x : Selection} {s : NormalSelection}
    (hx : x ∈ whole) (hlower : Selection.heightAll s.selections < x.height)
    (hspreads : ∀ name ∈ s.spreads, name ∈ x.spreads) : s.Part whole where
  lower := Nat.lt_of_lt_of_le hlower (Selection.heightAll_le_iff.1 (Nat.le_refl _) x hx)
  spreads name hn := Selection.mem_spreadsAll.2 ⟨x, hx, hspreads name hn⟩

/-- What comes out of selections is part of them. -/
theorem Emits.part {c : Name} {selections : List Selection} {n : NormalSelection}
    (h : Emits schema c selections n) : n.Part selections := by
  induction h with
  | field hm | spread hm | excluded hm =>
    refine .of_mem hm ?_ fun _ h => h
    simp [NormalSelection.selections, Selection.height, Selection.heightAll]
  | inline hm _ ih | narrowed hm _ _ _ ih =>
    refine .of_mem hm ?_ ih.spreads
    have hlower := ih.lower
    simp only [Selection.height]
    omega

/-- Normal selections are parts of the selections that they come from. -/
theorem Selection.normalizeAll_parts (selections : List Selection) {c : Name}
    {normal : List NormalSelection}
    (h : Gives (normalizeAll c selections : LookupM schema LookupError _) normal) :
    ∀ n ∈ normal, n.Part selections :=
  fun n hn => (normalizeAll_emits selections h n hn).part

/-! ## Validity -/

/-- The selection is valid on the type `c`, where `Ok` holds of the fragments that may be spread. -/
inductive Selection.Valid (schema : Schema) (Ok : Name → Prop) : Name → Selection → Prop
  | leaf {c name : Name} {aliasName : Option Name} {location : SourceLocation}
      {declared : DeclaredType} {type : NamedType} :
      schema.fieldType? c name = some declared →
      schema.types.find? declared.innermostName = some type → type.isComposite = false →
      Valid schema Ok c (.field aliasName name location [])
  | node {c name : Name} {aliasName : Option Name} {location : SourceLocation}
      {inner : List Selection} {declared : DeclaredType} {type : NamedType} :
      schema.fieldType? c name = some declared →
      schema.types.find? declared.innermostName = some type → type.isComposite = true →
      (∀ s ∈ inner, Valid schema Ok type.name s) →
      Valid schema Ok c (.field aliasName name location inner)
  | spread {c name : Name} {location : SourceLocation} :
      Ok name → Valid schema Ok c (.spread name location)
  | inline {c : Name} {location : SourceLocation} {inner : List Selection} :
      (∀ s ∈ inner, Valid schema Ok c s) → Valid schema Ok c (.inline none location inner)
  | narrowed {c own : Name} {location : SourceLocation} {inner : List Selection}
      {cs : List Name} :
      Gives (LookupM.intersect c own : LookupM schema LookupError _) cs → cs ≠ [] →
      (∀ c' ∈ cs, ∀ s ∈ inner, Valid schema Ok c' s) →
      Valid schema Ok c (.inline (some own) location inner)
  /-- A fragment that excludes the type around it is valid on its own type. -/
  | excluded {c own : Name} {location : SourceLocation} {inner : List Selection} :
      Gives (LookupM.intersect c own : LookupM schema LookupError _) [] →
      (∀ s ∈ inner, Valid schema Ok own s) →
      Valid schema Ok c (.inline (some own) location inner)

/-- The normal selection is valid on the type that it is made on. -/
def NormalSelection.Valid (schema : Schema) (Ok : Name → Prop) : NormalSelection → Prop
  | .field _ name _ selections c =>
    ∃ declared type, schema.fieldType? c name = some declared ∧
      schema.types.find? declared.innermostName = some type ∧
      if type.isComposite then ∀ s ∈ selections, s.Valid schema Ok type.name else selections = []
  | .spread name _ _ => Ok name
  | .unreachable _ selections own => ∀ s ∈ selections, s.Valid schema Ok own

variable {Ok Ok' : Name → Prop} {c : Name}

/-- Every spread of a valid selection is allowed, wherever it stands. -/
theorem Selection.Valid.spreads {s : Selection} (h : s.Valid schema Ok c) :
    ∀ name ∈ s.spreads, Ok name := by
  induction h with
  | leaf => simp [Selection.spreads, spreadsAll]
  | node _ _ _ _ ih | inline _ ih | excluded _ _ ih =>
    intro name hn
    obtain ⟨s, hs, hn⟩ := mem_spreadsAll.1 hn
    exact ih s hs name hn
  | spread hok => simpa [Selection.spreads] using hok
  | narrowed _ hne _ ih =>
    -- the selections are checked at least once
    obtain ⟨c', hc'⟩ := List.exists_mem_of_ne_nil _ hne
    intro name hn
    obtain ⟨s, hs, hn⟩ := mem_spreadsAll.1 hn
    exact ih c' hc' s hs name hn

/-- Validity only depends on what is spread. -/
theorem Selection.Valid.mono {s : Selection} (h : s.Valid schema Ok c)
    (himp : ∀ name ∈ s.spreads, Ok name → Ok' name) : s.Valid schema Ok' c := by
  have below : ∀ {s : Selection} {selections : List Selection}, s ∈ selections →
      (∀ name ∈ spreadsAll selections, Ok name → Ok' name) →
      ∀ name ∈ s.spreads, Ok name → Ok' name :=
    fun hs himp name hn => himp name (mem_spreadsAll.2 ⟨_, hs, hn⟩)
  induction h with
  | leaf hd ht hc => exact .leaf hd ht hc
  | node hd ht hc _ ih => exact .node hd ht hc fun s hs => ih s hs (below hs himp)
  | spread hok => exact .spread (himp _ (by simp [Selection.spreads]) hok)
  | inline _ ih => exact .inline fun s hs => ih s hs (below hs himp)
  | narrowed hi hne _ ih =>
    exact .narrowed hi hne fun c' hc' s hs => ih c' hc' s hs (below hs himp)
  | excluded hi _ ih => exact .excluded hi fun s hs => ih s hs (below hs himp)

/-- Validity of a normal selection only depends on what is spread. -/
theorem NormalSelection.Valid.mono {s : NormalSelection} (h : s.Valid schema Ok)
    (himp : ∀ name ∈ s.spreads, Ok name → Ok' name) : s.Valid schema Ok' := by
  have below : ∀ {s : Selection} {selections : List Selection} {c : Name}, s ∈ selections →
      (∀ name ∈ Selection.spreadsAll selections, Ok name → Ok' name) → s.Valid schema Ok c →
      s.Valid schema Ok' c :=
    fun hs himp h => h.mono fun name hn => himp name (Selection.mem_spreadsAll.2 ⟨_, hs, hn⟩)
  cases s with
  | field =>
    obtain ⟨declared, type, hd, ht, h⟩ := h
    refine ⟨declared, type, hd, ht, ?_⟩
    split at h
    · next hc => rw [if_pos hc]; exact fun s hs => below hs himp (h s hs)
    · next hc => rw [if_neg hc]; exact h
  | spread => exact himp _ (.head _) h
  | unreachable => exact fun s hs => below hs himp (h s hs)

namespace Selection

/-- A field is valid as a selection if it is valid as a normal selection. -/
theorem valid_field_iff {aliasName : Option Name} {name : Name} {location : SourceLocation}
    {inner : List Selection} :
    (NormalSelection.field aliasName name location inner c).Valid schema Ok ↔
      (Selection.field aliasName name location inner).Valid schema Ok c := by
  constructor
  · rintro ⟨declared, type, hd, ht, h⟩
    split at h
    · next hc => exact .node hd ht hc h
    · next hc =>
      subst h
      exact .leaf hd ht (by simpa using hc)
  · intro h
    cases h with
    | leaf hd ht hc => exact ⟨_, _, hd, ht, by simp [hc]⟩
    | node hd ht hc h => exact ⟨_, _, hd, ht, by simpa [hc] using h⟩

/-- Which case of an inline fragment applies is decided by the intersection. -/
theorem valid_inlineOn_iff {own : Name} {location : SourceLocation} {inner : List Selection}
    {cs : List Name} (hi : Gives (LookupM.intersect c own : LookupM schema LookupError _) cs) :
    (Selection.inline (some own) location inner).Valid schema Ok c ↔
      if cs = [] then ∀ s ∈ inner, s.Valid schema Ok own
      else ∀ c' ∈ cs, ∀ s ∈ inner, s.Valid schema Ok c' := by
  have hsteady : Steady (LookupM.intersect c own : LookupM schema LookupError _) :=
    LookupM.intersect_steady c own
  constructor
  · intro h
    cases h with
    | narrowed hi' hne h =>
      rw [hsteady.unique hi hi', if_neg hne]
      exact h
    | excluded hi' h =>
      rw [hsteady.unique hi hi', if_pos rfl]
      exact h
  · intro h
    split at h
    · next hnil => exact .excluded (hnil ▸ hi) h
    · next hne => exact .narrowed hi hne h

mutual

/-- The normal form of a selection is valid exactly if the selection is. -/
theorem normalize_valid_iff : ∀ (s : Selection) {c : Name} {normal : List NormalSelection},
    Gives (normalize c s : LookupM schema LookupError _) normal →
    ((∀ n ∈ normal, n.Valid schema Ok) ↔ s.Valid schema Ok c)
  | .field .., c, normal, h => by
    cases h.of_pure
    simpa using valid_field_iff
  | .spread .., c, normal, h => by
    cases h.of_pure
    simp only [List.mem_singleton, forall_eq]
    exact ⟨.spread, fun h => by cases h; assumption⟩
  | .inline none _ inner, c, normal, h => by
    rw [normalizeAll_valid_iff inner h]
    exact ⟨.inline, fun h => by cases h; assumption⟩
  | .inline (some own) _ inner, c, normal, h => by
    rw [normalize] at h
    obtain ⟨narrowed, hi, h⟩ := h.of_bind
    rw [valid_inlineOn_iff hi]
    split at h
    · next hnil =>
      rw [if_pos (List.isEmpty_iff.1 hnil)]
      obtain ⟨_, -, h⟩ := h.of_bind
      cases h.of_pure
      simp only [List.mem_singleton, forall_eq]
      exact Iff.rfl
    · next hne =>
      rw [if_neg (by simpa using hne)]
      obtain ⟨parts, hp, h⟩ := h.of_bind
      cases h.of_pure
      have hiff := hp.of_mapM.imp fun c' part hpart => normalizeAll_valid_iff inner hpart
      constructor
      · intro hall c' hc'
        obtain ⟨part, hpart, hvalid⟩ := exists_of_forall₂ hiff c' hc'
        exact hvalid.1 fun n hn => hall n (List.mem_flatten.2 ⟨part, hpart, hn⟩)
      · intro hall n hn
        obtain ⟨part, hpart, hn⟩ := List.mem_flatten.1 hn
        obtain ⟨c', hc', hvalid⟩ := exists_of_forall₂ hiff.flip part hpart
        exact hvalid.2 (hall c' hc') n hn

/-- The normal form of selections is valid exactly if the selections are. -/
theorem normalizeAll_valid_iff : ∀ (selections : List Selection) {c : Name}
    {normal : List NormalSelection},
    Gives (normalizeAll c selections : LookupM schema LookupError _) normal →
    ((∀ n ∈ normal, n.Valid schema Ok) ↔ ∀ s ∈ selections, s.Valid schema Ok c)
  | [], c, normal, h => by
    cases h.of_pure
    simp
  | s :: rest, c, normal, h => by
    obtain ⟨first, hf, h⟩ := h.of_bind
    obtain ⟨tail, ht, h⟩ := h.of_bind
    cases h.of_pure
    rw [List.forall_mem_cons, ← normalize_valid_iff s hf, ← normalizeAll_valid_iff rest ht,
      List.forall_mem_append]

end

mutual

/-- A valid selection has a normal form. -/
theorem exists_normalize : ∀ (s : Selection) {c : Name}, s.Valid schema Ok c →
    ∃ normal, Answers (normalize c s : LookupM schema LookupError _) normal
  | .field .., c, _ => ⟨_, .pure _⟩
  | .spread .., c, _ => ⟨_, .pure _⟩
  | .inline none _ inner, c, h => exists_normalizeAll inner (by cases h; assumption)
  | .inline (some own) location inner, c, h => by
    have hsteady : Steady (LookupM.intersect c own : LookupM schema LookupError _) :=
      LookupM.intersect_steady c own
    rw [normalize]
    cases h with
    | excluded hi h =>
      refine ⟨_, (hsteady.answers hi).bind (b := [.unreachable location inner own]) ?_⟩
      exact LookupM.report_answers.bind (.pure _)
    | @narrowed _ _ _ _ cs hi hne h =>
      have hparts : ∀ c' ∈ cs, ∃ normal,
          Answers (normalizeAll c' inner : LookupM schema LookupError _) normal :=
        fun c' hc' => exists_normalizeAll inner (h c' hc')
      obtain ⟨parts, hp⟩ := Answers.mapM hparts
      refine ⟨parts.flatten, (hsteady.answers hi).bind ?_⟩
      rw [if_neg (by simpa using hne)]
      exact hp.bind (.pure _)

/-- Valid selections have a normal form. -/
theorem exists_normalizeAll : ∀ (selections : List Selection) {c : Name},
    (∀ s ∈ selections, s.Valid schema Ok c) →
    ∃ normal, Answers (normalizeAll c selections : LookupM schema LookupError _) normal
  | [], c, _ => ⟨_, .pure _⟩
  | s :: rest, c, h => by
    obtain ⟨first, hf⟩ := exists_normalize s (h s (.head _))
    obtain ⟨tail, ht⟩ := exists_normalizeAll rest fun s' hs' => h s' (List.mem_cons_of_mem _ hs')
    exact ⟨first ++ tail, hf.bind (ht.bind (.pure _))⟩

end

end Selection

end EntityGraph
