import EntityGraph.Build.Normal
import EntityGraph.Document
import EntityGraph.Proofs.Questions.Answers

/-!
# Collected fields

What a response for a given object type is made of is the fields that are collected for it: those of
the selections themselves, of every inline fragment whose condition the object type satisfies, and
of every spread fragment whose condition it satisfies. `Gathers` says so, by the definitions of the
document and without any normal form. Main statement: `Selection.normalizeAll_normal`, the normal
form of selections under a condition collects the same fields for each object type that satisfies
the condition, with conditions that lie within the given one. How each normal selection comes about
is said by `Emits` (`Selection.normalizeAll_emits`).
-/

namespace EntityGraph

open LookupM (Gives)

/-- A field as it was selected. -/
structure FieldSelection where
  aliasName : Option Name
  name : Name
  location : SourceLocation
  selections : List Selection

/-- The key under which the field appears in a response. -/
def FieldSelection.key (g : FieldSelection) : Name := responseKey g.aliasName g.name

/-- The document defines the fragment `name` by `d`. -/
def Document.Defines (document : Document) (name : Name) (d : FragmentDefinition) : Prop :=
  d ∈ document.fragments ∧ d.name = name

section
variable (schema : Schema) (document : Document)

/-- The field `g` is collected from the selections for the object type `o`. -/
inductive Gathers (o : Name) : List Selection → FieldSelection → Prop
  | field {selections : List Selection} {aliasName : Option Name} {name : Name}
      {location : SourceLocation} {inner : List Selection} :
      .field aliasName name location inner ∈ selections →
      Gathers o selections ⟨aliasName, name, location, inner⟩
  | inline {selections inner : List Selection} {location : SourceLocation} {g : FieldSelection} :
      .inline none location inner ∈ selections → Gathers o inner g → Gathers o selections g
  | inlineOn {selections inner : List Selection} {location : SourceLocation} {c : Name}
      {g : FieldSelection} :
      .inline (some c) location inner ∈ selections → schema.Possible c o → Gathers o inner g →
      Gathers o selections g
  | spread {selections : List Selection} {name : Name} {location : SourceLocation}
      {d : FragmentDefinition} {g : FieldSelection} :
      .spread name location ∈ selections → document.Defines name d →
      schema.Possible d.condition o → Gathers o d.selections g → Gathers o selections g

/-- The field `g` is collected from a normal selection for the object type `o`. -/
def NormalSelection.Contributes (o : Name) (g : FieldSelection) : NormalSelection → Prop
  | .field aliasName name location selections condition =>
    schema.Possible condition o ∧ g = ⟨aliasName, name, location, selections⟩
  | .spread name _ condition =>
    schema.Possible condition o ∧ ∃ d, document.Defines name d ∧ schema.Possible d.condition o ∧
      Gathers schema document o d.selections g
  | .unreachable _ _ _ => False

/-- Whether the selections on a normal selection are of a smaller height than `bound`. -/
def NormalSelection.Lower (bound : Nat) : NormalSelection → Prop
  | .field _ _ _ selections _ => Selection.heightAll selections < bound
  | .spread _ _ _ | .unreachable _ _ _ => True

/-- Whether the condition of a normal selection is one that lies within `c`, if it can apply. -/
def NormalSelection.Inside (c : Name) : NormalSelection → Prop
  | .field _ _ _ _ condition | .spread _ _ condition =>
    schema.Composite condition ∧ schema.Within condition c
  | .unreachable _ _ _ => True

/-- `normal` is a normal form of the selections under the condition `c`. -/
structure Normal (c : Name) (selections : List Selection) (normal : List NormalSelection) :
    Prop where
  inside : ∀ s ∈ normal, s.Inside schema c
  lower : ∀ s ∈ normal, s.Lower (Selection.heightAll selections)
  gathers : ∀ o g, schema.Possible c o →
    (Gathers schema document o selections g ↔ ∃ s ∈ normal, s.Contributes schema document o g)

end

variable {schema : Schema} {document : Document} {o c : Name} {g : FieldSelection}

/-! ## Collecting -/

/-- Fields are collected from each selection on its own. -/
theorem gathers_iff {selections : List Selection} :
    Gathers schema document o selections g ↔
      ∃ s ∈ selections, Gathers schema document o [s] g := by
  constructor
  · intro h
    cases h with
    | field hm => exact ⟨_, hm, .field (.head _)⟩
    | inline hm h => exact ⟨_, hm, .inline (.head _) h⟩
    | inlineOn hm ho h => exact ⟨_, hm, .inlineOn (.head _) ho h⟩
    | spread hm hd ho h => exact ⟨_, hm, .spread (.head _) hd ho h⟩
  · rintro ⟨s, hs, h⟩
    cases h with
    | field hm => exact .field (List.mem_singleton.1 hm ▸ hs)
    | inline hm h => exact .inline (List.mem_singleton.1 hm ▸ hs) h
    | inlineOn hm ho h => exact .inlineOn (List.mem_singleton.1 hm ▸ hs) ho h
    | spread hm hd ho h => exact .spread (List.mem_singleton.1 hm ▸ hs) hd ho h

/-- Fields are collected from the first selection and from the others. -/
theorem gathers_cons {s : Selection} {rest : List Selection} :
    Gathers schema document o (s :: rest) g ↔
      Gathers schema document o [s] g ∨ Gathers schema document o rest g :=
  calc Gathers schema document o (s :: rest) g
    _ ↔ ∃ x ∈ s :: rest, Gathers schema document o [x] g := gathers_iff
    _ ↔ Gathers schema document o [s] g ∨ ∃ x ∈ rest, Gathers schema document o [x] g := by
      simp only [List.mem_cons, or_and_right, exists_or, exists_eq_left]
    _ ↔ Gathers schema document o [s] g ∨ Gathers schema document o rest g :=
      or_congr_right gathers_iff.symm

/-- Nothing is collected from no selections. -/
theorem not_gathers_nil : ¬ Gathers schema document o [] g := by
  intro h
  cases h <;> contradiction

/-- Selections without height are no selections. -/
theorem Selection.eq_nil_of_heightAll {selections : List Selection}
    (h : Selection.heightAll selections = 0) : selections = [] := by
  cases selections with
  | nil => rfl
  | cons s rest =>
    cases s <;> simp only [Selection.heightAll, Selection.height] at h <;> omega

/-- A field is collected as it is. -/
theorem gathers_field {aliasName : Option Name} {name : Name} {location : SourceLocation}
    {inner : List Selection} :
    Gathers schema document o [.field aliasName name location inner] g ↔
      g = ⟨aliasName, name, location, inner⟩ := by
  constructor
  · intro h
    cases h with
    | field hm => cases List.mem_singleton.1 hm; rfl
    | inline hm | inlineOn hm | spread hm => cases List.mem_singleton.1 hm
  · rintro rfl
    exact .field (.head _)

/-- An inline fragment without a condition is entered. -/
theorem gathers_inline {location : SourceLocation} {inner : List Selection} :
    Gathers schema document o [.inline none location inner] g ↔
      Gathers schema document o inner g := by
  constructor
  · intro h
    cases h with
    | inline hm h => cases List.mem_singleton.1 hm; exact h
    | field hm | inlineOn hm | spread hm => cases List.mem_singleton.1 hm
  · exact .inline (.head _)

/-- An inline fragment with a condition is entered if the condition is satisfied. -/
theorem gathers_inlineOn {location : SourceLocation} {inner : List Selection} :
    Gathers schema document o [.inline (some c) location inner] g ↔
      schema.Possible c o ∧ Gathers schema document o inner g := by
  constructor
  · intro h
    cases h with
    | inlineOn hm ho h => cases List.mem_singleton.1 hm; exact ⟨ho, h⟩
    | field hm | inline hm | spread hm => cases List.mem_singleton.1 hm
  · exact fun ⟨ho, h⟩ => .inlineOn (.head _) ho h

/-- A spread is entered if the condition of the fragment is satisfied. -/
theorem gathers_spread {name : Name} {location : SourceLocation} :
    Gathers schema document o [.spread name location] g ↔
      ∃ d, document.Defines name d ∧ schema.Possible d.condition o ∧
        Gathers schema document o d.selections g := by
  constructor
  · intro h
    cases h with
    | spread hm hd ho h => cases List.mem_singleton.1 hm; exact ⟨_, hd, ho, h⟩
    | field hm | inline hm | inlineOn hm => cases List.mem_singleton.1 hm
  · exact fun ⟨_, hd, ho, h⟩ => .spread (.head _) hd ho h

/-! ## Normal forms -/

/-- What a normal selection contributes to, satisfies every condition that it lies inside. -/
theorem NormalSelection.Contributes.possible {s : NormalSelection}
    (h : s.Contributes schema document o g) (hi : s.Inside schema c) : schema.Possible c o := by
  cases s with
  | field | spread => exact hi.2 o h.1
  | unreachable => exact h.elim

/-- A normal selection that lies inside a condition lies inside every wider one. -/
theorem NormalSelection.Inside.trans {c' : Name} {s : NormalSelection} (h : s.Inside schema c)
    (hw : schema.Within c c') : s.Inside schema c' := by
  cases s with
  | field | spread => exact ⟨h.1, h.2.trans hw⟩
  | unreachable => trivial

/-- The bound on heights may be raised. -/
theorem NormalSelection.Lower.mono {m n : Nat} {s : NormalSelection} (h : s.Lower m)
    (hmn : m ≤ n) : s.Lower n := by
  cases s with
  | field => exact Nat.lt_of_lt_of_le h hmn
  | spread | unreachable => trivial

/-- No selections. -/
theorem Normal.nil : Normal schema document c [] [] :=
  ⟨by simp, by simp, fun o g _ => by simp [not_gathers_nil]⟩

/-- Normal forms are put one after the other. -/
theorem Normal.cons {s : Selection} {rest : List Selection} {first tail : List NormalSelection}
    (h₁ : Normal schema document c [s] first) (h₂ : Normal schema document c rest tail) :
    Normal schema document c (s :: rest) (first ++ tail) := by
  refine ⟨fun x hx => ?_, fun x hx => ?_, fun o g ho => ?_⟩
  · rcases List.mem_append.1 hx with hx | hx
    · exact h₁.inside x hx
    · exact h₂.inside x hx
  · rcases List.mem_append.1 hx with hx | hx
    · exact (h₁.lower x hx).mono (by simp only [Selection.heightAll]; omega)
    · exact (h₂.lower x hx).mono (by simp only [Selection.heightAll]; omega)
  · rw [gathers_cons, h₁.gathers o g ho, h₂.gathers o g ho]
    simp only [List.mem_append, or_and_right, exists_or]

/-- What is related element by element to a list has an element for each of the list. -/
theorem exists_of_forall₂ {α β : Type} {R : α → β → Prop} {as : List α} {bs : List β}
    (h : List.Forall₂ R as bs) : ∀ a ∈ as, ∃ b ∈ bs, R a b := by
  induction h with
  | nil => simp
  | cons hr _ ih =>
    intro x hx
    rcases List.mem_cons.1 hx with rfl | hx
    · exact ⟨_, .head _, hr⟩
    · obtain ⟨b, hb, hrb⟩ := ih x hx
      exact ⟨b, List.mem_cons_of_mem _ hb, hrb⟩

/-- The normal form of an inline fragment that narrows the condition: one part for each condition
that is left. -/
theorem Normal.inlineOn {own : Name} {location : SourceLocation} {inner : List Selection}
    {narrowed : List Name} {parts : List (List NormalSelection)} (hm : schema.Meet c own narrowed)
    (h : List.Forall₂ (fun c part => schema.Composite c → Normal schema document c inner part)
      narrowed parts) :
    Normal schema document c [.inline (some own) location inner] parts.flatten := by
  have left : ∀ c' ∈ narrowed, ∃ part ∈ parts, Normal schema document c' inner part := by
    intro c' hc'
    obtain ⟨part, hp, hn⟩ := exists_of_forall₂ h c' hc'
    exact ⟨part, hp, hn (hm.composite c' hc')⟩
  have right : ∀ part ∈ parts, ∃ c' ∈ narrowed, Normal schema document c' inner part := by
    intro part hp
    obtain ⟨c', hc', hn⟩ := exists_of_forall₂ h.flip part hp
    exact ⟨c', hc', hn (hm.composite c' hc')⟩
  refine ⟨fun s hs => ?_, fun s hs => ?_, fun o g ho => ?_⟩
  · obtain ⟨part, hp, hs⟩ := List.mem_flatten.1 hs
    obtain ⟨c', hc', hn⟩ := right part hp
    exact (hn.inside s hs).trans (hm.left c' hc')
  · obtain ⟨part, hp, hs⟩ := List.mem_flatten.1 hs
    obtain ⟨c', hc', hn⟩ := right part hp
    exact (hn.lower s hs).mono (by simp [Selection.heightAll, Selection.height])
  · rw [gathers_inlineOn]
    constructor
    · rintro ⟨hown, hg⟩
      obtain ⟨c', hc', ho'⟩ := (hm.possible o).2 ⟨ho, hown⟩
      obtain ⟨part, hp, hn⟩ := left c' hc'
      obtain ⟨s, hs, hcon⟩ := (hn.gathers o g ho').1 hg
      exact ⟨s, List.mem_flatten.2 ⟨part, hp, hs⟩, hcon⟩
    · rintro ⟨s, hs, hcon⟩
      obtain ⟨part, hp, hs⟩ := List.mem_flatten.1 hs
      obtain ⟨c', hc', hn⟩ := right part hp
      have ho' := hcon.possible (hn.inside s hs)
      exact ⟨((hm.possible o).1 ⟨c', hc', ho'⟩).2, (hn.gathers o g ho').2 ⟨s, hs, hcon⟩⟩

namespace Selection

mutual

/-- A selection is brought into normal form. -/
theorem normalize_normal (hs : schema.Coherent) : ∀ (s : Selection) {c : Name}
    {normal : List NormalSelection}, schema.Composite c →
    Gives (normalize c s : LookupM schema LookupError _) normal →
    Normal schema document c [s] normal
  | .field aliasName name location inner, c, normal, hc, h => by
    cases h.of_pure
    refine ⟨by simpa [NormalSelection.Inside] using ⟨hc, .refl c⟩, ?_, fun o g ho => ?_⟩
    · simp [NormalSelection.Lower, heightAll, height]
    · simp [gathers_field, NormalSelection.Contributes, ho]
  | .spread name location, c, normal, hc, h => by
    cases h.of_pure
    refine ⟨by simpa [NormalSelection.Inside] using ⟨hc, .refl c⟩, ?_, fun o g ho => ?_⟩
    · simp [NormalSelection.Lower]
    · simp [gathers_spread, NormalSelection.Contributes, ho]
  | .inline none location inner, c, normal, hc, h => by
    have hn := normalizeAll_normal hs inner hc h
    refine ⟨hn.inside, fun s hs => (hn.lower s hs).mono ?_, fun o g ho => ?_⟩
    · simp [heightAll, height]
    · rw [gathers_inline, hn.gathers o g ho]
  | .inline (some own) location inner, c, normal, hc, h => by
    rw [normalize] at h
    obtain ⟨narrowed, hi, h⟩ := h.of_bind
    have hm := LookupM.intersect_gives hs hc hi
    split at h
    · next he =>
      obtain ⟨_, -, h⟩ := h.of_bind
      cases h.of_pure
      refine ⟨by simp [NormalSelection.Inside], by simp [NormalSelection.Lower], fun o g ho => ?_⟩
      have hnone : ¬ schema.Possible own o := by
        intro hown
        obtain ⟨c', hc', -⟩ := (hm.possible o).2 ⟨ho, hown⟩
        simp_all
      simp [gathers_inlineOn, NormalSelection.Contributes, hnone]
    · obtain ⟨parts, hp, h⟩ := h.of_bind
      cases h.of_pure
      exact .inlineOn hm (hp.of_mapM.imp fun c part h hc => normalizeAll_normal hs inner hc h)

/-- Selections are brought into normal form. -/
theorem normalizeAll_normal (hs : schema.Coherent) : ∀ (selections : List Selection) {c : Name}
    {normal : List NormalSelection}, schema.Composite c →
    Gives (normalizeAll c selections : LookupM schema LookupError _) normal →
    Normal schema document c selections normal
  | [], c, normal, _, h => by
    cases h.of_pure
    exact .nil
  | s :: rest, c, normal, hc, h => by
    obtain ⟨first, hf, h⟩ := h.of_bind
    obtain ⟨tail, ht, h⟩ := h.of_bind
    cases h.of_pure
    exact (normalize_normal hs s hc hf).cons (normalizeAll_normal hs rest hc ht)

end

end Selection

/-! ## Where normal selections come from -/

/-- The normal selection comes out of the selections when these are made on the type `c`. -/
inductive Emits (schema : Schema) : Name → List Selection → NormalSelection → Prop
  | field {c name : Name} {selections inner : List Selection} {aliasName : Option Name}
      {location : SourceLocation} :
      .field aliasName name location inner ∈ selections →
      Emits schema c selections (.field aliasName name location inner c)
  | spread {c name : Name} {selections : List Selection} {location : SourceLocation} :
      .spread name location ∈ selections → Emits schema c selections (.spread name location c)
  | inline {c : Name} {selections inner : List Selection} {location : SourceLocation}
      {n : NormalSelection} :
      .inline none location inner ∈ selections → Emits schema c inner n →
      Emits schema c selections n
  | narrowed {c own c' : Name} {selections inner : List Selection} {location : SourceLocation}
      {cs : List Name} {n : NormalSelection} :
      .inline (some own) location inner ∈ selections →
      Gives (LookupM.intersect c own : LookupM schema LookupError _) cs → c' ∈ cs →
      Emits schema c' inner n → Emits schema c selections n
  | excluded {c own : Name} {selections inner : List Selection} {location : SourceLocation} :
      .inline (some own) location inner ∈ selections →
      Gives (LookupM.intersect c own : LookupM schema LookupError _) [] →
      Emits schema c selections (.unreachable location inner own)

/-- What comes out of selections comes out of more of them. -/
theorem Emits.mono {selections selections' : List Selection} {n : NormalSelection}
    (h : Emits schema c selections n) (hsub : ∀ s ∈ selections, s ∈ selections') :
    Emits schema c selections' n := by
  cases h with
  | field hm => exact .field (hsub _ hm)
  | spread hm => exact .spread (hsub _ hm)
  | inline hm h => exact .inline (hsub _ hm) h
  | narrowed hm hi hc h => exact .narrowed (hsub _ hm) hi hc h
  | excluded hm hi => exact .excluded (hsub _ hm) hi

namespace Selection

mutual

/-- The normal form of a selection comes out of it. -/
theorem normalize_emits : ∀ (s : Selection) {c : Name} {normal : List NormalSelection},
    Gives (normalize c s : LookupM schema LookupError _) normal →
    ∀ n ∈ normal, Emits schema c [s] n
  | .field .., c, normal, h => by
    cases h.of_pure
    intro n hn
    cases List.mem_singleton.1 hn
    exact .field (.head _)
  | .spread .., c, normal, h => by
    cases h.of_pure
    intro n hn
    cases List.mem_singleton.1 hn
    exact .spread (.head _)
  | .inline none _ inner, c, normal, h =>
    fun n hn => .inline (.head _) (normalizeAll_emits inner h n hn)
  | .inline (some own) _ inner, c, normal, h => by
    rw [normalize] at h
    obtain ⟨narrowed, hi, h⟩ := h.of_bind
    intro n hn
    split at h
    · next hnil =>
      obtain ⟨_, -, h⟩ := h.of_bind
      cases h.of_pure
      cases List.mem_singleton.1 hn
      exact .excluded (.head _) (List.isEmpty_iff.1 hnil ▸ hi)
    · obtain ⟨parts, hp, h⟩ := h.of_bind
      cases h.of_pure
      obtain ⟨part, hpart, hn⟩ := List.mem_flatten.1 hn
      obtain ⟨c', hc', hparts⟩ := exists_of_forall₂ hp.of_mapM.flip part hpart
      exact .narrowed (.head _) hi hc' (normalizeAll_emits inner hparts n hn)

/-- The normal form of selections comes out of them. -/
theorem normalizeAll_emits : ∀ (selections : List Selection) {c : Name}
    {normal : List NormalSelection},
    Gives (normalizeAll c selections : LookupM schema LookupError _) normal →
    ∀ n ∈ normal, Emits schema c selections n
  | [], c, normal, h => by
    cases h.of_pure
    simp
  | s :: rest, c, normal, h => by
    obtain ⟨first, hf, h⟩ := h.of_bind
    obtain ⟨tail, ht, h⟩ := h.of_bind
    cases h.of_pure
    intro n hn
    rcases List.mem_append.1 hn with hn | hn
    · exact (normalize_emits s hf n hn).mono (by simp)
    · exact (normalizeAll_emits rest ht n hn).mono fun _ => List.mem_cons_of_mem s

end

end Selection

end EntityGraph
